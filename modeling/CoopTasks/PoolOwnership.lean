import CoopTasks.PoolCreate
import CoopTasks.PoolLayout

/-!
Who has which fragment, whatever the threads do: the pool never hands a fragment out twice,
never loses one, and leaves the fragments of its clients alone, as long as no word it compares
was replaced by an equal one behind its back.
-/

namespace CoopTasks.Pool

open CoopTasks.Chain CoopTasks.Append CoopTasks.Advance CoopTasks.Placement CoopTasks.Machine
open CoopTasks.SizeT

variable {D : Type*} {s s' s₀ : PoolState D} {n cap : ℕ} {c : List ℕ} {weak : Bool} {d : D}

/-- Every fragment is in exactly one place, and one that is neither owned nor in the hands of
a call is on the chain. -/
structure Ownership (cap : ℕ) (s : PoolState D) : Prop where
  place : ∀ f ≤ cap, ∃! p, At s s.chain f p
  only : ∀ f p, At s s.chain f p → f ≤ cap
  once : ∀ o, (s.owns o).Nodup
  chained : ∀ f ≤ cap, (∀ t, (s.calls t).held ≠ some f) → (∀ o, f ∉ s.owns o) → f ∈ s.chain

/-- The steps of calls that `ok` admits change no byte of a fragment that a client owns, and
what such a step gives to a client was nobody's. -/
def HandsOff (ok : PoolState D → Act D → Prop) (s : PoolState D) : Prop :=
  ∀ t weak s', ok s (.step t weak) → next s (.step t weak) = some s' →
    (∀ o, ∀ f ∈ s.owns o, s'.cells.link f = s.cells.link f ∧ s'.cells.data f = s.cells.data f) ∧
    ∀ o, ∀ f ∈ s'.owns o, f ∉ s.owns o → ∀ o', f ∉ s.owns o'

/-- The pool is sound and no thread is setting it up. -/
def Sound (cap : ℕ) (s : PoolState D) : Prop :=
  ∃ c, Inv s (cap + 1) c ∧ Live s ∧ s.pool.capacity = cap

theorem sound_step {a : Act D} (h : Sound cap s) (hfresh : Fresh s a) (hs : next s a = some s') :
    Sound cap s' := by
  obtain ⟨c, hI, hlive, hcap⟩ := h
  cases a with
  | callAlloc t o =>
    simp only [next] at hs
    split at hs
    · rename_i hout
      obtain rfl := by simpa using hs
      refine ⟨c, hI.setCall ?_ trivial, Live.setCall (fun u _ => hlive u) (by simp), hcap⟩
      cases hc : s.calls t <;> simp [hc, Call.outside, Call.held] at hout ⊢
    · simp at hs
  | callFree t o f =>
    simp only [next] at hs
    split at hs
    · rename_i hout
      obtain rfl := by simpa using hs
      exact ⟨c, callFree_inv hI hout.1 hout.2, Live.setCall (fun u _ => hlive u) (by simp), hcap⟩
    · simp at hs
  | write o f v d =>
    simp only [next] at hs
    split at hs
    · rename_i hf
      obtain rfl := by simpa using hs
      have hne : ∀ g, g ∉ s.owns o → g ≠ f := by rintro g hg rfl; exact hg hf
      refine ⟨c, hI.setCells (mild_write.trans mild_setData) (fun g hg => ?_) fun u g hg => ?_,
        hlive, hcap⟩
      · have := hne g (hI.not_owned_of_mem hg o)
        exact (same_write this).trans (same_setData this)
      · have := hne g (hI.not_owned_of_held hg o)
        exact write_ne _ _ this
    · simp at hs
  | step t weak =>
    rw [Fresh, hI.chain_eq hcap] at hfresh
    obtain ⟨c', hI', hlive', hmoved, -⟩ := threadStep_inv hI hlive hfresh hs
    exact ⟨c', hI', hlive', hmoved.capacity.trans hcap⟩

theorem sound_of_reach (hmax : cap + 1 ≤ sizeMax) (h₀ : Created cap d s₀)
    (h : Reach next Fresh s₀ s) : Sound cap s := by
  obtain ⟨hI, hlive, hcap, -⟩ := created_inv hmax h₀
  exact h.inv ⟨_, hI, hlive, hcap⟩ fun _ _ _ => sound_step

lemma Sound.ownership (h : Sound cap s) : Ownership cap s := by
  obtain ⟨c, hI, -, hcap⟩ := h
  rw [← hI.chain_eq hcap] at hI
  refine ⟨fun f hf => hI.placed.existsUnique (by omega), fun f p hp => ?_, hI.nodup,
    fun f hf hheld howned => ?_⟩
  · have := hI.placed.mem f p hp
    omega
  · obtain ⟨p, hp⟩ := hI.placed.one f (by omega)
    cases p with
    | chain => exact hp
    | call t => exact absurd hp (hheld t)
    | client o => exact absurd hp (howned o)

lemma Sound.handsOff (h : Sound cap s) : HandsOff Fresh s := by
  obtain ⟨c, hI, hlive, hcap⟩ := h
  intro t weak s' hfresh hs
  rw [Fresh, hI.chain_eq hcap] at hfresh
  obtain ⟨c', -, -, hmoved, -⟩ := threadStep_inv hI hlive hfresh hs
  refine ⟨fun o f hf => ⟨(hmoved.same o f hf).1, (hmoved.same o f hf).2.1⟩,
    fun o f hf hnew o' => ?_⟩
  rcases hmoved.owns with ⟨he, -⟩ | ⟨o'', g, hcur, -, he⟩
  · exact absurd (he ▸ hf) hnew
  · rw [he] at hf
    obtain rfl : f = g := by
      by_cases ho : o = o''
      · subst ho
        simpa [hnew] using hf
      · rw [Function.update_of_ne ho] at hf
        exact absurd hf hnew
    exact hI.not_owned_of_held (t := t) (by rw [hcur]; rfl) o'

/-- **Ownership**: in every run in which no step is deceived by a word that was replaced and
looks the same again, each fragment of a pool whose sizes do not wrap has one place, and the
clients' fragments are left alone. -/
theorem mempool_ownership {memory : Bool} {dataBytes : ℕ} {made : PoolState D}
    (hfit : SizesFit dataBytes cap) (hmake : mempoolCreate memory dataBytes cap d = .ok made)
    (hrun : Reach next (fun _ a => a.isStep 0 = true) made s₀)
    (hret : s₀.calls 0 = .returned none) (h : Reach next Fresh s₀ s) :
    Ownership cap s ∧ HandsOff Fresh s := by
  obtain ⟨rfl, -⟩ := mempoolCreate_ok hmake
  have hsound : Sound cap s := sound_of_reach hfit.2 ⟨hrun, hret⟩ h
  exact ⟨hsound.ownership, hsound.handsOff⟩

/-! ### Runs of a pool of two -/

/-- A client takes a fragment, overwrites it and gives it back. -/
theorem mempool_ownership_two : ∃ s₀ s : PoolState Unit, Created 2 () s₀ ∧
    Reach next Fresh s₀ s ∧ s.chain = [1, 2, 0] ∧ Ownership 2 s ∧ HandsOff Fresh s := by
  obtain ⟨s₀, s, h₀, hs, hp⟩ := exists_created 2 () Fresh
    (fun s => decide (s.chain = [1, 2, 0])) (List.replicate 18 (strongStep 0))
    (List.flatten [.callAlloc 1 1 :: List.replicate 6 (strongStep 1),
      [.write 1 0 ⟨7, some 9⟩ (), .callFree 1 1 0], List.replicate 7 (strongStep 1)])
    (by decide +kernel)
  have hmake : mempoolCreate true 16 2 () = .ok (raw 2 ()) :=
    mempoolCreate_made (by decide) (by decide) (by decide) (by decide)
  exact ⟨s₀, s, h₀, hs, by simpa using hp,
    mempool_ownership ⟨by decide, by decide⟩ hmake h₀.1 h₀.2 hs⟩

/-- Thread 1 is about to hang fragment 0 on fragment 2, the last of the chain, when thread 2
empties the pool: `internal_mempool_put` resets the count that thread 1 has read, so its
compare-exchange goes through and overwrites the link word of a fragment that client 2 owns. -/
theorem mempool_put_hits_owned : ¬ ∀ (dataBytes cap : ℕ) (s₀ s : PoolState Unit),
    SizesFit dataBytes cap → mempoolCreate true dataBytes cap () = .ok (raw cap ()) →
    Created cap () s₀ → Reach next (fun _ a => a.strong = true) s₀ s →
    Ownership cap s ∧ HandsOff (fun _ a => a.strong = true) s := by
  intro hall
  obtain ⟨s₀, s, h₀, hs, hp⟩ := exists_created 2 () (fun _ a => a.strong = true)
    (fun s => decide (2 ∈ s.owns 2) &&
      (next s (strongStep 1)).any fun s' => decide (s'.cells.link 2 ≠ s.cells.link 2))
    (List.replicate 18 (strongStep 0))
    (List.flatten [.callAlloc 1 1 :: List.replicate 6 (strongStep 1),
      .callFree 1 1 0 :: List.replicate 4 (strongStep 1),
      .callAlloc 2 2 :: List.replicate 6 (strongStep 2),
      .callFree 2 2 1 :: List.replicate 7 (strongStep 2),
      .callAlloc 2 2 :: List.replicate 6 (strongStep 2), [.write 2 2 ⟨0, none⟩ ()]])
    (by decide +kernel)
  simp only [Bool.and_eq_true, decide_eq_true_eq, Option.any_eq_true] at hp
  obtain ⟨hown, s', hs', hne⟩ := hp
  have hmake : mempoolCreate true 16 2 () = .ok (raw 2 ()) :=
    mempoolCreate_made (by decide) (by decide) (by decide) (by decide)
  have hoff := (hall 16 2 s₀ s ⟨by decide, by decide⟩ hmake h₀ hs).2
  exact hne ((hoff 1 false s' rfl hs').1 2 2 hown).1

end CoopTasks.Pool
