import CoopTasks.PoolFifo
import Mathlib.Algebra.Order.BigOperators.Group.Finset

/-!
The counter of free fragments while calls are under way.

A put hangs its fragment on the chain before it raises the counter, and a pick lowers the
counter after it has taken its fragment: the counter says how many fragments are neither
outstanding nor inside a `mempool_free` that has not raised it yet.
-/

namespace CoopTasks.Pool

open CoopTasks.Advance CoopTasks.SizeT CoopTasks.Machine

variable {D : Type*} {s s' s₀ : PoolState D} {T O : Finset ℕ} {n t o : ℕ} {a : Act D}

/-- Whether the call is one of `mempool_free` that has not raised the counter yet. -/
def Call.freeing : Call D → Bool
  | .free _ _ => true
  | _ => false

/-- Whether the next step is the `atomic_fetch_sub` of a pick. -/
def Call.lowers : Call D → Bool
  | .alloc _ (.count _) => true
  | _ => false

/-- How many fragments the clients `O` own. -/
def outstanding (O : Finset ℕ) (s : PoolState D) : ℕ := ∑ o ∈ O, (s.owns o).length

/-- How many of the threads `T` are freeing. -/
def freeing (T : Finset ℕ) (s : PoolState D) : ℕ := ∑ t ∈ T, (s.calls t).freeing.toNat

/-- An action of the threads `T` and the clients `O`. -/
def Act.Among (T O : Finset ℕ) : Act D → Prop
  | .callAlloc t o | .callFree t o _ => t ∈ T ∧ o ∈ O
  | .write o _ _ _ => o ∈ O
  | .step t _ => t ∈ T

instance : (a : Act D) → Decidable (a.Among T O)
  | .callAlloc t o | .callFree t o _ => inferInstanceAs (Decidable (t ∈ T ∧ o ∈ O))
  | .write o _ _ _ => inferInstanceAs (Decidable (o ∈ O))
  | .step t _ => inferInstanceAs (Decidable (t ∈ T))

/-- Where a pick lowers the counter, fewer fragments than the capacity are outstanding or being
freed. -/
def Covered (T O : Finset ℕ) (s : PoolState D) : Act D → Prop
  | .step t _ =>
    (s.calls t).lowers = true → outstanding O s + freeing T s < s.pool.capacity
  | _ => True

instance (s : PoolState D) : (a : Act D) → Decidable (Covered T O s a)
  | .step t _ => inferInstanceAs (Decidable ((s.calls t).lowers = true →
      outstanding O s + freeing T s < s.pool.capacity))
  | .callAlloc _ _ | .callFree _ _ _ | .write _ _ _ _ => inferInstanceAs (Decidable True)

/-- The counter and what it does not count make up the capacity. -/
structure Count (T O : Finset ℕ) (n : ℕ) (s : PoolState D) : Prop where
  capacity : s.pool.capacity = n
  sum : s.pool.freeable + outstanding O s + freeing T s = n
  live : Live s
  client : ∀ t o pc, s.calls t = .alloc o pc → o ∈ O

/-! ### One step -/

lemma outstanding_update (ho : o ∈ O) (l : List ℕ) :
    outstanding O { s with owns := Function.update s.owns o l } + (s.owns o).length =
      outstanding O s + l.length :=
  Placement.sum_update ho List.length s.owns l

lemma freeing_setCall (ht : t ∈ T) (call : Call D) :
    freeing T (s.setCall t call) + (s.calls t).freeing.toNat =
      freeing T s + call.freeing.toNat :=
  Placement.sum_update ht (fun call => call.freeing.toNat) s.calls call

lemma Count.go (h : Count T O n s) (ht : t ∈ T) {x : PoolState D} {call : Call D}
    (hx : x.calls = s.calls) (hcap : x.pool.capacity = s.pool.capacity)
    (hset : ∀ pc, call ≠ .setup pc) (halloc : ∀ o pc, call = .alloc o pc → o ∈ O)
    (hsum : x.pool.freeable + outstanding O x + call.freeing.toNat =
      s.pool.freeable + outstanding O s + (s.calls t).freeing.toNat) :
    Count T O n (x.setCall t call) where
  capacity := hcap.trans h.capacity
  sum := by
    have hf := freeing_setCall (s := x) ht call
    have hsame : freeing T x = freeing T s := by unfold freeing; rw [hx]
    have hout : outstanding O (x.setCall t call) = outstanding O x := rfl
    have := h.sum
    rw [hx] at hf
    rw [setCall_pool, hout]
    omega
  live := Live.setCall (fun u _ pc => by rw [hx]; exact h.live u pc) hset
  client u o pc hu := by
    by_cases hut : u = t
    · rw [hut, setCall_self] at hu
      exact halloc o pc hu
    · rw [setCall_ne hut, hx] at hu
      exact h.client u o pc hu

lemma pick_more {pc : TakePc ℕ D} {P : MemoryPool} {r : PickRes D} {C : Chain.Cells ℕ D}
    {weak : Bool} (h : internalMempoolPick weak s.pool C (.loop pc) = some (P, r)) :
    P.capacity = s.pool.capacity ∧ P.freeable = s.pool.freeable ∧
      ∀ f, r ≠ .ret (some f) := by
  obtain ⟨E, r', -, rfl, rfl⟩ := by simpa [internalMempoolPick] using h
  cases r' <;> simp

lemma count_step (hn : n ≤ sizeMax) (h : Count T O n s) (hamong : a.Among T O)
    (hcov : Covered T O s a) (hs : next s a = some s') : Count T O n s' := by
  have hfreeing : ∀ t, (s.calls t).outside = true → (s.calls t).freeing = false := fun t ht => by
    cases hc : s.calls t <;> simp_all [Call.outside, Call.freeing]
  cases a with
  | callAlloc t o =>
    simp only [next] at hs
    split at hs
    · rename_i hout
      obtain rfl := by simpa using hs
      refine h.go hamong.1 rfl rfl (by simp) (fun o' pc hc => ?_) (by rw [hfreeing t hout]; rfl)
      obtain ⟨rfl, -⟩ : o = o' ∧ _ := by simpa using hc
      exact hamong.2
    · simp at hs
  | callFree t o f =>
    simp only [next] at hs
    split at hs
    · rename_i hout
      obtain rfl := by simpa using hs
      refine h.go hamong.1 rfl rfl (by simp) (by simp) ?_
      -- the fragment that the client gives back is counted with the call
      have hout' := outstanding_update (s := s) hamong.2 ((s.owns o).erase f)
      have hlen := List.length_erase_of_mem hout.2
      have hpos := List.length_pos_of_mem hout.2
      rw [hfreeing t hout.1]
      simp only [Call.freeing, Bool.toNat_true, Bool.toNat_false]
      omega
    · simp at hs
  | write o f v d =>
    simp only [next] at hs
    split at hs
    · obtain rfl := by simpa using hs
      exact ⟨h.capacity, h.sum, h.live, h.client⟩
    · simp at hs
  | step t weak =>
    have hs : threadStep s t weak = some s' := hs
    unfold threadStep at hs
    split at hs
    · simp at hs
    · simp at hs
    · rename_i o pc hcur
      have ho := h.client t o pc hcur
      have hother : ∀ o' pc' (pc'' : PickCall D), Call.alloc o pc'' = .alloc o' pc' → o' ∈ O := by
        rintro o' pc' pc'' ⟨⟩
        exact ho
      cases pc with
      | loop pc =>
        obtain ⟨P, r, hpick, rfl⟩ := by simpa using hs
        obtain ⟨hcap, hfree, hne⟩ := pick_more hpick
        cases r with
        | more pc' =>
          exact h.go hamong rfl hcap (by simp) (fun o' pc'' => hother o' pc'' pc')
            (by simp [hcur, hfree, Call.freeing, outstanding])
        | ret f =>
          cases f with
          | none =>
            exact h.go hamong rfl hcap (by simp) (by simp)
              (by simp [hcur, hfree, Call.freeing, outstanding])
          | some f => exact absurd rfl (hne f)
      | count f =>
        obtain rfl := by simpa [internalMempoolPick] using hs
        refine h.go hamong rfl rfl (by simp) (by simp) ?_
        -- the condition says that the counter is not zero here
        have hpos := hcov (by simp [hcur, Call.lowers])
        have hsum := h.sum
        rw [h.capacity] at hpos
        have hout := outstanding_update (s := s) ho (f :: s.owns o)
        rw [List.length_cons] at hout
        have hsame : ∀ P, outstanding O { s with
            pool := P, owns := Function.update s.owns o (f :: s.owns o) } =
          outstanding O { s with owns := Function.update s.owns o (f :: s.owns o) } :=
          fun _ => rfl
        simp only [hsame, hcur, Call.freeing, Bool.toNat_false]
        rw [sizeSub_eq (by omega)]
        omega
    · rename_i f pc hcur
      obtain ⟨P, C, r, hput, rfl⟩ := by simpa using hs
      have hsame : outstanding O { s with pool := P, cells := C } = outstanding O s := rfl
      cases r with
      | none =>
        obtain ⟨-, hfree⟩ := put_returns hput
        refine h.go hamong rfl (put_capacity hput) (by simp) (by simp) ?_
        have hsum := h.sum
        have hpos : (s.calls t).freeing.toNat ≤ freeing T s :=
          Finset.single_le_sum (f := fun t => (s.calls t).freeing.toNat)
            (fun _ _ => Nat.zero_le _) hamong
        simp only [hcur, Call.freeing, Bool.toNat_true] at hpos
        simp only [hsame, hfree, hcur, Option.elim_none, Call.freeing, Bool.toNat_true,
          Bool.toNat_false]
        rw [sizeAdd_eq (by omega)]
        omega
      | some pc' =>
        exact h.go hamong rfl (put_capacity hput) (by simp) (by simp)
          (by simp [hcur, put_goes hput, Call.freeing, outstanding])
    · rename_i pc hcur
      exact absurd hcur (h.live t pc)

/-! ### Runs -/

lemma created_count {d : D} (h₀ : Created n d s₀) (hn : n + 1 ≤ sizeMax) : Count T O n s₀ := by
  obtain ⟨-, -, hcap, -⟩ := created_inv hn h₀
  obtain ⟨-, howns, hfree⟩ := created_rest hn h₀
  obtain ⟨-, hidle, -⟩ := created_laying h₀
  have hcall : ∀ t, s₀.calls t = .idle ∨ s₀.calls t = .returned none := fun t => by
    by_cases ht : t = 0
    · exact .inr (ht ▸ h₀.2)
    · exact .inl (hidle t ht)
  refine ⟨hcap, ?_, fun t pc hpc => ?_, fun t o pc hpc => ?_⟩
  · have hout : outstanding O s₀ = 0 := Finset.sum_eq_zero fun o _ => by rw [howns o]; rfl
    have hfreeing : freeing T s₀ = 0 := Finset.sum_eq_zero fun t _ => by
      rcases hcall t with hc | hc <;> simp [hc, Call.freeing]
    omega
  · rcases hcall t with hc | hc <;> simp [hc] at hpc
  · rcases hcall t with hc | hc <;> simp [hc] at hpc

lemma Count.wraps {weak : Bool} (h : Count T O n s) (hn : n < sizeMax)
    (hlow : (s.calls t).lowers = true) (hcov : ¬ Covered T O s (.step t weak))
    (hs : threadStep s t weak = some s') : n < s'.pool.freeable := by
  have hsum := h.sum
  obtain ⟨-, hge⟩ : (s.calls t).lowers = true ∧ n ≤ outstanding O s + freeing T s := by
    simpa [Covered, h.capacity] using hcov
  have hzero : s.pool.freeable = 0 := by omega
  cases hcur : s.calls t with
  | alloc o pc =>
    cases pc with
    | loop pc => simp [hcur, Call.lowers] at hlow
    | count f =>
      obtain rfl := by simpa [threadStep, hcur, internalMempoolPick] using hs
      simpa [hzero, sizeSub, sizeMax] using hn
  | _ => simp [hcur, Call.lowers] at hlow

/-- **The counter**: it stays in range in every run whose picks lower it only where fewer
fragments than the capacity are outstanding or being freed. The first pick that does so
elsewhere takes it out of range. -/
theorem mempool_freeable_bounded {memory : Bool} {dataBytes : ℕ} {d : D} {made : PoolState D}
    (hfit : SizesFit dataBytes n) (hmake : mempoolCreate memory dataBytes n d = .ok made)
    (hrun : Reach next (fun _ a => a.isStep 0 = true) made s₀)
    (hret : s₀.calls 0 = .returned none) (T O : Finset ℕ)
    (h : Reach next (fun s a => a.Among T O ∧ Covered T O s a) s₀ s) :
    s.pool.freeable ≤ n ∧ 0 ≤ mempoolFreeable s ∧
      ∀ t weak s', (s.calls t).lowers = true → ¬ Covered T O s (.step t weak) →
        next s (.step t weak) = some s' → n < s'.pool.freeable := by
  have hn := capacity_lt hfit hmake
  obtain ⟨rfl, -⟩ := mempoolCreate_ok hmake
  have hmax : n < sizeMax := by unfold sizeMax; omega
  have hcount : Count T O n s :=
    h.inv (created_count ⟨hrun, hret⟩ hfit.2) fun t a u ht ha hu =>
      count_step hmax.le ht ha.1 ha.2 hu
  have hsum := hcount.sum
  refine ⟨by omega, ?_, fun t weak s' hlow hcov hs => hcount.wraps hmax hlow hcov hs⟩
  rw [mempoolFreeable, toSsize_eq (by omega)]
  omega

/-- A pool of two: client 1 takes a fragment and gives it back while client 2 takes one. -/
theorem mempool_freeable_bounded_two : ∃ s₀ s : PoolState Unit,
    Reach next (fun s a => a.Among {1, 2} {1, 2} ∧ Covered {1, 2} {1, 2} s a) s₀ s ∧
    s.owns 2 = [1] ∧ s.pool.freeable ≤ 2 ∧ 0 ≤ mempoolFreeable s := by
  obtain ⟨s₀, s, ⟨hrun, hret⟩, hs, hp⟩ := exists_created 2 ()
    (fun s a => a.Among {1, 2} {1, 2} ∧ Covered {1, 2} {1, 2} s a)
    (fun s => decide (s.owns 2 = [1])) (List.replicate 18 (strongStep 0))
    (List.flatten [.callAlloc 1 1 :: List.replicate 6 (strongStep 1),
      .callFree 1 1 0 :: List.replicate 6 (strongStep 1),
      .callAlloc 2 2 :: List.replicate 5 (strongStep 2), [strongStep 1, strongStep 2]])
    (by decide +kernel)
  have hmake : mempoolCreate true 16 2 () = .ok (raw 2 ()) :=
    mempoolCreate_made (by decide) (by decide) (by decide) (by decide)
  obtain ⟨h1, h2, -⟩ := mempool_freeable_bounded ⟨by decide, by decide⟩ hmake hrun hret _ _ hs
  exact ⟨s₀, s, hs, by simpa using hp, h1, h2⟩

/-- A pool of one: thread 1 has hung its fragment on the chain and has not raised the counter
yet when thread 2 takes a fragment and lowers the counter from zero. -/
theorem mempool_freeable_wraps : ¬ ∀ (n : ℕ) (s₀ s : PoolState Unit), Created n () s₀ →
    Reach next (fun _ a => a.strong = true) s₀ s →
    s.pool.freeable ≤ n ∧ 0 ≤ mempoolFreeable s := by
  intro hall
  obtain ⟨s₀, s, h₀, hs, hp⟩ := exists_created 1 () (fun _ a => a.strong = true)
    (fun s => decide (s.pool.freeable = sizeMax)) (List.replicate 10 (strongStep 0))
    (List.flatten [.callAlloc 1 1 :: List.replicate 6 (strongStep 1),
      .callFree 1 1 0 :: List.replicate 6 (strongStep 1),
      .callAlloc 2 2 :: List.replicate 6 (strongStep 2)])
    (by decide +kernel)
  have hmax : s.pool.freeable = sizeMax := by simpa using hp
  have hle := (hall 1 s₀ s h₀ hs).1
  rw [hmax] at hle
  exact absurd hle (by decide)

end CoopTasks.Pool
