import CoopTasks.Contention
import CoopTasks.PoolLinear
import CoopTasks.Progress

/-!
The pool is lock-free: threads that get in each other's way hold each other up only so often, and
calls return all the same.

A `mempool_alloc` wins once, when it moves the head; a `mempool_free` wins when it links its
fragment, and leaves the tail to be moved once more.
-/

namespace CoopTasks.Pool

open CoopTasks.Chain CoopTasks.Append CoopTasks.Advance CoopTasks.Contention CoopTasks.Machine
open CoopTasks.Linearize CoopTasks.Progress CoopTasks.SizeT

variable {D : Type*} {s s' s₀ : PoolState D} {n cap k t : ℕ} {c : List ℕ} {a : Act D} {d : D}
  {weak : Bool} {ls : List (PoolState D × Act D)} {E : Ends ℕ} {C C' : Cells ℕ D}

/-! ### What a call has left -/

/-- How often a put, or the tail that it leaves behind, may still win. -/
def PutCall.wins : PutCall → ℕ
  | .init => 2
  | .loop pc => bif pc.linked then 0 else 2
  | .count => 0

/-- How often a call may still win. -/
def Call.wins : Call D → ℕ
  | .alloc _ (.loop _) => 1
  | .free _ pc => pc.wins
  | _ => 0

/-- The steps that a put has left if it is let alone. -/
noncomputable def PutCall.left (E : Ends ℕ) (C : Cells ℕ D) : PutCall → ℕ
  | .init => 7
  | .loop pc => putLeft E C pc + 1
  | .count => 1

/-- The steps that a call has left if it is let alone. -/
noncomputable def Call.left (E : Ends ℕ) (C : Cells ℕ D) : Call D → ℕ
  | .alloc _ (.loop pc) => takeLeft E C pc + 1
  | .alloc _ (.count _) => 1
  | .free _ pc => pc.left E C
  | _ => 0

lemma Call.left_le (call : Call D) : call.left E C ≤ 12 := by
  cases call with
  | idle | returned | setup => simp [Call.left]
  | alloc o pc =>
    cases pc with
    | loop pc =>
      have hle := takeLeft_le (E := E) (C := C) pc
      simp only [Call.left]
      omega
    | count => simp [Call.left]
  | free f pc =>
    cases pc with
    | init | count => simp [Call.left, PutCall.left]
    | loop pc =>
      have hle := putLeft_le (E := E) (C := C) pc
      simp only [Call.left, PutCall.left]
      omega

lemma Call.left_congr (hL : Linked E C c) (hs : ∀ g ∈ c, Same C C' g) (call : Call D) :
    call.left E C' = call.left E C := by
  cases call with
  | idle | returned | setup => rfl
  | alloc o pc =>
    cases pc with
    | loop pc => simp only [Call.left, takeLeft_congr hL hs]
    | count => rfl
  | free f pc =>
    cases pc with
    | init | count => rfl
    | loop pc => simp only [Call.left, PutCall.left, putLeft_congr hL hs]

/-! ### One step -/

lemma put_works {P P' : MemoryPool} {f : ℕ} {pc : PutCall} {r : Option PutCall}
    (hL : Linked P.ends C c) (hok : FreeOk P.ends C c f pc)
    (hfresh : ∀ p, pc = .loop p → PutFresh weak P.ends C c p)
    (hf : pc.held f = some f → f ∉ c)
    (h : internalMempoolPut weak f P C pc = some (P', C', r)) :
    (P'.ends = P.ends ∧ (∀ g ∈ c, Same C C' g) ∧ r.elim 0 PutCall.wins ≤ pc.wins ∧
      (weak = false → r.elim 0 (PutCall.left P'.ends C') < pc.left P.ends C)) ∨
    ∃ c', Linked P'.ends C' c' ∧
      behind P'.ends c' + r.elim 0 PutCall.wins < behind P.ends c + pc.wins := by
  cases pc with
  | init =>
    obtain ⟨rfl, rfl, rfl⟩ := by simpa [internalMempoolPut] using h
    refine .inl ⟨rfl, fun g hg => same_write ?_, ?_, fun _ => ?_⟩
    · rintro rfl
      exact hf rfl hg
    · simp [PutCall.wins, PutPc.linked]
    · have hstart : putLeft P.ends (C.write f memoryFragmentMaker) .loadTail = 5 :=
        putLeft_alone trivial
      simp [PutCall.left, hstart]
  | count =>
    obtain ⟨rfl, rfl, rfl⟩ := by simpa [internalMempoolPut] using h
    exact .inl ⟨rfl, fun _ _ => .refl, by simp, fun _ => by simp [PutCall.left]⟩
  | loop pc =>
    obtain ⟨E', r', hstep, rfl, rfl⟩ := by simpa [internalMempoolPut] using h
    have hf' : pc.linked = false → f ∉ c ∧ (C.link f).ptr = none := fun hlk =>
      ⟨hf (by simp [PutCall.held, hlk]), hok.2 hlk⟩
    have hwins : (r' = none → pc.linked = true) → (∀ pc' ∈ r', pc'.linked = pc.linked) →
        (r'.elim PutCall.count PutCall.loop).wins = (PutCall.loop pc).wins := fun hend hlk => by
      cases r' with
      | none => simp [PutCall.wins, hend rfl]
      | some pc' => simp [PutCall.wins, hlk pc' rfl]
    rcases put_work hL hok.1 (hfresh pc rfl) hf' hstep with
      ⟨rfl, hL', hend, hlk, ⟨rfl, hleft⟩ | hb⟩ | ⟨rfl, hL', hlk, tail, rfl⟩
    · refine .inl ⟨rfl, fun _ _ => .refl, (hwins hend hlk).le, fun hweak => ?_⟩
      have hlt := hleft hweak
      cases r' with
      | none =>
        have hpos : 0 < putLeft P.ends C' pc := by simpa using hlt
        simpa [PutCall.left] using hpos
      | some pc' => simpa [PutCall.left] using hlt
    · refine .inr ⟨c, hL', ?_⟩
      show behind E' c + (r'.elim PutCall.count PutCall.loop).wins < _
      rw [hwins hend hlk]
      omega
    · have hb := behind_link hL (hf' hlk).1
      have hw : (PutCall.loop pc).wins = 2 := by simp [PutCall.wins, hlk]
      have hw' : (PutCall.loop (.swing tail)).wins = 0 := rfl
      refine .inr ⟨c ++ [f], hL', ?_⟩
      simpa [hw, hw'] using by omega

/-- A step of a call that leaves the chain and its ends as they were. -/
structure Plain (s s' : PoolState D) (c : List ℕ) (t : ℕ) (weak : Bool) : Prop where
  ends : s'.pool.ends = s.pool.ends
  same : ∀ g ∈ c, Same s.cells s'.cells g
  wins : (s'.calls t).wins ≤ (s.calls t).wins
  left : weak = false →
    (s'.calls t).left s'.pool.ends s'.cells < (s.calls t).left s.pool.ends s.cells

/-- A step of a call goes on, or wins. -/
theorem threadStep_works (hI : Inv s n c) (hlive : Live s)
    (hfresh : CallFresh weak s.pool.ends s.cells c (s.calls t))
    (hs : threadStep s t weak = some s') :
    Plain s s' c t weak ∨ ∃ c', Linked s'.pool.ends s'.cells c' ∧
      behind s'.pool.ends c' + (s'.calls t).wins < behind s.pool.ends c + (s.calls t).wins := by
  have hok := hI.calls t
  unfold threadStep at hs
  split at hs
  · simp at hs
  · simp at hs
  · rename_i o pc hcur
    rw [hcur] at hok hfresh
    obtain ⟨P, r, hpick, rfl⟩ := by simpa using hs
    cases pc with
    | count f =>
      obtain ⟨rfl, rfl⟩ := by simpa [internalMempoolPick] using hpick
      refine .inl ⟨rfl, fun _ _ => .refl, ?_, fun _ => ?_⟩
      · simp [hcur, Call.wins]
      · simp [hcur, Call.left]
    | loop pc =>
      obtain ⟨E', r', htake, rfl, rfl⟩ := by simpa [internalMempoolPick] using hpick
      rcases take_work hI.linked hok hfresh htake with
        ⟨hL', hno, hcase⟩ | ⟨f, q, buf, rfl, rfl, hL', hb⟩
      · cases r' with
        | took f buf => exact absurd rfl (hno f buf)
        | more pc' =>
          rcases hcase with ⟨rfl, hleft⟩ | hb
          · refine .inl ⟨rfl, fun _ _ => .refl, ?_, fun hweak => ?_⟩
            · simp [hcur, Call.wins]
            · simpa [hcur, Call.left] using hleft hweak pc' rfl
          · refine .inr ⟨c, hL', ?_⟩
            simpa [hcur, Call.wins] using by omega
        | empty =>
          rcases hcase with ⟨rfl, hleft⟩ | hb
          · refine .inl ⟨rfl, fun _ _ => .refl, ?_, fun _ => ?_⟩
            · simp [hcur, Call.wins]
            · simp [hcur, Call.left]
          · refine .inr ⟨c, hL', ?_⟩
            simpa [hcur, Call.wins] using by omega
      · refine .inr ⟨q, hL', ?_⟩
        simpa [hcur, Call.wins] using by omega
  · rename_i f pc hcur
    rw [hcur] at hok hfresh
    obtain ⟨P, C, r, hput, rfl⟩ := by simpa using hs
    have hf : pc.held f = some f → f ∉ c := fun hheld =>
      hI.not_mem_of_held (t := t) (by rw [hcur]; exact hheld)
    have hcase := put_works hI.linked hok (by rintro p rfl; exact hfresh) hf hput
    have hwins : (r.elim (Call.returned none) (Call.free f) : Call D).wins =
        r.elim 0 PutCall.wins := by cases r <;> rfl
    have hleft : (r.elim (Call.returned none) (Call.free f) : Call D).left P.ends C =
        r.elim 0 (PutCall.left P.ends C) := by cases r <;> rfl
    rcases hcase with ⟨hE, hsame, hw, hl⟩ | ⟨c', hL', hb⟩
    · refine .inl ⟨hE, hsame, ?_, fun hweak => ?_⟩
      · rw [setCall_self, hwins, hcur]
        exact hw
      · rw [setCall_self, hcur]
        exact hleft.trans_lt (hl hweak)
    · refine .inr ⟨c', hL', ?_⟩
      rw [setCall_self, hwins, hcur]
      exact hb
  · rename_i pc hcur
    exact absurd hcur (hlive t pc)

/-! ### One move -/

/-- Whether this is a step inside a call. -/
def Act.steps : Act D → Bool
  | .step _ _ => true
  | _ => false

/-- Whether this is a step whose compare-exchange, if it makes one, fails spuriously. -/
def Act.fails : Act D → Bool
  | .step _ weak => weak
  | _ => false

/-- Whether one of the first `k` threads moves, or a client. -/
def Act.within (k : ℕ) : Act D → Bool
  | .callAlloc t _ | .callFree t _ _ | .step t _ => decide (t < k)
  | .write _ _ _ _ => true

/-- How often the calls of the first `k` threads may still win. -/
def PoolState.wins (s : PoolState D) (k : ℕ) : ℕ :=
  ∑ t ∈ Finset.range k, (s.calls t).wins + behind s.pool.ends s.chain

noncomputable def PoolState.left (s : PoolState D) (t : ℕ) : ℕ :=
  (s.calls t).left s.pool.ends s.cells

lemma wins_outside {call : Call D} (h : call.outside = true) : call.wins = 0 := by
  cases call <;> first | rfl | cases h

lemma left_outside {call : Call D} (h : call.outside = true) : call.left E C = 0 := by
  cases call <;> first | rfl | cases h

lemma setCall_works {call : Call D} {o : ℕ → List ℕ} (ht : t < k)
    (hout : (s.calls t).outside = true) (hw : call.wins ≤ 2) :
    Works (Finset.range k) 12 2 (s.wins k) (({ s with owns := o }.setCall t call).wins k) s.left
      ({ s with owns := o }.setCall t call).left 0 1 := by
  have hothers : ∀ q, q ≠ t → ({ s with owns := o }.setCall t call).calls q = s.calls q :=
    fun q hq => setCall_ne hq
  refine .call t ?_ (Call.left_le _) fun q hq => ?_
  · have hsum := sum_one (fun q => (s.calls q).wins)
      (fun q => (({ s with owns := o }.setCall t call).calls q).wins)
      (Finset.mem_range.mpr ht) fun q hq => by rw [hothers q hq]
    rw [setCall_self, wins_outside hout] at hsum
    show ∑ q ∈ Finset.range k, (({ s with owns := o }.setCall t call).calls q).wins +
      behind s.pool.ends s.chain ≤ ∑ q ∈ Finset.range k, (s.calls q).wins +
        behind s.pool.ends s.chain + 2
    omega
  · unfold PoolState.left
    rw [hothers q hq]
    exact le_rfl

lemma move_works (hI : Inv s (cap + 1) c) (hlive : Live s) (hcap : s.pool.capacity = cap)
    (hfresh : Fresh s a) (hin : a.within k = true) (hs : next s a = some s') :
    Works (Finset.range k) 12 2 (s.wins k) (s'.wins k) s.left s'.left a.steps.toNat
      ((events s a).countP Event.isCall + a.fails.toNat) := by
  obtain ⟨c', hchain, hL', hcase⟩ := move_chain hI hlive hcap hfresh hs
  have hc : s.chain = c := hI.chain_eq hcap
  cases a with
  | callAlloc t o =>
    simp only [next] at hs
    split at hs
    · rename_i hout
      obtain rfl := by simpa using hs
      exact setCall_works (by simpa [Act.within] using hin) hout (by simp [Call.wins])
    · simp at hs
  | callFree t o f =>
    simp only [next] at hs
    split at hs
    · rename_i hout
      obtain rfl := by simpa using hs
      exact setCall_works (by simpa [Act.within] using hin) hout.1
        (by simp [Call.wins, PutCall.wins])
    · simp at hs
  | write o f v d =>
    obtain rfl : c' = c := by simpa using hcase
    simp only [next] at hs
    split at hs
    · rename_i hf
      obtain rfl := by simpa using hs
      have hsame : ∀ g ∈ c', Same s.cells ((s.cells.write f v).setData f d) g := fun g hg => by
        have hne : g ≠ f := by
          rintro rfl
          exact hI.not_owned_of_mem hg o hf
        exact (same_write hne).trans (same_setData hne)
      refine .rest ?_ fun q => ?_
      · unfold PoolState.wins
        rw [hchain, hc]
      · exact ((s.calls q).left_congr hI.linked hsame).le
    · simp at hs
  | step t weak =>
    have hs : threadStep s t weak = some s' := hs
    have ht : t ∈ Finset.range k := by simpa [Act.within] using hin
    have hevents : (events s (.step t weak)).countP Event.isCall = 0 := by
      simp only [events, hs, Option.elim_some]
      cases s'.calls t <;> rfl
    rw [Fresh, hc] at hfresh
    obtain ⟨-, -, -, hmoved, -⟩ := threadStep_inv hI hlive hfresh hs
    have hsum := sum_one (fun q => (s.calls q).wins) (fun q => (s'.calls q).wins) ht
      fun q hq => by rw [hmoved.others q hq]
    rw [hevents]
    rcases threadStep_works hI hlive hfresh hs with hplain | ⟨c'', hL'', hb⟩
    · have hlinked := hI.linked.of_same hplain.same
      rw [← hplain.ends] at hlinked
      have hwins : s'.wins k ≤ s.wins k := by
        unfold PoolState.wins
        rw [hchain, linked_unique hlinked hL', hplain.ends, hc]
        have hw := hplain.wins
        omega
      have hothers : ∀ q, q ≠ t → s'.left q ≤ s.left q := fun q hq => by
        unfold PoolState.left
        rw [hmoved.others q hq, hplain.ends]
        exact ((s.calls q).left_congr hI.linked hplain.same).le
      cases weak with
      | false => exact .on t ht hwins (hplain.left rfl) hothers
      | true => exact .fail t hwins (Call.left_le _) hothers
    · refine .win ?_ fun q => Call.left_le _
      unfold PoolState.wins
      rw [hchain, linked_unique hL'' hL', hc]
      omega

/-! ### Runs -/

lemma called_within {op : FifoOp} (hin : a.within k = true) (hcall : .call t op ∈ events s a) :
    t ∈ Finset.range k := by
  cases a with
  | callAlloc u o | callFree u o f =>
    obtain ⟨rfl, -⟩ := by simpa [events] using hcall
    simpa [Act.within] using hin
  | write => simp [events] at hcall
  | step u weak =>
    simp only [events] at hcall
    cases hs : threadStep s u weak with
    | none => simp [hs] at hcall
    | some s' =>
      rw [hs, Option.elim_some] at hcall
      cases hc : s'.calls u <;> simp [hc, Call.shown] at hcall

lemma toil_created (hmax : cap + 1 ≤ sizeMax) (h : Created cap d s) :
    toil (Finset.range k) 12 (s.wins k) s.left ≤ 12 * k + 1 := by
  obtain ⟨hI, -, hcap, hnear, -⟩ := created_inv hmax h
  obtain ⟨hout, -⟩ := created_rest hmax h
  have hwins : s.wins k ≤ 1 := by
    have hb := behind_near hI.linked hnear
    unfold PoolState.wins
    rw [hI.chain_eq hcap, Finset.sum_eq_zero fun t _ => wins_outside (hout t)]
    omega
  have hleft : ∑ t ∈ Finset.range k, s.left t = 0 :=
    Finset.sum_eq_zero fun t _ => left_outside (hout t)
  have hmul := Nat.mul_le_mul_left (k * 12 + 1) hwins
  unfold toil
  rw [hleft, Finset.card_range]
  omega

/-- **Lock-freedom**: in every run of `k` threads in which no step is deceived by a word that was
replaced and looks the same again, the threads make at most `24 k + 15` steps in the pool for each
call that returns, for each step that fails spuriously, for each thread, and once more, however
they get in each other's way. -/
theorem mempool_lock_free {memory : Bool} {dataBytes : ℕ} {made : PoolState D}
    (hfit : SizesFit dataBytes cap) (hmake : mempoolCreate memory dataBytes cap d = .ok made)
    (hrun : Reach next (fun _ a => a.isStep 0 = true) made s₀)
    (hret : s₀.calls 0 = .returned none)
    (h : Trace next (fun s a => Fresh s a ∧ a.within k = true) s₀ ls s) :
    ls.countP (fun x => x.2.steps) ≤ (24 * k + 15) * ((serving.history ls).countP Event.isRet +
      ls.countP (fun x => x.2.fails) + k + 1) := by
  obtain ⟨rfl, -⟩ := mempoolCreate_ok hmake
  have h₀ : Created cap d s₀ := ⟨hrun, hret⟩
  have hmono : ∀ {ls s}, Trace next (fun s a => Fresh s a ∧ a.within k = true) s₀ ls s →
      Trace next Fresh s₀ ls s := fun h => h.mono fun _ _ => And.left
  have hsteps : ls.countP (fun x => x.2.steps) ≤ charge (Finset.range k) 12 2 *
      ((serving.history ls).countP Event.isRet + ls.countP (fun x => x.2.fails) +
        (Finset.range k).card) + toil (Finset.range k) 12 (s₀.wins k) s₀.left := by
    refine steps_le_returns (M := serving) Answers _ _ (fun s => s.wins k) PoolState.left
      (fun ls s a s' htrace hok hs => ?_) (fun s a hok t op hcall => ?_)
      (fun ls s a s' htrace hok hs => ?_) h
    · obtain ⟨⟨c, hI⟩, hlive, hcap, hoff⟩ := offers_of_trace hfit.2 h₀ (hmono htrace)
      exact move_turns hI hlive hcap hok.1 hoff hs
    · exact called_within hok.2 hcall
    · obtain ⟨⟨c, hI⟩, hlive, hcap, -⟩ := offers_of_trace hfit.2 h₀ (hmono htrace)
      exact move_works hI hlive hcap hok.1 hok.2 hs
  have htoil := toil_created hfit.2 h₀ (k := k)
  unfold charge at hsteps
  rw [Finset.card_range] at hsteps
  have hcharge : (k * 12 + 1) * 2 + 12 + 1 = 24 * k + 15 := by omega
  rw [hcharge] at hsteps
  rw [Nat.mul_succ]
  omega

/-- Two threads take a fragment at the same time, and the one that comes too late begins again. -/
theorem mempool_lock_free_two : ∃ s₀ ls, ∃ s : PoolState Unit, Created 2 () s₀ ∧
    Trace next (fun s a => Fresh s a ∧ a.within 2 = true) s₀ ls s ∧
    serving.history ls = [.call 0 .alloc, .call 1 .alloc, .ret 1 (some 0), .ret 0 (some 1)] ∧
    ls.countP (fun x => x.2.steps) = 16 ∧
    ls.countP (fun x => x.2.steps) ≤ (24 * 2 + 15) * ((serving.history ls).countP Event.isRet +
      ls.countP (fun x => x.2.fails) + 2 + 1) := by
  obtain ⟨s₀, hrun, hp⟩ := exists_reach next (fun _ a => a.isStep 0 = true) (raw 2 ())
    (fun s₀ => decide (s₀.calls 0 = .returned none) &&
      (movesIf next (fun s a => Fresh s a ∧ a.within 2 = true) [] s₀
        (List.flatten [.callAlloc 0 1 :: List.replicate 3 (strongStep 0),
          .callAlloc 1 2 :: List.replicate 6 (strongStep 1),
          List.replicate 7 (strongStep 0)])).any
      fun x : List (PoolState Unit × Act Unit) × PoolState Unit =>
        decide (serving.history x.1 = [.call 0 .alloc, .call 1 .alloc, .ret 1 (some 0),
          .ret 0 (some 1)] ∧ x.1.countP (fun x => x.2.steps) = 16))
    (List.replicate 18 (strongStep 0)) (by decide +kernel)
  simp only [Bool.and_eq_true, decide_eq_true_eq] at hp
  obtain ⟨ls, s, htrace, hhist⟩ := exists_moves next (fun s a => Fresh s a ∧ a.within 2 = true) s₀
    (fun ls _ => decide (serving.history ls = [.call 0 .alloc, .call 1 .alloc, .ret 1 (some 0),
      .ret 0 (some 1)] ∧ ls.countP (fun x => x.2.steps) = 16)) _ hp.2
  obtain ⟨hhist, hcount⟩ := by simpa using hhist
  have hmake : mempoolCreate true 16 2 () = .ok (raw 2 ()) :=
    mempoolCreate_made (by decide) (by decide) (by decide) (by decide)
  exact ⟨s₀, ls, s, ⟨hrun, hp.1⟩, htrace, hhist, hcount,
    mempool_lock_free ⟨by decide, by decide⟩ hmake hrun hp.1 htrace⟩

end CoopTasks.Pool
