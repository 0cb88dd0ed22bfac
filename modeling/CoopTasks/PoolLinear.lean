import CoopTasks.Linearize
import CoopTasks.PoolOwnership

/-!
A memory pool whose calls overlap cannot be told from a FIFO of fragments that answers each
call at one moment.

A fragment is taken off the FIFO when the head moves, and goes back on it when it is linked.
A `mempool_alloc` that fails has changed nothing: it answers for the moment at which it read
the null link of the only fragment on the chain.
-/

namespace CoopTasks.Pool

open CoopTasks.Chain CoopTasks.Append CoopTasks.Advance CoopTasks.Machine CoopTasks.Linearize
open CoopTasks.SizeT

variable {D : Type*} {s s' s₀ : PoolState D} {cap t : ℕ} {c c' : List ℕ} {a : Act D} {d : D}
  {weak : Bool} {ls : List (PoolState D × Act D)}

/-- A call of `mempool_alloc`, or of `mempool_free` with the fragment given back. -/
inductive FifoOp
  | alloc
  | free (frag : ℕ)
  deriving DecidableEq, Repr

/-- The FIFO's answer to a request, and what is left: the last fragment stays. -/
inductive Answers : List ℕ → FifoOp → Option ℕ → List ℕ → Prop
  | take {f g : ℕ} {q : List ℕ} : Answers (f :: g :: q) .alloc (some f) (g :: q)
  | empty {f : ℕ} : Answers [f] .alloc none [f]
  | give {f : ℕ} {q : List ℕ} : Answers q (.free f) none (q ++ [f])

/-- How far a thread's call has come. -/
def Call.phase : Call D → Phase FifoOp (Option ℕ)
  | .alloc _ (.loop _) => .called .alloc
  | .alloc _ (.count f) => .answered (some f)
  | .free f pc => if pc.held f = none then .answered none else .called (.free f)
  | .idle | .returned _ | .setup _ => .idle

/-- What a thread shows that has come to this point. -/
def Call.shown (t : ℕ) : Call D → List (Event ℕ FifoOp (Option ℕ))
  | .returned r => [.ret t r]
  | _ => []

/-- The calls and returns that a move shows. -/
def events (s : PoolState D) : Act D → List (Event ℕ FifoOp (Option ℕ))
  | .callAlloc t _ => [.call t .alloc]
  | .callFree t _ f => [.call t (.free f)]
  | .write _ _ _ _ => []
  | .step t weak => (threadStep s t weak).elim [] fun s' => (s'.calls t).shown t

/-- The pool as a machine whose threads call a FIFO, which is the chain. -/
def serving : Serving (PoolState D) (Act D) ℕ FifoOp (Option ℕ) (List ℕ) where
  next := next
  obj := PoolState.chain
  phase _ s t := (s.calls t).phase
  events := events

/-! ### A pool found empty -/

/-- A `mempool_alloc` that has read a null link was offered `ENOMEM`. -/
def Offers (ls : List (PoolState D × Act D)) (s : PoolState D) : Prop :=
  ∀ t o pc, s.calls t = .alloc o (.loop pc) →
    pc.EmptySeen (serving.Offered Answers t .alloc none ls s) s.pool.ends

lemma next_head (hfresh : Fresh s a) (hs : next s a = some s') (hlive : Live s) :
    Seen s.pool.ends.head s'.pool.ends.head := by
  cases a with
  | callAlloc t o | callFree t o f | write o f v d =>
    simp only [next] at hs
    split at hs
    · obtain rfl := by simpa using hs
      exact .rfl
    · simp at hs
  | step t weak =>
    have hs : threadStep s t weak = some s' := hs
    unfold threadStep at hs
    split at hs
    · simp at hs
    · simp at hs
    · rename_i o pc hcur
      cases pc with
      | loop pc =>
        obtain ⟨P, r, hpick, rfl⟩ := by simpa using hs
        obtain ⟨E', r', htake, rfl, rfl⟩ := by simpa [internalMempoolPick] using hpick
        rw [Fresh, hcur] at hfresh
        have hseen := take_head hfresh htake
        cases r' <;> exact hseen
      | count f =>
        obtain rfl := by simpa [internalMempoolPick] using hs
        exact .rfl
    · rename_i f pc hcur
      obtain ⟨P, C, r, hput, rfl⟩ := by simpa using hs
      cases pc with
      | init | count =>
        obtain ⟨rfl, -, -⟩ := by simpa [internalMempoolPut] using hput
        exact .rfl
      | loop pc =>
        obtain ⟨E', r', hstep, rfl, -⟩ := by simpa [internalMempoolPut] using hput
        rw [setCall_pool, putStep_head hstep]
        exact .rfl
    · rename_i pc hcur
      exact absurd hcur (hlive t pc)

lemma loop_begun (hs : next s a = some s') (hothers : ∀ u weak, a = .step u weak → t ≠ u →
      s'.calls t = s.calls t) {o : ℕ} {pc : TakePc ℕ D}
    (hpc' : s'.calls t = .alloc o (.loop pc)) (hpc : s.calls t ≠ .alloc o (.loop pc)) :
    pc = .loadHead ∨ ∃ weak pc₀, a = .step t weak ∧ s.calls t = .alloc o (.loop pc₀) ∧
      takeStep weak false s.pool.ends s.cells pc₀ = some (s'.pool.ends, .more pc) := by
  cases a with
  | callAlloc u o' =>
    simp only [next] at hs
    split at hs
    · obtain rfl := by simpa using hs
      by_cases htu : t = u
      · subst htu
        rw [setCall_self] at hpc'
        simp_all
      · rw [setCall_ne htu] at hpc'
        exact absurd hpc' hpc
    · simp at hs
  | callFree u o' f =>
    simp only [next] at hs
    split at hs
    · obtain rfl := by simpa using hs
      by_cases htu : t = u
      · subst htu
        simp at hpc'
      · rw [setCall_ne htu] at hpc'
        exact absurd hpc' hpc
    · simp at hs
  | write o' f v d =>
    simp only [next] at hs
    split at hs
    · obtain rfl := by simpa using hs
      exact absurd hpc' hpc
    · simp at hs
  | step u weak =>
    by_cases htu : t = u
    · subst htu
      have hs : threadStep s t weak = some s' := hs
      unfold threadStep at hs
      split at hs
      · simp at hs
      · simp at hs
      · rename_i o' pc₀ hcur
        obtain ⟨P, r, hpick, rfl⟩ := by simpa using hs
        cases pc₀ with
        | count f =>
          obtain ⟨rfl, rfl⟩ := by simpa [internalMempoolPick] using hpick
          simp at hpc'
        | loop pc₀ =>
          obtain ⟨E', r', htake, rfl, rfl⟩ := by simpa [internalMempoolPick] using hpick
          cases r' with
          | empty | took => simp at hpc'
          | more pc' =>
            obtain ⟨rfl, rfl⟩ : o' = o ∧ pc' = pc := by simpa using hpc'
            exact .inr ⟨weak, pc₀, rfl, hcur, htake⟩
      · obtain ⟨P, C, r, -, rfl⟩ := by simpa using hs
        cases r <;> simp at hpc'
      · obtain ⟨P, C, r, -, rfl⟩ := by simpa using hs
        cases r <;> simp at hpc'
    · exact absurd ((hothers u weak rfl htu).symm.trans hpc') hpc

lemma move_chain (hI : Inv s (cap + 1) c) (hlive : Live s) (hcap : s.pool.capacity = cap)
    (hfresh : Fresh s a) (hs : next s a = some s') :
    ∃ c', s'.chain = c' ∧ Linked s'.pool.ends s'.cells c' ∧
      ((∀ t weak, a ≠ .step t weak) ∧ c' = c ∨
        ∃ t weak, a = .step t weak ∧ (∀ u, u ≠ t → s'.calls u = s.calls u) ∧
          Shift c s.pool.freeable (s.calls t) (s'.calls t) c' s'.pool.freeable) := by
  cases a with
  | callAlloc t o | callFree t o f =>
    simp only [next] at hs
    split at hs
    · obtain rfl := by simpa using hs
      exact ⟨c, hI.chain_eq hcap, hI.linked, .inl ⟨by simp, rfl⟩⟩
    · simp at hs
  | write o f v d =>
    simp only [next] at hs
    split at hs
    · rename_i hf
      obtain rfl := by simpa using hs
      have hne : ∀ g ∈ c, g ≠ f := by
        rintro g hg rfl
        exact hI.not_owned_of_mem hg o hf
      have hI' := hI.setCells (mild_write.trans mild_setData)
        (fun g hg => (same_write (hne g hg)).trans (same_setData (d := d) (hne g hg)))
        (fun u g hg => write_ne (v := v) s.cells (by
          rintro rfl
          exact hI.not_owned_of_held hg o hf))
      exact ⟨c, hI'.chain_eq hcap, hI'.linked, .inl ⟨by simp, rfl⟩⟩
    · simp at hs
  | step t weak =>
    rw [Fresh, hI.chain_eq hcap] at hfresh
    obtain ⟨c', hI', -, hmoved, hshift⟩ := threadStep_inv hI hlive hfresh hs
    exact ⟨c', hI'.chain_eq (hmoved.capacity.trans hcap), hI'.linked,
      .inr ⟨t, weak, rfl, hmoved.others, hshift⟩⟩

lemma offers_step (hI : Inv s (cap + 1) c) (hlive : Live s) (hcap : s.pool.capacity = cap)
    (hfresh : Fresh s a) (h : Offers ls s) (hs : next s a = some s') :
    Offers ((s, a) :: ls) s' := by
  obtain ⟨c', hchain, -, hcase⟩ := move_chain hI hlive hcap hfresh hs
  have hothers : ∀ t u weak, a = .step u weak → t ≠ u → s'.calls t = s.calls t := by
    rintro t u weak rfl htu
    rcases hcase with ⟨hne, -⟩ | ⟨t', weak', heq, ho, -⟩
    · exact absurd rfl (hne u weak)
    · obtain ⟨rfl, rfl⟩ : u = t' ∧ weak = weak' := by simpa using heq
      exact ho t htu
  intro t o pc hpc'
  have hphase : serving.phase ((s, a) :: ls) s' t = .called .alloc := by
    simp [serving, hpc', Call.phase]
  by_cases hpc : s.calls t = .alloc o (.loop pc)
  · -- the thread stands where it stood
    have hok : TakeOk false s.pool.ends s.cells pc := by
      have := hI.calls t
      rwa [hpc] at this
    exact (h t o pc hpc).keep hok (next_head hfresh hs hlive) fun hoff => hoff.keep hphase
  rcases loop_begun hs (hothers t) hpc' hpc with rfl | ⟨weak, pc₀, rfl, hpc₀, htake⟩
  · trivial
  · have hc : c' = c := by
      rcases hcase with ⟨hne, -⟩ | ⟨t', weak', heq, -, hshift⟩
      · exact absurd rfl (hne t weak)
      · obtain ⟨rfl, -⟩ : t = t' ∧ weak = weak' := by simpa using heq
        rw [hpc₀, hpc'] at hshift
        generalize s'.pool.freeable = k at hshift
        cases hshift
        rfl
    have hsees := take_sees hI.linked htake
    cases pc with
    | check head tail next =>
      intro hnull hcur
      obtain ⟨f, rfl⟩ := List.length_eq_one_iff.mp (hsees hnull hcur)
      refine .now hphase ?_
      have hobj : serving.obj s' = [f] := hchain.trans hc
      rw [hobj]
      exact .empty
    | _ => trivial

/-- A `mempool_alloc` that fails has read a null link and found the head where it was. -/
lemma loop_empty (hs : threadStep s t weak = some s') {o : ℕ} {pc : TakePc ℕ D}
    (hpc : s.calls t = .alloc o (.loop pc)) (hret : s'.calls t = .returned none) :
    takeStep weak false s.pool.ends s.cells pc = some (s'.pool.ends, .empty) := by
  obtain ⟨P, r, hpick, rfl⟩ := by simpa [threadStep, hpc] using hs
  obtain ⟨E', r', htake, rfl, rfl⟩ := by simpa [internalMempoolPick] using hpick
  cases r' with
  | empty => exact htake
  | more | took => simp at hret

lemma move_turns (hI : Inv s (cap + 1) c) (hlive : Live s) (hcap : s.pool.capacity = cap)
    (hfresh : Fresh s a) (h : Offers ls s) (hs : next s a = some s') :
    serving.Turns Answers ls s a s' := by
  obtain ⟨c', hchain, hL', hcase⟩ := move_chain hI hlive hcap hfresh hs
  have hobj : serving.obj s = c := hI.chain_eq hcap
  have hobj' : serving.obj s' = c' := hchain
  have hphase : ∀ ls (x : PoolState D) u, serving.phase ls x u = (x.calls u).phase :=
    fun _ _ _ => rfl
  cases a with
  | callAlloc t o | callFree t o f =>
    obtain rfl : c' = c := by simpa using hcase
    simp only [next] at hs
    split at hs
    · rename_i hout
      obtain rfl := by simpa using hs
      refine ⟨t, .call _ ?_ ?_ (hobj'.trans hobj.symm), fun q hq => ?_⟩
      · rw [hphase]
        cases hcall : s.calls t <;> simp_all [Call.outside, Call.phase]
      · simp [hphase, Call.phase, PutCall.held]
      · simp only [hphase, setCall_ne hq]
    · simp at hs
  | write o f v d =>
    obtain rfl : c' = c := by simpa using hcase
    simp only [next] at hs
    split at hs
    · obtain rfl := by simpa using hs
      exact ⟨0, .stay rfl (hobj'.trans hobj.symm), fun _ _ => rfl⟩
    · simp at hs
  | step t weak =>
    obtain ⟨t', weak', heq, hothers, hshift⟩ := hcase.resolve_left fun h => h.1 t weak rfl
    obtain ⟨rfl, rfl⟩ : t = t' ∧ weak = weak' := by simpa using heq
    have hs : threadStep s t weak = some s' := hs
    refine ⟨t, ?_, fun q hq => by rw [hphase, hphase, hothers q hq]⟩
    have hshown : serving.events s (.step t weak) = (s'.calls t).shown t := by
      simp [serving, events, hs]
    rw [hshown]
    generalize hp : s.calls t = p at hshift
    generalize hp' : s'.calls t = p' at hshift ⊢
    generalize s'.pool.freeable = k at hshift
    cases hshift with
    | look => exact .stay (by simp [hphase, hp, hp', Call.phase]) (hobj'.trans hobj.symm)
    | @empty o pc =>
      refine .look .alloc none ?_ ?_ (hobj'.trans hobj.symm) ?_
      · simp [hphase, hp, Call.phase]
      · simp [hphase, hp', Call.phase]
      · rw [Fresh, hp] at hfresh
        exact take_seen_empty hfresh (h t o pc hp) (loop_empty hs hp hp')
    | @take o f pc _ hc =>
      obtain ⟨g, q, rfl, -⟩ := hL'.exists_cons
      refine .answer .alloc (some f) ?_ ?_ ?_
      · simp [hphase, hp, Call.phase]
      · simp [hphase, hp', Call.phase]
      · rw [hobj, hobj', hc]
        exact .take
    | give =>
      refine .ret _ ?_ ?_ (hobj'.trans hobj.symm)
      · simp [hphase, hp, Call.phase]
      · simp [hphase, hp', Call.phase]
    | put hheld =>
      exact .stay (by simp [hphase, hp, hp', Call.phase, hheld]) (hobj'.trans hobj.symm)
    | @link f pc pc' hheld hheld' =>
      refine .answer (.free f) none ?_ ?_ ?_
      · simp [hphase, hp, Call.phase, hheld]
      · simp [hphase, hp', Call.phase, hheld']
      · rw [hobj, hobj']
        exact .give
    | done =>
      refine .ret _ ?_ ?_ (hobj'.trans hobj.symm)
      · simp [hphase, hp, Call.phase, PutCall.held]
      · simp [hphase, hp', Call.phase]

/-! ### Runs -/

lemma offers_of_trace (hmax : cap + 1 ≤ sizeMax) (h₀ : Created cap d s₀)
    (h : Trace next Fresh s₀ ls s) :
    (∃ c, Inv s (cap + 1) c) ∧ Live s ∧ s.pool.capacity = cap ∧ Offers ls s := by
  refine h.inv (I := fun ls s => (∃ c, Inv s (cap + 1) c) ∧ Live s ∧ s.pool.capacity = cap ∧
    Offers ls s) ?_ ?_
  · obtain ⟨hI, hlive, hcap, -⟩ := created_inv hmax h₀
    obtain ⟨hout, -⟩ := created_rest hmax h₀
    refine ⟨⟨_, hI⟩, hlive, hcap, fun t o pc hpc => ?_⟩
    have hcall := hout t
    simp [hpc, Call.outside] at hcall
  · rintro ls s a s' ⟨⟨c, hI⟩, hlive, hcap, hoff⟩ hfresh hs
    obtain ⟨c', hI', hlive', hcap'⟩ := sound_step ⟨c, hI, hlive, hcap⟩ hfresh hs
    exact ⟨⟨c', hI'⟩, hlive', hcap', offers_step hI hlive hcap hfresh hoff hs⟩

/-- **Linearizability**: in every run in which no step is deceived by a word that was replaced
and looks the same again, the calls of `mempool_alloc` and `mempool_free`, however they overlap,
return what a FIFO of fragments answers that serves each of them at one moment between its call
and its return. -/
theorem mempool_linearizable {memory : Bool} {dataBytes : ℕ} {made : PoolState D}
    (hfit : SizesFit dataBytes cap) (hmake : mempoolCreate memory dataBytes cap d = .ok made)
    (hrun : Reach next (fun _ a => a.isStep 0 = true) made s₀)
    (hret : s₀.calls 0 = .returned none) (h : Trace next Fresh s₀ ls s) :
    Linearizable Answers (List.range (cap + 1)) (serving.history ls) := by
  obtain ⟨rfl, -⟩ := mempoolCreate_ok hmake
  have h₀ : Created cap d s₀ := ⟨hrun, hret⟩
  obtain ⟨hI, -, hcap, -⟩ := created_inv hfit.2 h₀
  have hobj : serving.obj s₀ = List.range (cap + 1) := hI.chain_eq hcap
  rw [← hobj]
  refine Serving.linearizable (M := serving) (fun t => ?_) (fun ls s a s' htrace hfresh hs => ?_) h
  · obtain ⟨-, hidle, -⟩ := created_laying h₀
    by_cases ht : t = 0
    · subst ht
      simp [serving, h₀.2, Call.phase]
    · simp [serving, hidle t ht, Call.phase]
  · obtain ⟨⟨c, hI⟩, hlive, hcap, hoff⟩ := offers_of_trace hfit.2 h₀ htrace
    exact move_turns hI hlive hcap hfresh hoff hs

/-- A pool of two: two clients take a fragment at the same time, and a third finds the pool
empty while the first gives its fragment back. -/
theorem mempool_linearizable_two : ∃ s₀ ls, ∃ s : PoolState Unit, Created 2 () s₀ ∧
    Trace next Fresh s₀ ls s ∧
    serving.history ls = [.call 1 .alloc, .call 2 .alloc, .ret 2 (some 0), .ret 1 (some 1),
      .call 3 .alloc, .call 1 (.free 1), .ret 1 none, .ret 3 none] ∧
    Linearizable Answers (List.range 3) (serving.history ls) := by
  obtain ⟨s₀, hrun, hp⟩ := exists_reach next (fun _ a => a.isStep 0 = true) (raw 2 ())
    (fun s₀ => decide (s₀.calls 0 = .returned none) && (movesIf next Fresh [] s₀
      (List.flatten [.callAlloc 1 1 :: List.replicate 3 (strongStep 1),
        .callAlloc 2 2 :: List.replicate 6 (strongStep 2), List.replicate 7 (strongStep 1),
        .callAlloc 3 3 :: List.replicate 3 (strongStep 3),
        .callFree 1 1 1 :: List.replicate 7 (strongStep 1), [strongStep 3]])).any
      fun x => decide (serving.history x.1 = [.call 1 .alloc, .call 2 .alloc, .ret 2 (some 0),
        .ret 1 (some 1), .call 3 .alloc, .call 1 (.free 1), .ret 1 none, .ret 3 none]))
    (List.replicate 18 (strongStep 0)) (by decide +kernel)
  simp only [Bool.and_eq_true, decide_eq_true_eq] at hp
  obtain ⟨ls, s, htrace, hhist⟩ := exists_moves next Fresh s₀ (fun ls _ => decide
    (serving.history ls = [.call 1 .alloc, .call 2 .alloc, .ret 2 (some 0), .ret 1 (some 1),
      .call 3 .alloc, .call 1 (.free 1), .ret 1 none, .ret 3 none])) _ hp.2
  have hmake : mempoolCreate true 16 2 () = .ok (raw 2 ()) :=
    mempoolCreate_made (by decide) (by decide) (by decide) (by decide)
  exact ⟨s₀, ls, s, ⟨hrun, hp.1⟩, htrace, by simpa using hhist,
    mempool_linearizable ⟨by decide, by decide⟩ hmake hrun hp.1 htrace⟩

end CoopTasks.Pool
