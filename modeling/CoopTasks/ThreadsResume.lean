import CoopTasks.ThreadsSuspend

/-!
Resuming a stopped thread.

A stopped thread does not hold `readers` exclusively, so the search of `thrd_resume` gets past
its wait, finds the control block and posts the semaphore it names.
-/

namespace CoopTasks.ThreadsSuspend

open CoopTasks.LockFreeList CoopTasks.Machine CoopTasks.ReadersWriters

variable {N V S : Type*} [DecidableEq N] [DecidableEq S] {s s' s₀ : State N V S} {t u thr : ℤ}
  {a : S} {weak : Bool} {chain : List N} {tail : N}

/-- What a thread's call returned. -/
def State.done (u : ℤ) (s : State N V S) : Option Ret :=
  match s.threads u with
  | .returned r => some r
  | _ => none

/-- Where the `list_search` of a `thrd_resume` stands that runs alone and finds its thread. -/
def FindsAt (s : State N V S) (thr : ℤ) : LockFreeList.Pc N (Tcb S) → Prop
  | .searchFrom (.search true) _ _ => True
  | .searchCheck _ true curr => (s.tcbs curr).key = thr
  | .searchRead _ _ (.cas orig) => orig = s.readers
  | .searchRead _ _ _ => True
  | _ => False

/-- Where a `thrd_resume` stands that runs alone, started in `s₀`. -/
def ResumeAt (s₀ s : State N V S) (thr : ℤ) (a : S) : Pc N V S → Prop
  | .resume thr' th => thr' = thr ∧ FindsAt s thr th.pc ∧ s.sem = s₀.sem
  | .post b => b = a ∧ s.sem = s₀.sem
  | .returned r => r = .ok none ∧ s.sem a = semPost (s₀.sem a)
  | _ => False

/-- How far a `thrd_resume` is from its end. -/
def resumeRank (s : State N V S) : Pc N V S → ℕ
  | .resume _ th =>
    match th.pc with
    | .searchFrom _ key pc => searchRank s.tcbs key pc + 8
    | .searchCheck _ _ _ => 7
    | .searchRead _ _ .load => 6
    | .searchRead _ _ (.cas _) => 5
    | .searchRead _ _ .copy => 4
    | _ => 3
  | .post _ => 2
  | _ => 0

/-- A `thrd_resume` of `u` that runs alone from `s₀` on. -/
structure Resuming (tail : N) (chain : List N) (s₀ : State N V S) (u thr : ℤ) (a : S)
    (s : State N V S) : Prop where
  inv : Inv s tail chain
  suspend : s.suspend = s₀.suspend
  stopped : s.stopped = s₀.stopped
  others : ∀ v, v ≠ u → s.threads v = s₀.threads v
  pc : ResumeAt s₀ s thr a (s.threads u)

/-- A state in which `thr` is stopped, `u` can make a call, and nobody else copies a value. -/
structure Resumable (s₀ : State N V S) (u thr : ℤ) (a : S) : Prop where
  suspend : s₀.suspend thr = some a
  running : s₀.stopped u = false
  ne : u ≠ thr
  side : (s₀.threads thr).side ≠ .write
  others : ∀ v, v ≠ u → v ≠ thr → (s₀.threads v).side = .out

omit [DecidableEq N] [DecidableEq S] in
lemma Resuming.readers (hr : Resumable s₀ u thr a) (h : Resuming tail chain s₀ u thr a s)
    (hu : (s.threads u).side = .out) : s.readers ≠ uint32Max := by
  have hle : s.readers ≤ 1 := by
    refine h.inv.held.word_le_one (w := thr) (fun v hv => ?_) ?_
    · by_cases hvu : v = u
      · rw [hvu]
        exact hu
      · rw [h.others v hvu]
        exact hr.others v hvu hv
    · rw [h.others thr hr.ne.symm]
      exact hr.side
  unfold uint32Max
  omega

lemma resume_step_eq (weak : Bool) {pc : LockFreeList.Pc N (Tcb S)}
    {cmd : Cmd N (Tcb S) (Thread N (Tcb S))}
    (hst : s.stopped u = false) (hu : s.threads u = .resume thr ⟨[], pc⟩)
    (hcmd : pc.cmd (· == ·) = some cmd) :
    threadStep s u weak none =
      some ({ s with
        tcbs := (access s.tcbs s.readers weak none cmd).1
        readers := (access s.tcbs s.readers weak none cmd).2.1 }.go u
          (resume thr (access s.tcbs s.readers weak none cmd).2.2)) := by
  simp [threadStep, hst, hu, State.tcbsStep, Thread.cmd, hcmd]

/-- **One step** of a `thrd_resume` that runs alone. -/
theorem resume_step (hr : Resumable s₀ u thr a) (h : Resuming tail chain s₀ u thr a s)
    (hdone : s.done u = none) : ∃ s', threadStep s u weak none = some s' ∧
      Resuming tail chain s₀ u thr a s' ∧
      (weak = false → resumeRank s' (s'.threads u) < resumeRank s (s.threads u)) := by
  have hst : s.stopped u = false := by
    rw [h.stopped]
    exact hr.running
  -- what is left to show of a step is where it leads
  have hgo : ∀ {s' pc}, threadStep s u weak none = some s' → s'.threads u = pc →
      ResumeAt s₀ s' thr a pc → (weak = false → resumeRank s' pc < resumeRank s (s.threads u)) →
      ∃ s', threadStep s u weak none = some s' ∧ Resuming tail chain s₀ u thr a s' ∧
        (weak = false → resumeRank s' (s'.threads u) < resumeRank s (s.threads u)) :=
    fun {s' pc} hs hpc hat hrank => by
      obtain ⟨-, h1, h2, h3⟩ := threadStep_frame hs
      have hothers : ∀ v, v ≠ u → s'.threads v = s₀.threads v := fun v hv =>
        (h3 v hv).trans (h.others v hv)
      subst hpc
      exact ⟨s', hs, ⟨threadStep_inv h.inv hs, h2.trans h.suspend, h1.trans h.stopped, hothers,
        hat⟩, hrank⟩
  have hpc := h.pc
  have hok := h.inv.ok u
  cases hu : s.threads u with
  | idle | null | list | setNameSearch | setNameUpdate | getName | suspend =>
    rw [hu] at hpc
    exact hpc.elim
  | returned r => simp [State.done, hu] at hdone
  | post b =>
    rw [hu] at hpc
    obtain ⟨rfl, hsem⟩ := hpc
    have hs : threadStep s u weak none = some ({ s with
        sem := Function.update s.sem b (semPost (s.sem b)) }.go u (.returned (.ok none))) := by
      simp [threadStep, hst, hu]
    rw [hu] at hgo
    refine hgo hs (Function.update_self ..) ⟨rfl, ?_⟩ fun _ => ?_
    · simp [State.go, hsem]
    · show 0 < 2
      omega
  | resume thr' th =>
    rw [hu] at hpc hok
    obtain ⟨rfl, hfinds, hsem⟩ := hpc
    obtain ⟨helps, pc⟩ := th
    obtain ⟨hreaders, hhelps, hlo, hhi, htcbs⟩ := hok
    obtain rfl : helps = [] := hhelps
    rw [hu] at hgo
    have hmove : ∀ {s' th'}, threadStep s u weak none = some s' →
        s'.threads u = .resume thr' th' → FindsAt s' thr' th'.pc → s'.sem = s.sem →
        (weak = false → resumeRank s' (.resume thr' th') < resumeRank s (.resume thr' ⟨[], pc⟩)) →
        ∃ s', threadStep s u weak none = some s' ∧ Resuming tail chain s₀ u thr' a s' ∧
          (weak = false → resumeRank s' (s'.threads u) < resumeRank s (.resume thr' ⟨[], pc⟩)) :=
      fun hs hth hat hsem' hrank => hgo hs hth ⟨rfl, hat, hsem'.trans hsem⟩ hrank
    cases pc with
    | idle | returned | null | insert | tryFlag | delete | updateCheck | updateWrite =>
      exact hfinds.elim
    | searchFrom ctx key pc =>
      cases ctx with
      | insertFirst | insertAgain | delete | tryFlag | update => exact hfinds.elim
      | search val =>
        cases val with
        | false => exact hfinds.elim
        | true =>
          obtain ⟨rfl, hat⟩ := htcbs
          have hs := resume_step_eq weak hst hu rfl
          rcases searchFrom_clean (fun x y => x == y) h.inv.listed.clean hhi hat with
            ⟨pc', hpeek, hat', hrank⟩ | ⟨curr, nxt, hpeek, hb⟩
          · rw [access_peek (by rw [Cmd.peek_map, hpeek]; rfl)] at hs
            refine hmove hs (Function.update_self ..) trivial rfl fun _ => ?_
            exact Nat.add_lt_add_right hrank 8
          · rw [access_peek (by rw [Cmd.peek_map, hpeek]; rfl)] at hs
            refine hmove hs (Function.update_self ..) ?_ rfl fun _ => ?_
            · obtain ⟨-, -, hlisted⟩ := h.inv.listed.thread key a (h.suspend ▸ hr.suspend)
              exact (hb.key_iff h.inv.listed.clean).mpr hlisted
            · show 7 < searchRank s.tcbs key pc + 8
              omega
    | searchCheck key val curr =>
      cases val with
      | false => exact hfinds.elim
      | true =>
        obtain ⟨rfl, hcurr⟩ := htcbs
        have hs := resume_step_eq weak hst hu rfl
        have hk : (s.tcbs curr).key = key := hfinds
        simp only [access, hk, if_true, cond_true] at hs
        refine hmove hs (Function.update_self ..) trivial rfl fun _ => ?_
        simp only [resumeRank]
        omega
    | searchRead key target pc =>
      obtain ⟨rfl, htarget, hk, hv⟩ := htcbs
      have hs := resume_step_eq weak hst hu rfl
      cases pc with
      | load =>
        have hne := h.readers hr (by rw [hu]; rfl)
        simp only [access, readVal, Cmd.map, Function.comp, hne, if_false] at hs
        refine hmove hs (Function.update_self ..) rfl rfl fun _ => ?_
        simp only [resumeRank]
        omega
      | cas orig =>
        obtain rfl : orig = s.readers := hfinds
        cases weak with
        | false =>
          simp only [access, readVal, Cmd.map, Function.comp, Bool.not_false, decide_true,
            Bool.and_self, if_true] at hs
          refine hmove hs (Function.update_self ..) trivial rfl fun _ => ?_
          show 4 < 5
          omega
        | true =>
          simp only [access, readVal, Cmd.map, Function.comp, Bool.not_true, Bool.false_and] at hs
          refine hmove hs (Function.update_self ..) trivial rfl (by simp)
      | copy =>
        refine hmove hs (Function.update_self ..) trivial rfl fun _ => ?_
        show 3 < 4
        omega
      | sub v =>
        obtain ⟨tcb, rfl, hname⟩ := hv v rfl
        have ha : tcb.suspend = a := by
          have hsus := hr.suspend
          rw [← h.suspend, hname] at hsus
          exact Option.some.inj hsus
        simp only [access, readVal, Cmd.map, resume] at hs
        refine hgo hs (Function.update_self ..) ?_ fun _ => ?_
        · simp only [ResumeAt, State.go, ha, hsem, and_self]
        · show 2 < 3
          omega

/-! ### Any run -/

/-- A `thrd_resume` of a stopped thread that runs alone posts its semaphore, whatever finite
pattern of spurious failures it meets. -/
def CanResume (s : State N V S) : Prop :=
  ∀ t u, s.stopped t = true → u ≠ t → (s.threads u).outside = true → s.stopped u = false →
    (∀ v, v ≠ t → (s.threads v).side = .out) → ∀ weak, ∃ a s₁ n s',
      s.suspend t = some a ∧ next s (.call u (.resume t)) = some s₁ ∧
      (∀ fuel ≥ n, runAlone (fun s weak => threadStep s u weak none) (State.done u) fuel weak s₁ =
        some (s', .ok none)) ∧
      s'.sem a = semPost (s.sem a) ∧ 0 < s'.sem a

lemma canResume (h : Inv s tail chain) (hsem : StoppedSem s) (hout : StoppedOut s) :
    CanResume s := by
  intro t u ht hne hu hrun hothers weak
  obtain ⟨a, ha⟩ := Option.isSome_iff_exists.mp (hsem t ht)
  obtain ⟨hlo, hhi, -⟩ := h.listed.thread t a ha
  have hr : Resumable s u t a := ⟨ha, hrun, hne, hout t ht, fun v _ hv => hothers v hv⟩
  have hcall : next s (.call u (.resume t)) = some (s.go u ((Call.resume t).pc s.head)) := by
    simp [next, hu, hrun, Call.key, hlo, hhi]
  have hstart : Resuming tail chain s u t a (s.go u ((Call.resume t).pc s.head)) := by
    refine ⟨inv_step h hcall, rfl, rfl, fun v hv => by simp [State.go, hv], ?_⟩
    simp only [State.go, Function.update_self]
    exact ⟨rfl, trivial, rfl⟩
  obtain ⟨n, s', r, hruns, hend, hdone⟩ :=
    runAlone_returns (fun s => resumeRank s (s.threads u))
      (fun s weak hI hnone => resume_step hr hI hnone) weak hstart
  have hpc := hend.pc
  unfold State.done at hdone
  split at hdone
  · rename_i r' hret
    obtain rfl : r' = r := by simpa using hdone
    rw [hret] at hpc
    obtain ⟨rfl, hpost⟩ := hpc
    exact ⟨a, _, n, s', ha, hcall, hruns, hpost, hpost ▸ semPost_pos _⟩
  · simp at hdone

/-- **Suspending**: in every run in which `SIGURG` never interrupts the writing of a value, nobody
is stopped while holding `readers`, and whoever is stopped can be resumed. -/
theorem suspended_resumable (h₀ : Started s₀ tail chain) (h : Reach next NotWriting s₀ s) :
    StoppedOut s ∧ CanResume s := by
  have hall : Inv s tail chain ∧ StoppedSem s ∧ StoppedOut s :=
    h.inv (I := fun s => Inv s tail chain ∧ StoppedSem s ∧ StoppedOut s)
      ⟨started_inv h₀, fun t ht => by simp [h₀.stopped t] at ht,
        fun t ht => by simp [h₀.stopped t] at ht⟩
      fun u a w hu hok hw => ⟨inv_step hu.1 hw, stoppedSem_step hu.2.1 hw,
        stoppedOut_step hu.2.2 hok hw⟩
  exact ⟨hall.2.2, canResume hall.1 hall.2.1 hall.2.2⟩

/-- Two threads were started. -/
def twoThreads : State ℕ ℕ ℕ where
  tcbs n :=
    match n with
    | 0 => ⟨getUnmarkedRef (some 1), none, intptrMin, none⟩
    | 1 => ⟨getUnmarkedRef (some 2), none, 1, some ⟨1, List.replicate 16 0, 10⟩⟩
    | 2 => ⟨getUnmarkedRef (some 3), none, 2, some ⟨2, List.replicate 16 0, 20⟩⟩
    | _ => ⟨getUnmarkedRef none, none, intptrMax, none⟩
  head := 0
  node _ := ⟨getUnmarkedRef none, none, 0, none⟩
  readers := 0
  threads _ := .idle
  suspend t := if t = 1 then some 10 else if t = 2 then some 20 else none
  sem _ := 0
  pending _ := false
  stopped _ := false

lemma twoThreads_started : Started twoThreads 3 [0, 1, 2, 3] where
  listed := by
    refine ⟨⟨⟨?_, ?_, ?_, ?_, ?_, ?_, ?_, ?_, ?_, ?_, ?_, ?_, ?_, ?_⟩, ?_, ?_⟩, ?_, ?_⟩
    rotate_right
    · intro t a ht
      simp only [twoThreads] at ht
      split at ht
      · rename_i h1
        simp [h1, twoThreads, intptrMin, intptrMax]
      · split at ht
        · rename_i h2
          simp [h2, twoThreads, intptrMin, intptrMax]
        · simp at ht
    all_goals simp [twoThreads, getUnmarkedRef, getFlaggedRef, intptrMin, intptrMax]
  readers := rfl
  threads _ := rfl
  stopped _ := rfl

/-- `n` steps of a thread. -/
def steps (t : ℤ) (n : ℕ) : List (Act ℕ ℕ) := List.replicate n (.step t false none)

/-- A thread is stopped right before it enters the writing of its name. -/
theorem suspended_resumable_two : ∃ s, Reach next NotWriting twoThreads s ∧
    s.stopped 1 = true ∧ StoppedOut s ∧ CanResume s := by
  obtain ⟨s, hs, hp⟩ := exists_reach next NotWriting twoThreads (fun s => s.stopped 1)
    (.call 1 (.setName 1 [97]) :: steps 1 19 ++ .call 2 (.suspend 1) :: steps 2 1 ++
      [.deliver 1]) (by decide +kernel)
  obtain ⟨hout, hcan⟩ := suspended_resumable twoThreads_started hs
  exact ⟨s, hs, hp, hout, hcan⟩

/-- The signal arrives while the thread writes its name: it is stopped with `readers` held
exclusively. -/
theorem suspended_while_writing : ¬ ∀ s, Reach next (fun _ _ => True) twoThreads s →
    StoppedOut s ∧ CanResume s := by
  intro hall
  obtain ⟨s, hs, hp⟩ := exists_reach next (fun _ _ => True) twoThreads
    (fun s => decide (s.stopped 1 = true ∧ (s.threads 1).side = .write))
    (.call 1 (.setName 1 [97]) :: steps 1 20 ++ .call 2 (.suspend 1) :: steps 2 1 ++
      [.deliver 1]) (by decide +kernel)
  obtain ⟨hst, hwrite⟩ := of_decide_eq_true hp
  exact (hall s hs).1 1 hst hwrite

end CoopTasks.ThreadsSuspend
