import CoopTasks.ThreadsResume

/-!
Suspends and resumes of a thread balance.

A thread has a semaphore of its own, on which it waits once for each `SIGURG` that is delivered to
it and which each `thrd_resume` of it posts once. So a resume counts also if it comes before its
suspend, unless the semaphore is at `SEM_VALUE_MAX`, where nobody looks at what `sem_post` returns;
suspends that are not delivered yet count once.
-/

namespace CoopTasks.ThreadsSuspend

open CoopTasks.LockFreeList CoopTasks.Machine

variable {N V S : Type*}

/-- The call that a thread made last. -/
def lastCall (u : ℤ) : List (State N V S × Act N V) → Option (Call N V)
  | [] => none
  | (_, .call t c) :: ls => if t = u then some c else lastCall u ls
  | _ :: ls => lastCall u ls

def Call.suspends (t : ℤ) : Call N V → Bool
  | .suspend thr => thr = t
  | _ => false

def Call.resumes (t : ℤ) : Call N V → Bool
  | .resume thr => thr = t
  | _ => false

/-- Whether the next step is the one in which `thrd_suspend` or `thrd_resume` returns 0. -/
def Pc.succeeds : Pc N V S → Bool
  | .suspend _ | .post _ => true
  | _ => false

/-- Whether one of these calls returns 0 in a move that comes after the others. -/
def Act.succeeds (f : Call N V → Bool) (s : State N V S) (ls : List (State N V S × Act N V)) :
    Act N V → Bool
  | .step u _ _ => (s.threads u).succeeds && (lastCall u ls).any f
  | _ => false

/-- Whether the move is a `sem_post` that fails, in a `thrd_resume` of a thread. -/
def Act.overflows (t : ℤ) (s : State N V S) (ls : List (State N V S × Act N V)) :
    Act N V → Bool
  | .step u _ _ =>
    match s.threads u with
    | .post a => decide (semValueMax ≤ s.sem a) && (lastCall u ls).any (Call.resumes t)
    | _ => false
  | _ => false

def Act.delivers (t : ℤ) : Act N V → Bool
  | .deliver u => u = t
  | _ => false

def Act.wakes (t : ℤ) : Act N V → Bool
  | .wake u => u = t
  | _ => false

/-- How many of these calls returned 0. -/
def succeeded (f : Call N V → Bool) : List (State N V S × Act N V) → ℕ
  | [] => 0
  | (s, a) :: ls => succeeded f ls + (a.succeeds f s ls).toNat

/-- How many resumes of a thread returned 0 although their `sem_post` had failed. -/
def lost (t : ℤ) : List (State N V S × Act N V) → ℕ
  | [] => 0
  | (s, a) :: ls => lost t ls + (a.overflows t s ls).toNat

/-- How often `SIGURG` was delivered to a thread. -/
def delivered (t : ℤ) : List (State N V S × Act N V) → ℕ
  | [] => 0
  | (_, a) :: ls => delivered t ls + (a.delivers t).toNat

/-- How often a thread came out of `internal_signaled`. -/
def woken (t : ℤ) : List (State N V S × Act N V) → ℕ
  | [] => 0
  | (_, a) :: ls => woken t ls + (a.wakes t).toNat

/-- Whether a `thrd_suspend` of a thread returned 0 since `SIGURG` was last delivered to it. -/
def signalled (t : ℤ) : List (State N V S × Act N V) → Bool
  | [] => false
  | (s, a) :: ls => a.succeeds (Call.suspends t) s ls || !a.delivers t && signalled t ls

/-- Threads were started, each with a semaphore of its own, and nobody was suspended yet. -/
structure StartedAnew (s : State N V S) (tail : N) (chain : List N) : Prop
    extends Started s tail chain where
  apart : ∀ t u a, s.suspend t = some a → s.suspend u = some a → t = u
  sem : ∀ t a, s.suspend t = some a → s.sem a = 0
  pending : ∀ t, s.pending t = false

/-- The suspends and resumes of a thread whose semaphore is `a`. -/
structure Balanced (t : ℤ) (a : S) (ls : List (State N V S × Act N V)) (s : State N V S) :
    Prop where
  posts : succeeded (Call.resumes t) ls = woken t ls + s.sem a + lost t ls
  kept : succeeded (Call.resumes t) ls ≤ semValueMax → lost t ls = 0
  stops : delivered t ls = woken t ls + (s.stopped t).toNat
  pending : s.pending t = signalled t ls
  signals : delivered t ls + (s.pending t).toNat ≤ succeeded (Call.suspends t) ls

/-! ### What a call is for -/

variable [DecidableEq N] [DecidableEq S] {s s' s₀ : State N V S} {t u : ℤ} {a : S}
  {weak : Bool} {fresh : Option N} {tail : N} {chain : List N} {act : Act N V}
  {ls : List (State N V S × Act N V)} {suspend : ℤ → Option S} {last : Option (Call N V)}

/-- Whose signal or semaphore a thread is about is told by its call. -/
def Pc.Serves (suspend : ℤ → Option S) (last : Option (Call N V)) : Pc N V S → Prop
  | .suspend thr => last = some (.suspend thr)
  | .resume thr _ => last = some (.resume thr)
  | .post a => ∃ thr, last = some (.resume thr) ∧ suspend thr = some a
  | _ => True

omit [DecidableEq S] in
lemma tcbsStep_callOk {thr : ℤ} {th : Thread N (Tcb S)} {after : Thread N (Tcb S) → Pc N V S}
    (h : Inv s tail chain) (hside : (s.threads t).side = th.pc.side)
    (hth : CallOk s.tcbs s.suspend chain thr th) (hs : s.tcbsStep t weak after th = some s') :
    ∃ th', s'.threads t = after th' ∧ CallOk s'.tcbs s'.suspend chain thr th' := by
  obtain ⟨cmd, hcmd, rfl⟩ := Option.map_eq_some_iff.mp hs
  -- the same step, seen as one of a `thrd_resume` that goes on
  have hsame : s.tcbsStep t weak (.resume thr) th = some _ :=
    Option.map_eq_some_iff.mpr ⟨cmd, hcmd, rfl⟩
  have hafter : AfterOk s.tcbs s.suspend chain thr (Pc.resume thr : _ → Pc N V S) :=
    fun th h => ⟨h, rfl⟩
  have hI := h.tcbsStep hside hth hafter hsame
  have hok := hI.ok t
  simp only [State.go, Function.update_self] at hok ⊢
  exact ⟨_, rfl, hok⟩

lemma serves_threadStep (h : Inv s tail chain) (hserves : (s.threads t).Serves s.suspend last)
    (hs : threadStep s t weak fresh = some s') : (s'.threads t).Serves s.suspend last := by
  have hok := h.ok t
  unfold threadStep at hs
  split at hs
  · simp at hs
  cases hpc : s.threads t with
  | idle | returned | null => simp [hpc] at hs
  | list th =>
    rw [hpc] at hs
    obtain ⟨cmd, -, rfl⟩ := Option.map_eq_some_iff.mp hs
    simp [State.go, Pc.Serves]
  | suspend | post =>
    rw [hpc] at hs
    obtain rfl := Option.some.inj hs
    simp [State.go, Pc.Serves]
  | setNameSearch thr name th =>
    rw [hpc] at hs
    obtain ⟨cmd, -, rfl⟩ := Option.map_eq_some_iff.mp hs
    simp only [State.go, Function.update_self, ThreadsSuspend.setNameSearch]
    split <;> trivial
  | setNameUpdate thr th =>
    rw [hpc] at hs
    obtain ⟨cmd, -, rfl⟩ := Option.map_eq_some_iff.mp hs
    simp only [State.go, Function.update_self, ThreadsSuspend.setNameUpdate]
    split <;> trivial
  | getName thr len th =>
    rw [hpc] at hs
    obtain ⟨cmd, -, rfl⟩ := Option.map_eq_some_iff.mp hs
    simp only [State.go, Function.update_self, ThreadsSuspend.getName]
    split <;> trivial
  | resume thr th =>
    rw [hpc] at hs hok hserves
    have hlast : last = some (.resume thr) := hserves
    obtain ⟨th', hth', hcall⟩ := tcbsStep_callOk h (by rw [hpc]; rfl) hok hs
    have hsus : s'.suspend = s.suspend := by
      obtain ⟨cmd, -, rfl⟩ := Option.map_eq_some_iff.mp hs
      rfl
    rw [hth', ThreadsSuspend.resume]
    split
    · rename_i tcb hret
      have hnames := hcall.ok
      rw [hret] at hnames
      obtain ⟨tcb', heq, hsem⟩ := hnames _ rfl
      cases heq
      exact ⟨thr, hlast, hsus ▸ hsem⟩
    · trivial
    · trivial
    · exact hlast

/-! ### One move -/

lemma threadStep_signals (hs : threadStep s t weak fresh = some s') :
    (∃ thr, s.threads t = .suspend thr ∧ s'.pending = Function.update s.pending thr true ∧
      s'.sem = s.sem) ∨
    (∃ a, s.threads t = .post a ∧ s'.pending = s.pending ∧
      s'.sem = Function.update s.sem a (semPost (s.sem a))) ∨
    (s.threads t).succeeds = false ∧ s'.pending = s.pending ∧ s'.sem = s.sem := by
  unfold threadStep at hs
  split at hs
  · simp at hs
  cases hpc : s.threads t with
  | idle | returned | null => simp [hpc] at hs
  | suspend thr =>
    rw [hpc] at hs
    obtain rfl := Option.some.inj hs
    exact .inl ⟨thr, rfl, rfl, rfl⟩
  | post a =>
    rw [hpc] at hs
    obtain rfl := Option.some.inj hs
    exact .inr (.inl ⟨a, rfl, rfl, rfl⟩)
  | list | setNameSearch | setNameUpdate | getName | resume =>
    rw [hpc] at hs
    obtain ⟨cmd, -, rfl⟩ := Option.map_eq_some_iff.mp hs
    exact .inr (.inr ⟨rfl, rfl, rfl⟩)

/-- What holds of all threads after the moves of a run. -/
structure Balances (s₀ : State N V S) (tail : N) (chain : List N)
    (ls : List (State N V S × Act N V)) (s : State N V S) : Prop where
  inv : Inv s tail chain
  suspend : s.suspend = s₀.suspend
  serves : ∀ u, (s.threads u).Serves s.suspend (lastCall u ls)
  balanced : ∀ t a, s.suspend t = some a → Balanced t a ls s

omit [DecidableEq N] [DecidableEq S] in
/-- A move that is neither a signal nor a semaphore's leaves the balance as it is. -/
lemma Balanced.quiet (h : Balanced t a ls s) (hsem : s'.sem a = s.sem a)
    (hpending : s'.pending t = s.pending t) (hstopped : s'.stopped t = s.stopped t)
    (hres : act.succeeds (Call.resumes t) s ls = false)
    (hsus : act.succeeds (Call.suspends t) s ls = false)
    (hover : act.overflows t s ls = false) (hdel : act.delivers t = false)
    (hwake : act.wakes t = false) : Balanced t a ((s, act) :: ls) s' := by
  constructor
  · simp [succeeded, woken, lost, hres, hwake, hover, hsem, h.posts]
  · simpa [succeeded, lost, hres, hover] using h.kept
  · simp [delivered, woken, hdel, hwake, hstopped, h.stops]
  · simp [signalled, hsus, hdel, hpending, h.pending]
  · simpa [delivered, succeeded, hsus, hdel, hpending] using h.signals

lemma Balances.threadStep (h₀ : StartedAnew s₀ tail chain) (h : Balances s₀ tail chain ls s)
    (hs : threadStep s u weak fresh = some s') :
    Balances s₀ tail chain ((s, .step u weak fresh) :: ls) s' := by
  obtain ⟨-, hstopped, hsus, hothers⟩ := threadStep_frame hs
  have hlast : ∀ v, lastCall v ((s, .step u weak fresh) :: ls) = lastCall v ls := fun v => rfl
  constructor
  · exact threadStep_inv h.inv hs
  · rw [hsus, h.suspend]
  · intro v
    rw [hsus, hlast]
    by_cases hv : v = u
    · subst hv
      exact serves_threadStep h.inv (h.serves v) hs
    · rw [hothers v hv]
      exact h.serves v
  · intro t a ha
    rw [hsus] at ha
    have hbal := h.balanced t a ha
    have hserves := h.serves u
    rcases threadStep_signals hs with ⟨thr, hpc, hpending, hsem⟩ | ⟨b, hpc, hpending, hsem⟩ |
      ⟨hpc, hpending, hsem⟩
    · rw [hpc] at hserves
      have hcall : lastCall u ls = some (.suspend thr) := hserves
      have hsucc : ∀ f, (Act.step u weak fresh).succeeds f s ls = f (.suspend thr) := fun f => by
        simp [Act.succeeds, hpc, Pc.succeeds, hcall]
      have hover : (Act.step u weak fresh).overflows t s ls = false := by
        simp [Act.overflows, hpc]
      by_cases ht : thr = t
      · subst ht
        constructor
        · simp [succeeded, woken, lost, hsucc, hover, Act.wakes, Call.resumes, hsem, hbal.posts]
        · simpa [succeeded, lost, hsucc, hover, Call.resumes] using hbal.kept
        · simp [delivered, woken, Act.delivers, Act.wakes, hstopped, hbal.stops]
        · simp [signalled, hsucc, Call.suspends, hpending]
        · have hsignals := hbal.signals
          simp only [delivered, succeeded, hsucc, Act.delivers, Call.suspends, hpending,
            Function.update_self, decide_true, Bool.toNat_true, Bool.toNat_false]
          omega
      · refine hbal.quiet (by rw [hsem]) ?_ (by rw [hstopped]) ?_ ?_ hover rfl rfl
        · rw [hpending, Function.update_of_ne (Ne.symm ht)]
        · exact hsucc _
        · rw [hsucc, Call.suspends, decide_eq_false ht]
    · rw [hpc] at hserves
      obtain ⟨thr, hcall, hb⟩ := hserves
      have hsucc : ∀ f, (Act.step u weak fresh).succeeds f s ls = f (.resume thr) := fun f => by
        simp [Act.succeeds, hpc, Pc.succeeds, hcall]
      have hover : (Act.step u weak fresh).overflows t s ls =
          (decide (semValueMax ≤ s.sem b) && decide (thr = t)) := by
        simp [Act.overflows, hpc, hcall, Call.resumes]
      rw [h.suspend] at ha hb
      by_cases ht : thr = t
      · subst ht
        obtain rfl := Option.some.inj (ha.symm.trans hb)
        have hposts := hbal.posts
        constructor
        · simp only [succeeded, woken, lost, hsucc, hover, Act.wakes, Call.resumes, hsem,
            Function.update_self, decide_true, Bool.and_true, Bool.toNat_true, Bool.toNat_false]
          by_cases hroom : s.sem a < semValueMax
          · rw [semPost_eq hroom, decide_eq_false (by omega), Bool.toNat_false]
            omega
          · rw [semPost_full hroom, decide_eq_true (by omega), Bool.toNat_true]
            omega
        · simp only [succeeded, lost, hsucc, hover, Call.resumes, decide_true, Bool.and_true,
            Bool.toNat_true]
          intro hfew
          have hkept := hbal.kept (by omega)
          rw [decide_eq_false (by omega), Bool.toNat_false]
          omega
        · simp [delivered, woken, Act.delivers, Act.wakes, hstopped, hbal.stops]
        · simp [signalled, hsucc, Act.delivers, Call.suspends, hpending, hbal.pending]
        · simpa [delivered, succeeded, hsucc, Act.delivers, Call.suspends, hpending]
            using hbal.signals
      · -- the semaphore of another thread
        have hab : a ≠ b := by
          rintro rfl
          exact ht (h₀.apart thr t a hb ha)
        refine hbal.quiet ?_ (by rw [hpending]) (by rw [hstopped]) ?_ ?_ ?_ rfl rfl
        · rw [hsem, Function.update_of_ne hab]
        · rw [hsucc, Call.resumes, decide_eq_false ht]
        · exact hsucc _
        · rw [hover, decide_eq_false ht, Bool.and_false]
    · refine hbal.quiet (by rw [hsem]) (by rw [hpending]) (by rw [hstopped]) ?_ ?_ ?_ rfl rfl
      · simp [Act.succeeds, hpc]
      · simp [Act.succeeds, hpc]
      · cases hp : s.threads u <;> simp_all [Act.overflows, Pc.succeeds]

end CoopTasks.ThreadsSuspend
