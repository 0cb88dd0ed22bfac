import CoopTasks.Machine
import Mathlib.Data.Finite.Prod
import Mathlib.Data.Set.Finite.Basic

/-!
Objects that answer each call at one moment, and machines that cannot be told from them.

A thread calls an object, the object answers the call at some moment after that, and later
the thread returns with the answer. A history of calls and returns that such an object can
show is linearizable. A machine shows only such histories if each of its moves is a turn of
one thread, and a call that returns without having changed the object was offered its answer
at some moment since it began.
-/

namespace CoopTasks.Linearize

open CoopTasks.Machine

variable {T O R A : Type*}

/-- What the clients of an object see of it. -/
inductive Event (T O R : Type*)
  | call (t : T) (op : O)
  | ret (t : T) (r : R)
  deriving DecidableEq, Repr

/-- How far a thread is with its call. -/
inductive Phase (O R : Type*)
  | idle
  | called (op : O)
  | answered (r : R)
  deriving DecidableEq, Repr

/-- An object, and how far the calls of its threads are. -/
@[ext] structure Atomic (T O R A : Type*) where
  obj : A
  phase : T → Phase O R

def Atomic.set [DecidableEq T] (s : Atomic T O R A) (t : T) (p : Phase O R) : Atomic T O R A :=
  ⟨s.obj, Function.update s.phase t p⟩

/-- One step of the object, with what its clients see of it: `spec a op r b` says that the
object may answer `op` by `r` and become `b` when it is `a`. -/
inductive Atomic.Step [DecidableEq T] (spec : A → O → R → A → Prop) (s : Atomic T O R A) :
    List (Event T O R) → Atomic T O R A → Prop
  | call {t : T} {op : O} (h : s.phase t = .idle) : Step spec s [.call t op] (s.set t (.called op))
  | answer {t : T} {op : O} {r : R} {a : A} (h : s.phase t = .called op)
      (ha : spec s.obj op r a) : Step spec s [] (Atomic.set ⟨a, s.phase⟩ t (.answered r))
  | ret {t : T} {r : R} (h : s.phase t = .answered r) : Step spec s [.ret t r] (s.set t .idle)

inductive Atomic.Runs [DecidableEq T] (spec : A → O → R → A → Prop) (s : Atomic T O R A) :
    List (Event T O R) → Atomic T O R A → Prop
  | refl : Runs spec s [] s
  | step {es es' : List (Event T O R)} {u v : Atomic T O R A} (h : Runs spec s es u)
      (hs : Atomic.Step spec u es' v) : Runs spec s (es ++ es') v

/-- The object that starts as `a` may show the history. -/
def Linearizable [DecidableEq T] (spec : A → O → R → A → Prop) (a : A)
    (es : List (Event T O R)) : Prop :=
  ∃ s, Atomic.Runs spec ⟨a, fun _ => .idle⟩ es s

section Runs

variable [DecidableEq T] {spec : A → O → R → A → Prop} {s u v : Atomic T O R A}
  {es es' : List (Event T O R)} {t q : T} {p p' : Phase O R}

@[simp] lemma Atomic.set_obj : (s.set t p).obj = s.obj := rfl
@[simp] lemma Atomic.set_self : (s.set t p).phase t = p := by simp [Atomic.set]
lemma Atomic.set_ne (h : q ≠ t) : (s.set t p).phase q = s.phase q := by simp [Atomic.set, h]

lemma Atomic.set_set {a : A} :
    Atomic.set ⟨a, (s.set t p).phase⟩ t p' = Atomic.set ⟨a, s.phase⟩ t p' := by
  simp [Atomic.set]

lemma Atomic.set_set_same : (s.set t p).set t p' = s.set t p' := by simp [Atomic.set]

lemma Atomic.set_phase (h : s.phase t = p) : s.set t p = s := by
  subst h
  simp [Atomic.set]

lemma Atomic.Runs.trans (h : Atomic.Runs spec s es u) (h' : Atomic.Runs spec u es' v) :
    Atomic.Runs spec s (es ++ es') v := by
  induction h' with
  | refl => simpa using h
  | step _ hs ih =>
    rw [← List.append_assoc]
    exact ih.step hs

lemma Atomic.Step.runs (h : Atomic.Step spec s es u) : Atomic.Runs spec s es u := by
  simpa using Atomic.Runs.refl.step h

lemma Atomic.call_set (s : Atomic T O R A) (t : T) (op : O) :
    Atomic.Runs spec (s.set t .idle) [.call t op] (s.set t (.called op)) := by
  have hset : (s.set t .idle).set t (.called op) = s.set t (.called op) := Atomic.set_set_same
  rw [← hset]
  exact Atomic.Step.runs (.call Atomic.set_self)

lemma Atomic.answer_set {a : A} {op : O} {r : R} (h : spec s.obj op r a) :
    Atomic.Runs spec (s.set t (.called op)) [] (Atomic.set ⟨a, s.phase⟩ t (.answered r)) := by
  have hset : Atomic.set ⟨a, (s.set t (.called op)).phase⟩ t (.answered r) =
      Atomic.set ⟨a, s.phase⟩ t (.answered r) := Atomic.set_set
  rw [← hset]
  exact Atomic.Step.runs (.answer Atomic.set_self h)

lemma Atomic.ret_set (s : Atomic T O R A) (t : T) (r : R) :
    Atomic.Runs spec (s.set t (.answered r)) [.ret t r] (s.set t .idle) := by
  have hset : (s.set t (.answered r)).set t .idle = s.set t .idle := Atomic.set_set_same
  rw [← hset]
  exact Atomic.Step.runs (.ret Atomic.set_self)

lemma Atomic.Runs.answers (l : List T) (hnd : l.Nodup) (hobj : u.obj = s.obj)
    (hout : ∀ t, t ∉ l → u.phase t = s.phase t)
    (hin : ∀ t ∈ l, ∃ op r, s.phase t = .called op ∧ u.phase t = .answered r ∧
      spec s.obj op r s.obj) : Atomic.Runs spec s [] u := by
  induction l generalizing s with
  | nil =>
    have heq : u = s := by
      ext t
      · exact hobj
      · exact hout t (by simp)
    rw [heq]
    exact .refl
  | cons t l ih =>
    obtain ⟨ht, hnd⟩ := List.nodup_cons.mp hnd
    obtain ⟨op, r, hs, hu, hspec⟩ := hin t (by simp)
    have hstep : Atomic.Step spec s [] (s.set t (.answered r)) := .answer hs hspec
    refine hstep.runs.trans (ih hnd hobj (fun q hq => ?_) fun q hq => ?_)
    · by_cases hqt : q = t
      · subst hqt
        rw [hu, Atomic.set_self]
      · rw [Atomic.set_ne hqt]
        exact hout q (by simp [hqt, hq])
    · have hqt : q ≠ t := by
        rintro rfl
        exact ht hq
      rw [Atomic.set_ne hqt]
      exact hin q (by simp [hq])

end Runs

/-! ### Machines whose threads call an object -/

/-- A machine, the object it stands for, how far each thread is with its call after the moves made
so far, and what a move shows of calls and returns. -/
structure Serving (σ ℓ T O R A : Type*) where
  next : σ → ℓ → Option σ
  obj : σ → A
  phase : List (σ × ℓ) → σ → T → Phase O R
  events : σ → ℓ → List (Event T O R)

namespace Serving

variable {σ ℓ : Type*} (M : Serving σ ℓ T O R A) (spec : A → O → R → A → Prop)

/-- The calls and returns of a run, whose moves are given the last one first. -/
def history : List (σ × ℓ) → List (Event T O R)
  | [] => []
  | (s, l) :: ls => history ls ++ M.events s l

/-- At some moment since the thread `t` called `op`, the object could have answered it by `r`
without changing. -/
def Offered (t : T) (op : O) (r : R) : List (σ × ℓ) → σ → Prop
  | [], s => M.phase [] s t = .called op ∧ spec (M.obj s) op r (M.obj s)
  | (u, l) :: ls, s => M.phase ((u, l) :: ls) s t = .called op ∧
    (spec (M.obj s) op r (M.obj s) ∨ Offered t op r ls u)

/-- What a move from `s` to `u` may do with the call of the thread `t`. -/
inductive Turn (ls : List (σ × ℓ)) (s : σ) (l : ℓ) (u : σ) (t : T) : List (Event T O R) → Prop
  | stay (h : M.phase ((s, l) :: ls) u t = M.phase ls s t) (ho : M.obj u = M.obj s) :
    Turn ls s l u t []
  | call (op : O) (h : M.phase ls s t = .idle) (h' : M.phase ((s, l) :: ls) u t = .called op)
      (ho : M.obj u = M.obj s) : Turn ls s l u t [.call t op]
  | answer (op : O) (r : R) (h : M.phase ls s t = .called op)
      (h' : M.phase ((s, l) :: ls) u t = .answered r) (ha : spec (M.obj s) op r (M.obj u)) :
    Turn ls s l u t []
  | ret (r : R) (h : M.phase ls s t = .answered r) (h' : M.phase ((s, l) :: ls) u t = .idle)
      (ho : M.obj u = M.obj s) : Turn ls s l u t [.ret t r]
  | look (op : O) (r : R) (h : M.phase ls s t = .called op)
      (h' : M.phase ((s, l) :: ls) u t = .idle) (ho : M.obj u = M.obj s)
      (hr : M.Offered spec t op r ls s) : Turn ls s l u t [.ret t r]
  | last (op : O) (r : R) (h : M.phase ls s t = .called op)
      (h' : M.phase ((s, l) :: ls) u t = .idle) (ha : spec (M.obj s) op r (M.obj u)) :
    Turn ls s l u t [.ret t r]
  | once (op : O) (r : R) (h : M.phase ls s t = .idle)
      (h' : M.phase ((s, l) :: ls) u t = .idle) (ha : spec (M.obj s) op r (M.obj u)) :
    Turn ls s l u t [.call t op, .ret t r]

/-- The move is a turn of one thread. -/
def Turns (ls : List (σ × ℓ)) (s : σ) (l : ℓ) (u : σ) : Prop :=
  ∃ t, M.Turn spec ls s l u t (M.events s l) ∧
    ∀ q, q ≠ t → M.phase ((s, l) :: ls) u q = M.phase ls s q

variable {M spec} {ls : List (σ × ℓ)} {s u s₀ : σ} {l : ℓ} {t q : T} {op : O} {r : R}
  {es : List (Event T O R)} {p p' : Phase O R} {y : Atomic T O R A} {ok : σ → ℓ → Prop}

lemma Offered.called (h : M.Offered spec t op r ls s) : M.phase ls s t = .called op := by
  cases ls with
  | nil => exact h.1
  | cons x ls => exact h.1

lemma Offered.now (h : M.phase ls s t = .called op) (ha : spec (M.obj s) op r (M.obj s)) :
    M.Offered spec t op r ls s := by
  cases ls with
  | nil => exact ⟨h, ha⟩
  | cons x ls => exact ⟨h, .inl ha⟩

lemma Offered.keep (h : M.Offered spec t op r ls s) (hu : M.phase ((s, l) :: ls) u t = .called op) :
    M.Offered spec t op r ((s, l) :: ls) u :=
  ⟨hu, .inr h⟩

/-! ### Backwards along a run -/

/-- The phase of a call of the machine fits one of the object: a call that the object has
answered and that the machine has not yet decided was offered that answer. -/
def FitsAt (M : Serving σ ℓ T O R A) (spec : A → O → R → A → Prop) (ls : List (σ × ℓ))
    (s : σ) (t : T) (p : Phase O R) : Prop :=
  p = M.phase ls s t ∨ ∃ op r, p = .answered r ∧ M.Offered spec t op r ls s

/-- The object is the one the machine stands for, and its calls fit. -/
structure Fits (M : Serving σ ℓ T O R A) (spec : A → O → R → A → Prop)
    (ls : List (σ × ℓ)) (s : σ) (y : Atomic T O R A) : Prop where
  obj : y.obj = M.obj s
  phase : ∀ t, M.FitsAt spec ls s t (y.phase t)

/-- A thread whose phase fits after the move and not before has its answer from the moment
after the move. -/
lemma FitsAt.late (hphase : M.phase ((s, l) :: ls) u t = M.phase ls s t)
    (h : M.FitsAt spec ((s, l) :: ls) u t p) (hnot : ¬ M.FitsAt spec ls s t p) :
    ∃ op r, M.phase ls s t = .called op ∧ p = .answered r ∧ spec (M.obj u) op r (M.obj u) := by
  rcases h with h | ⟨op, r, hp, hr⟩
  · exact absurd (.inl (h.trans hphase)) hnot
  · refine ⟨op, r, hphase ▸ hr.called, hp, hr.2.resolve_right fun hr' => ?_⟩
    exact hnot (.inr ⟨op, r, hp, hr'⟩)

lemma FitsAt.begun (hs : M.phase ls s t = .idle) (hu : M.phase ((s, l) :: ls) u t = .called op)
    (h : M.FitsAt spec ((s, l) :: ls) u t p) :
    p = .called op ∨ ∃ r, p = .answered r ∧ spec (M.obj u) op r (M.obj u) := by
  rcases h with h | ⟨op', r, hp, hr⟩
  · exact .inl (h.trans hu)
  · obtain rfl : op = op' := by simpa [hu] using hr.called
    refine .inr ⟨r, hp, hr.2.resolve_right fun hr' => ?_⟩
    have hcalled := hr'.called
    simp [hs] at hcalled

section Backward

variable [DecidableEq T]

open Classical in
/-- The phases before a move: those after it, where they fit. -/
noncomputable def back (M : Serving σ ℓ T O R A) (spec : A → O → R → A → Prop)
    (ls : List (σ × ℓ)) (s : σ) (y : Atomic T O R A) : Atomic T O R A :=
  ⟨M.obj s, fun q => if M.FitsAt spec ls s q (y.phase q) then y.phase q else M.phase ls s q⟩

lemma fits_back (hp : M.FitsAt spec ls s t p) :
    M.Fits spec ls s ((M.back spec ls s y).set t p) := by
  refine ⟨rfl, fun q => ?_⟩
  by_cases hq : q = t
  · subst hq
    rw [Atomic.set_self]
    exact hp
  · rw [Atomic.set_ne hq]
    unfold back
    dsimp only
    split
    · assumption
    · exact .inl rfl

/-- After the move the threads get the answers that only that moment offers. -/
lemma catch_up (hfin : {q | M.phase ls s q ≠ .idle}.Finite)
    (hy : M.Fits spec ((s, l) :: ls) u y)
    (hothers : ∀ q, q ≠ t → M.phase ((s, l) :: ls) u q = M.phase ls s q)
    (hp : p' = p ∨ ∃ op r, p = .called op ∧ p' = .answered r ∧ spec (M.obj u) op r (M.obj u)) :
    Atomic.Runs spec (Atomic.set ⟨M.obj u, (M.back spec ls s y).phase⟩ t p) [] (y.set t p') := by
  classical
  let late := hfin.toFinset.filter fun q => q ≠ t ∧ ¬ M.FitsAt spec ls s q (y.phase q)
  have hlate : ∀ q, q ≠ t → ¬ M.FitsAt spec ls s q (y.phase q) → q ∈ late := by
    intro q hq hnot
    obtain ⟨op, r, hs, -, -⟩ := (hy.phase q).late (hothers q hq) hnot
    simp [late, hq, hnot, hs]
  have hrest : Atomic.Runs spec (Atomic.set ⟨M.obj u, (M.back spec ls s y).phase⟩ t p) []
      (y.set t p) := by
    refine .answers late.toList late.nodup_toList hy.obj (fun q hq => ?_) fun q hq => ?_
    · by_cases hqt : q = t
      · subst hqt
        rw [Atomic.set_self, Atomic.set_self]
      · rw [Atomic.set_ne hqt, Atomic.set_ne hqt]
        by_cases hfit : M.FitsAt spec ls s q (y.phase q)
        · simp [back, hfit]
        · exact absurd (Finset.mem_toList.mpr (hlate q hqt hfit)) hq
    · obtain ⟨hqt, hnot⟩ := (Finset.mem_filter.mp (Finset.mem_toList.mp hq)).2
      obtain ⟨op, r, hs, hr, hspec⟩ := (hy.phase q).late (hothers q hqt) hnot
      refine ⟨op, r, ?_, ?_, hspec⟩
      · rw [Atomic.set_ne hqt]
        simp [back, hnot, hs]
      · rw [Atomic.set_ne hqt, hr]
  rcases hp with rfl | ⟨op, r, rfl, rfl, hspec⟩
  · exact hrest
  · exact hrest.trans (Atomic.answer_set (by rw [hy.obj]; exact hspec))

/-- **Backwards**: what the object may be after a move, it may have become from what it may be
before the move, showing the same calls and returns. -/
theorem fits_backwards (hfin : {q | M.phase ls s q ≠ .idle}.Finite) (hturn : M.Turns spec ls s l u)
    (hy : M.Fits spec ((s, l) :: ls) u y) :
    ∃ y₀, M.Fits spec ls s y₀ ∧ Atomic.Runs spec y₀ (M.events s l) y := by
  obtain ⟨t, hturn, hothers⟩ := hturn
  let mid (p : Phase O R) : Atomic T O R A :=
    Atomic.set ⟨M.obj u, (M.back spec ls s y).phase⟩ t p
  have hback : ∀ p, M.obj u = M.obj s → (M.back spec ls s y).set t p = mid p := by
    intro p ho
    simp only [mid, ho]
    rfl
  have hanswer : ∀ op r, spec (M.obj s) op r (M.obj u) →
      Atomic.Runs spec ((M.back spec ls s y).set t (.called op)) [] (mid (.answered r)) :=
    fun op r hspec => Atomic.answer_set hspec
  have hidle : M.phase ((s, l) :: ls) u t = .idle → y.phase t = .idle := by
    intro h'
    rcases hy.phase t with h | ⟨op, r, -, hr⟩
    · exact h.trans h'
    · have hcalled := hr.called
      simp [h'] at hcalled
  -- the last step of a call that returns
  have hret : ∀ r, M.phase ((s, l) :: ls) u t = .idle →
      Atomic.Runs spec (mid (.answered r)) [.ret t r] y := by
    intro r h'
    have hrun : Atomic.Runs spec (mid (.answered r)) [] (y.set t (.answered r)) :=
      catch_up hfin hy hothers (.inl rfl)
    have hlast : Atomic.Runs spec (y.set t (.answered r)) [.ret t r] (y.set t .idle) :=
      Atomic.ret_set y t r
    rw [Atomic.set_phase (hidle h')] at hlast
    exact hrun.trans hlast
  -- the moment after the move
  have hend : ∀ p, (y.phase t = p ∨ ∃ op r, p = .called op ∧ y.phase t = .answered r ∧
      spec (M.obj u) op r (M.obj u)) → Atomic.Runs spec (mid p) [] y := by
    intro p hp
    have hrun := catch_up hfin hy hothers hp
    rwa [Atomic.set_phase rfl] at hrun
  generalize M.events s l = es at hturn
  cases hturn with
  | stay h ho =>
    by_cases hfit : M.FitsAt spec ls s t (y.phase t)
    · refine ⟨(M.back spec ls s y).set t _, fits_back hfit, ?_⟩
      rw [hback _ ho]
      exact hend _ (.inl rfl)
    · obtain ⟨op, r, hs, hr, hspec⟩ := (hy.phase t).late h hfit
      refine ⟨(M.back spec ls s y).set t _, fits_back (.inl hs.symm), ?_⟩
      rw [hback _ ho]
      exact hend _ (.inr ⟨op, r, rfl, hr, hspec⟩)
  | call op h h' ho =>
    refine ⟨(M.back spec ls s y).set t _, fits_back (.inl h.symm), ?_⟩
    rw [hback _ ho]
    refine (Atomic.call_set _ t op).trans (hend _ ?_)
    rcases (hy.phase t).begun h h' with hp | ⟨r, hp, hspec⟩
    · exact .inl hp
    · exact .inr ⟨op, r, rfl, hp, hspec⟩
  | answer op r h h' ha =>
    refine ⟨(M.back spec ls s y).set t _, fits_back (.inl h.symm),
      (hanswer op r ha).trans (hend _ (.inl ?_))⟩
    rcases hy.phase t with hp | ⟨op', r', -, hr⟩
    · exact hp.trans h'
    · have hcalled := hr.called
      simp [h'] at hcalled
  | ret r h h' ho =>
    refine ⟨(M.back spec ls s y).set t _, fits_back (.inl h.symm), ?_⟩
    rw [hback _ ho]
    exact hret r h'
  | look op r h h' ho hr =>
    refine ⟨(M.back spec ls s y).set t _, fits_back (.inr ⟨op, r, rfl, hr⟩), ?_⟩
    rw [hback _ ho]
    exact hret r h'
  | last op r h h' ha =>
    exact ⟨(M.back spec ls s y).set t _, fits_back (.inl h.symm),
      (hanswer op r ha).trans (hret r h')⟩
  | once op r h h' ha =>
    exact ⟨(M.back spec ls s y).set t _, fits_back (.inl h.symm),
      (Atomic.call_set _ t op).trans ((hanswer op r ha).trans (hret r h'))⟩

end Backward

/-! ### Runs -/

lemma finite_calls (h₀ : ∀ t, M.phase [] s₀ t = .idle)
    (hturn : ∀ ls s l u, Trace M.next ok s₀ ls s → ok s l → M.next s l = some u →
      M.Turns spec ls s l u)
    (h : Trace M.next ok s₀ ls s) : {q : T | M.phase ls s q ≠ .idle}.Finite := by
  induction h with
  | refl => simp [h₀]
  | step h hok hn ih =>
    obtain ⟨t, -, hothers⟩ := hturn _ _ _ _ h hok hn
    refine (ih.insert t).subset fun q hq => ?_
    by_cases hqt : q = t
    · exact .inl hqt
    · rw [Set.mem_ofPred_eq, hothers q hqt] at hq
      exact .inr hq

/-- **Linearizability**: a machine each of whose moves is a turn of one thread shows only what
the object it stands for may show. -/
theorem linearizable [DecidableEq T] (h₀ : ∀ t, M.phase [] s₀ t = .idle)
    (hturn : ∀ ls s l u, Trace M.next ok s₀ ls s → ok s l → M.next s l = some u →
      M.Turns spec ls s l u)
    (h : Trace M.next ok s₀ ls s) : Linearizable spec (M.obj s₀) (M.history ls) := by
  have hback : ∀ y, M.Fits spec ls s y →
      Atomic.Runs spec ⟨M.obj s₀, fun _ => .idle⟩ (M.history ls) y := by
    induction h with
    | refl =>
      intro y hy
      have heq : y = ⟨M.obj s₀, fun _ => .idle⟩ := by
        ext t
        · exact hy.obj
        · rcases hy.phase t with hp | ⟨op, r, -, hr⟩
          · exact hp.trans (h₀ t)
          · have hcalled := hr.called
            simp [h₀] at hcalled
      rw [heq]
      exact .refl
    | step h hok hn ih =>
      intro y hy
      obtain ⟨y₀, hy₀, hrun⟩ := fits_backwards (finite_calls h₀ hturn h)
        (hturn _ _ _ _ h hok hn) hy
      exact (ih y₀ hy₀).trans hrun
  exact ⟨_, hback ⟨M.obj s, M.phase ls s⟩ ⟨rfl, fun t => .inl rfl⟩⟩

end Serving

end CoopTasks.Linearize
