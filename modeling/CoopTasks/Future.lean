import CoopTasks.Machine
import Mathlib.Data.Int.Notation
import Mathlib.Data.List.Basic

/-!
A promise and its future, shared by any number of threads.

The mutex has an owner, the condition variable a wait set. `pthread_cond_signal` wakes some of
the waiting threads, and at least one if there is any; a thread may also wake for no reason. A
thread that was woken has left the wait set and takes the mutex again when it is free.
-/

namespace CoopTasks.Future

open CoopTasks.Machine

/-- Where a thread stands: outside, in `future_get_value`, in `future_has_value`, or in
`promise_set_value`. What a call returned stays until the thread's next call. -/
inductive Pc
  | idle
  | getLock (value : Bool)
  | getTest (value : Bool)
  | getWait (value : Bool)
  | getUnlock (value : Bool)
  | getRead (value : Bool)
  | got (v : Option ℤ)
  | hasLock
  | hasRead
  | hasUnlock (b : Bool)
  | has (b : Bool)
  | setLock (v : ℤ)
  | setValue (v : ℤ)
  | setDone
  | setSignal
  | setUnlock
  deriving DecidableEq, Repr

def Pc.outside : Pc → Bool
  | .idle | .got _ | .has _ => true
  | _ => false

/-- Whether the thread is between taking the mutex and giving it back. -/
def Pc.locked : Pc → Bool
  | .getTest _ | .getUnlock _ | .hasRead | .hasUnlock _ => true
  | .setValue _ | .setDone | .setSignal | .setUnlock => true
  | _ => false

/-- A future obtained with `promise_get_future`, and the threads. `cnd` is the wait set;
`asked` and `returned` tell of the call of `promise_set_value`, and `reads` what the calls of
`future_has_value` have read, in order. -/
structure State where
  mtx : Option ℕ
  cnd : List ℕ
  done : Bool
  value : ℤ
  pcs : ℕ → Pc
  asked : Option ℤ
  returned : Bool
  reads : List Bool

/-- Before any call; `PROMISE_INITIALIZER`. -/
def initial : State := ⟨none, [], false, 0, fun _ => .idle, none, false, []⟩

inductive Act
  | get (t : ℕ) (value : Bool)
  | has (t : ℕ)
  | set (t : ℕ) (v : ℤ)
  | step (t : ℕ)
  | signal (t : ℕ) (woken : List ℕ)
  | spurious (t : ℕ)
  deriving DecidableEq, Repr

def State.go (s : State) (t : ℕ) (pc : Pc) : State := { s with pcs := Function.update s.pcs t pc }

/-- `pthread_mutex_lock`, which waits for the mutex to be free. -/
def lock (s : State) (t : ℕ) (pc : Pc) : Option State :=
  if s.mtx = none then some ({ s with mtx := some t }.go t pc) else none

/-- `pthread_mutex_unlock`. -/
def unlock (s : State) (t : ℕ) (pc : Pc) : State := { s with mtx := none }.go t pc

/-- The thread `t` takes its next step in a call. -/
def threadStep (s : State) (t : ℕ) : Option State :=
  match s.pcs t with
  | .idle | .got _ | .has _ | .setSignal => none
  | .getLock value => lock s t (.getTest value)
  | .getTest value =>
    if s.done then some (s.go t (.getUnlock value))
    else some ({ s with mtx := none, cnd := t :: s.cnd }.go t (.getWait value))
  | .getWait value => if t ∈ s.cnd then none else lock s t (.getTest value)
  | .getUnlock value => some (unlock s t (.getRead value))
  | .getRead value => some (s.go t (.got (if value then some s.value else none)))
  | .hasLock => lock s t .hasRead
  | .hasRead => some ({ s with reads := s.reads ++ [s.done] }.go t (.hasUnlock s.done))
  | .hasUnlock b => some (unlock s t (.has b))
  | .setLock v => lock s t (.setValue v)
  | .setValue v => some ({ s with value := v }.go t .setDone)
  | .setDone => some ({ s with done := true }.go t .setSignal)
  | .setUnlock => some (unlock { s with returned := true } t .idle)

/-- A thread makes a call or takes a step in one, `promise_set_value` signals, or a waiting
thread wakes. Only one call of `promise_set_value` is made. -/
def next (s : State) : Act → Option State
  | .get t value => if (s.pcs t).outside then some (s.go t (.getLock value)) else none
  | .has t => if (s.pcs t).outside then some (s.go t .hasLock) else none
  | .set t v =>
    if (s.pcs t).outside ∧ s.asked = none then some ({ s with asked := some v }.go t (.setLock v))
    else none
  | .step t => threadStep s t
  | .signal t woken =>
    if s.pcs t = .setSignal ∧ (∀ u ∈ woken, u ∈ s.cnd) ∧ (s.cnd ≠ [] → woken ≠ []) then
      some ({ s with cnd := s.cnd.filter (· ∉ woken) }.go t .setUnlock)
    else none
  | .spurious t => if t ∈ s.cnd then some { s with cnd := s.cnd.erase t } else none

/-- The signal of `promise_set_value` wakes every thread that waits. -/
def WakesAll (s : State) : Act → Prop
  | .signal _ woken => ∀ u ∈ s.cnd, u ∈ woken
  | _ => True

instance (s : State) : (a : Act) → Decidable (WakesAll s a)
  | .signal _ woken => inferInstanceAs (Decidable (∀ u ∈ s.cnd, u ∈ woken))
  | .get _ _ | .has _ | .set _ _ | .step _ | .spurious _ => inferInstanceAs (Decidable True)

/-! ### The invariant -/

/-- Whether the thread is in `promise_set_value`. -/
def Pc.setting : Pc → Bool
  | .setLock _ | .setValue _ | .setDone | .setSignal | .setUnlock => true
  | _ => false

/-- What a thread at `pc` knows about the future. -/
def PcOk (s : State) : Pc → Prop
  | .getUnlock _ | .getRead _ | .has true | .hasUnlock true => s.done = true
  | .got v => s.done = true ∧ ∀ x ∈ v, s.asked = some x
  | .setLock v | .setValue v => s.asked = some v ∧ s.done = false ∧ s.returned = false
  | .setDone => s.asked = some s.value ∧ s.done = false ∧ s.returned = false
  | .setSignal | .setUnlock => s.done = true ∧ s.returned = false
  | _ => True

structure Inv (s : State) : Prop where
  pcs : ∀ t, PcOk s (s.pcs t)
  mtx : ∀ t, (s.pcs t).locked = true → s.mtx = some t
  cnd : ∀ t ∈ s.cnd, ∃ value, s.pcs t = .getWait value
  setter : ∀ t u, (s.pcs t).setting = true → (s.pcs u).setting = true → t = u
  asked : s.asked = none → s.done = false ∧ ∀ t, (s.pcs t).setting = false
  done : s.done = true → s.asked = some s.value
  returned : s.returned = true → s.done = true
  order : s.reads.Pairwise fun a b => a = true → b = true
  reads : true ∈ s.reads → s.done = true

variable {s s' : State} {t u : ℕ} {a : Act} {pc : Pc}

@[simp] lemma go_self : (s.go t pc).pcs t = pc := by simp [State.go]
lemma go_ne (h : u ≠ t) : (s.go t pc).pcs u = s.pcs u := by simp [State.go, h]

/-- What a step of the thread `t` that leads it to `pc` may do to the rest, `x`. -/
structure Step (s : State) (t : ℕ) (pc : Pc) (x : State) : Prop where
  pcs : x.pcs = s.pcs
  pcOk : PcOk x pc
  done : s.done = true → x.done = true
  asked : ∀ v, s.asked = some v → x.asked = some v
  others : ∀ u, u ≠ t → (s.pcs u).setting = true →
    x.done = s.done ∧ x.value = s.value ∧ x.returned = s.returned
  mtx : pc.locked = true → x.mtx = some t
  mtxs : ∀ u, u ≠ t → s.mtx = some u → x.mtx = some u
  cnd : t ∈ x.cnd → ∃ value, pc = .getWait value
  cnds : ∀ u ∈ x.cnd, u ≠ t → u ∈ s.cnd
  setter : pc.setting = true → ∀ u, u ≠ t → (s.pcs u).setting = false
  unasked : x.asked = none → x.done = false ∧ pc.setting = false
  value : x.done = true → x.asked = some x.value
  returned : x.returned = true → x.done = true
  order : x.reads.Pairwise fun a b => a = true → b = true
  reads : true ∈ x.reads → x.done = true

lemma PcOk.kept {x : State} (h : PcOk s pc) (hdone : s.done = true → x.done = true)
    (hasked : ∀ v, s.asked = some v → x.asked = some v)
    (hset : pc.setting = true → x.done = s.done ∧ x.value = s.value ∧
      x.returned = s.returned) : PcOk x pc := by
  cases pc with
  | idle | getLock | getTest | getWait | hasLock | hasRead => trivial
  | getUnlock | getRead => exact hdone h
  | got v => exact ⟨hdone h.1, fun y hy => hasked y (h.2 y hy)⟩
  | hasUnlock b | has b => cases b with
    | false => trivial
    | true => exact hdone h
  | setLock v | setValue v =>
    obtain ⟨hd, -, hr⟩ := hset rfl
    exact ⟨hasked v h.1, hd.trans h.2.1, hr.trans h.2.2⟩
  | setDone =>
    obtain ⟨hd, hv, hr⟩ := hset rfl
    exact ⟨hasked _ (hv ▸ h.1), hd.trans h.2.1, hr.trans h.2.2⟩
  | setSignal | setUnlock =>
    obtain ⟨hd, -, hr⟩ := hset rfl
    exact ⟨hd.trans h.1, hr.trans h.2⟩

lemma Inv.go {x : State} (h : Inv s) (hx : Step s t pc x) : Inv (x.go t pc) where
  pcs u := by
    by_cases hu : u = t
    · rw [hu, go_self]
      exact hx.pcOk
    · rw [go_ne hu, hx.pcs]
      exact (h.pcs u).kept hx.done hx.asked (hx.others u hu)
  mtx u hl := by
    by_cases hu : u = t
    · rw [hu, go_self] at hl
      exact hu ▸ hx.mtx hl
    · rw [go_ne hu, hx.pcs] at hl
      exact hx.mtxs u hu (h.mtx u hl)
  cnd u hm := by
    by_cases hu : u = t
    · rw [hu, go_self]
      exact hx.cnd (hu ▸ hm)
    · rw [go_ne hu, hx.pcs]
      exact h.cnd u (hx.cnds u hm hu)
  setter u w hu hw := by
    by_cases hut : u = t <;> by_cases hwt : w = t
    · rw [hut, hwt]
    · rw [hut, go_self] at hu
      rw [go_ne hwt, hx.pcs, hx.setter hu w hwt] at hw
      simp at hw
    · rw [hwt, go_self] at hw
      rw [go_ne hut, hx.pcs, hx.setter hw u hut] at hu
      simp at hu
    · rw [go_ne hut, hx.pcs] at hu
      rw [go_ne hwt, hx.pcs] at hw
      exact h.setter u w hu hw
  asked hn := by
    refine ⟨(hx.unasked hn).1, fun u => ?_⟩
    by_cases hu : u = t
    · rw [hu, go_self]
      exact (hx.unasked hn).2
    · rw [go_ne hu, hx.pcs]
      refine (h.asked ?_).2 u
      cases hs : s.asked with
      | none => rfl
      | some v => exact absurd ((hx.asked v hs).symm.trans hn) (by simp)
  done := hx.value
  returned := hx.returned
  order := hx.order
  reads := hx.reads

lemma Inv.keep (h : Inv s) (hpc : PcOk s pc) (hset : pc.setting = (s.pcs t).setting)
    (hlock : pc.locked = (s.pcs t).locked) (hcnd : t ∉ s.cnd) : Inv (s.go t pc) :=
  h.go ⟨rfl, hpc, id, fun _ => id, fun _ _ _ => ⟨rfl, rfl, rfl⟩, fun hl => h.mtx t (hlock ▸ hl),
    fun _ _ => id, fun hc => absurd hc hcnd, fun _ hu _ => hu,
    fun hs u hu => by
      by_contra hne
      exact hu (h.setter u t (by simpa using hne) (hset ▸ hs)),
    fun hn => ⟨(h.asked hn).1, hset.trans ((h.asked hn).2 t)⟩, h.done, h.returned, h.order, h.reads⟩

lemma Inv.lock (h : Inv s) (hs : lock s t pc = some s') (hpc : PcOk s pc)
    (hset : pc.setting = (s.pcs t).setting) (hcnd : t ∉ s.cnd) : Inv s' := by
  unfold Future.lock at hs
  split at hs
  · rename_i hfree
    obtain rfl := by simpa using hs
    exact h.go ⟨rfl, hpc, id, fun _ => id, fun _ _ _ => ⟨rfl, rfl, rfl⟩, fun _ => rfl,
      fun u _ hu => absurd (hfree.symm.trans hu) (by simp), fun hc => absurd hc hcnd,
      fun _ hu _ => hu,
      fun hs u hu => by
        by_contra hne
        exact hu (h.setter u t (by simpa using hne) (hset ▸ hs)),
      fun hn => ⟨(h.asked hn).1, hset.trans ((h.asked hn).2 t)⟩, h.done, h.returned, h.order,
      h.reads⟩
  · simp at hs

lemma Inv.unlock (h : Inv s) (hold : (s.pcs t).locked = true) (hpc : PcOk s pc)
    (hset : pc.setting = true → (s.pcs t).setting = true) (hlock : pc.locked = false)
    (hcnd : t ∉ s.cnd) : Inv (unlock s t pc) := by
  have hmine := h.mtx t hold
  refine h.go ⟨rfl, hpc, id, fun _ => id, fun _ _ _ => ⟨rfl, rfl, rfl⟩, by simp [hlock],
    fun u hu hm => ?_, fun hc => absurd hc hcnd, fun _ hu _ => hu, fun hs u hu => ?_,
    fun hn => ⟨(h.asked hn).1, ?_⟩, h.done, h.returned, h.order, h.reads⟩
  · rw [hmine] at hm
    exact absurd (by simpa using hm.symm) hu
  · by_contra hne
    exact hu (h.setter u t (by simpa using hne) (hset hs))
  · by_contra hne
    have := hset (by simpa using hne)
    rw [(h.asked hn).2 t] at this
    simp at this

lemma threadStep_inv (h : Inv s) (hs : threadStep s t = some s') : Inv s' := by
  have hpcs := h.pcs t
  have hcnd : (∀ value, s.pcs t ≠ .getWait value) → t ∉ s.cnd := fun hne hc => by
    obtain ⟨value, hv⟩ := h.cnd t hc
    exact hne value hv
  have hother : (s.pcs t).setting = true → ∀ u, u ≠ t → (s.pcs u).setting = false := by
    intro hset u hu
    by_contra hne
    exact hu (h.setter u t (by simpa using hne) hset)
  have hmine : (s.pcs t).locked = true → s.mtx = some t := h.mtx t
  unfold threadStep at hs
  cases hpc : s.pcs t <;> rw [hpc] at hpcs hcnd hother hmine hs
  case idle | got | has | setSignal => simp at hs
  case getLock => exact h.lock hs trivial (by rw [hpc]; rfl) (hcnd (by simp))
  case getTest value =>
    simp only at hs
    split at hs
    · rename_i hdone
      obtain rfl := by simpa using hs
      exact h.keep hdone (by rw [hpc]; rfl) (by rw [hpc]; rfl) (hcnd (by simp))
    · -- `pthread_cond_wait` gives the mutex back and joins the wait set
      obtain rfl := by simpa using hs
      refine h.go ⟨rfl, trivial, id, fun _ => id, fun _ _ _ => ⟨rfl, rfl, rfl⟩, by simp [Pc.locked],
        fun u hu hm => ?_, fun _ => ⟨value, rfl⟩, fun u hm hu => ?_, by simp [Pc.setting],
        fun hn => ⟨(h.asked hn).1, rfl⟩, h.done, h.returned, h.order, h.reads⟩
      · rw [hmine rfl] at hm
        exact absurd (by simpa using hm.symm) hu
      · simpa [hu] using hm
  case getWait =>
    simp only at hs
    split at hs
    · simp at hs
    · rename_i hwoken
      exact h.lock hs trivial (by rw [hpc]; rfl) hwoken
  case getUnlock =>
    obtain rfl := by simpa using hs
    exact h.unlock (by rw [hpc]; rfl) hpcs (by simp [Pc.setting]) rfl (hcnd (by simp))
  case getRead =>
    obtain rfl := by simpa using hs
    refine h.keep ⟨hpcs, fun x hx => ?_⟩ (by rw [hpc]; rfl) (by rw [hpc]; rfl) (hcnd (by simp))
    split at hx
    · obtain rfl := by simpa using hx
      exact h.done hpcs
    · simp at hx
  case hasLock => exact h.lock hs trivial (by rw [hpc]; rfl) (hcnd (by simp))
  case hasRead =>
    obtain rfl := by simpa using hs
    refine h.go ⟨rfl, ?_, id, fun _ => id, fun _ _ _ => ⟨rfl, rfl, rfl⟩, fun _ => hmine rfl,
      fun _ _ => id, fun hc => absurd hc (hcnd (by simp)), fun _ hu _ => hu, by simp [Pc.setting],
      fun hn => ⟨(h.asked hn).1, rfl⟩, h.done, h.returned, ?_, fun hm => ?_⟩
    · show PcOk s (.hasUnlock s.done)
      cases hd : s.done
      · trivial
      · exact hd
    · refine List.pairwise_append.mpr ⟨h.order, List.pairwise_singleton _ _, ?_⟩
      rintro a ha b hb rfl
      obtain rfl := by simpa using hb
      exact h.reads ha
    · rcases List.mem_append.mp hm with hm | hm
      · exact h.reads hm
      · exact (by simpa using hm)
  case hasUnlock b =>
    obtain rfl := by simpa using hs
    have hb : PcOk s (.has b) := by
      cases b
      · trivial
      · exact hpcs
    exact h.unlock (by rw [hpc]; rfl) hb (by simp [Pc.setting]) rfl (hcnd (by simp))
  case setLock => exact h.lock hs hpcs (by rw [hpc]; rfl) (hcnd (by simp))
  case setValue v =>
    obtain rfl := by simpa using hs
    obtain ⟨hasked, hdone, hret⟩ := hpcs
    exact h.go ⟨rfl, ⟨hasked, hdone, hret⟩, id, fun _ => id,
      fun u hu hs => by simp [hother rfl u hu] at hs, fun _ => hmine rfl, fun _ _ => id,
      fun hc => absurd hc (hcnd (by simp)), fun _ hu _ => hu, fun _ => hother rfl,
      fun hn => absurd (hasked.symm.trans hn) (by simp),
      fun hd => absurd (hdone.symm.trans hd) (by simp), h.returned, h.order, h.reads⟩
  case setDone =>
    obtain rfl := by simpa using hs
    obtain ⟨hasked, -, hret⟩ := hpcs
    exact h.go ⟨rfl, ⟨rfl, hret⟩, fun _ => rfl, fun _ => id,
      fun u hu hs => by simp [hother rfl u hu] at hs, fun _ => hmine rfl, fun _ _ => id,
      fun hc => absurd hc (hcnd (by simp)), fun _ hu _ => hu, fun _ => hother rfl,
      fun hn => absurd (hasked.symm.trans hn) (by simp), fun _ => hasked, fun _ => rfl, h.order,
      fun _ => rfl⟩
  case setUnlock =>
    obtain rfl := by simpa using hs
    obtain ⟨hdone, -⟩ := hpcs
    refine h.go ⟨rfl, trivial, id, fun _ => id,
      fun u hu hs => by simp [hother rfl u hu] at hs, by simp [Pc.locked], fun u hu hm => ?_,
      fun hc => absurd hc (hcnd (by simp)), fun _ hu _ => hu, by simp [Pc.setting],
      fun hn => ⟨(h.asked hn).1, rfl⟩, h.done, fun _ => hdone, h.order, h.reads⟩
    rw [hmine rfl] at hm
    exact absurd (by simpa using hm.symm) hu

lemma inv_step (h : Inv s) (hs : next s a = some s') : Inv s' := by
  have hidle : ∀ t, (s.pcs t).outside = true → (s.pcs t).setting = false ∧
      (s.pcs t).locked = false ∧ t ∉ s.cnd := fun t ht => by
    refine ⟨?_, ?_, fun hc => ?_⟩
    · cases hpc : s.pcs t <;> simp_all [Pc.outside, Pc.setting]
    · cases hpc : s.pcs t <;> simp_all [Pc.outside, Pc.locked]
    · obtain ⟨value, hv⟩ := h.cnd t hc
      simp [hv, Pc.outside] at ht
  cases a with
  | get t value | has t =>
    simp only [next] at hs
    split at hs
    · rename_i hout
      obtain rfl := by simpa using hs
      obtain ⟨h1, h2, h3⟩ := hidle t hout
      exact h.keep trivial h1.symm h2.symm h3
    · simp at hs
  | set t v =>
    simp only [next] at hs
    split at hs
    · rename_i hout
      obtain rfl := by simpa using hs
      obtain ⟨hdone, hnone⟩ := h.asked hout.2
      have hret : s.returned = false := by
        by_contra hne
        have := h.returned (by simpa using hne)
        simp [hdone] at this
      exact h.go ⟨rfl, ⟨rfl, hdone, hret⟩, id, fun v hv => by simp [hout.2] at hv,
        fun u _ hs => by simp [hnone u] at hs, by simp [Pc.locked], fun _ _ => id,
        fun hc => absurd hc (hidle t hout.1).2.2, fun _ hu _ => hu, fun _ u _ => hnone u,
        by simp, fun hd => absurd (hdone.symm.trans hd) (by simp), h.returned, h.order, h.reads⟩
    · simp at hs
  | step t => exact threadStep_inv h hs
  | signal t woken =>
    simp only [next] at hs
    split at hs
    · rename_i hsig
      obtain rfl := by simpa using hs
      have hpcs := h.pcs t
      have hmine := h.mtx t
      rw [hsig.1] at hpcs hmine
      have hset : (s.pcs t).setting = true := by rw [hsig.1]; rfl
      refine h.go ⟨rfl, hpcs, id, fun _ => id, fun _ _ _ => ⟨rfl, rfl, rfl⟩, fun _ => hmine rfl,
        fun _ _ => id, fun hc => ?_, fun u hu _ => List.mem_of_mem_filter hu, fun _ u hu => ?_,
        fun hn => ?_, h.done, h.returned, h.order, h.reads⟩
      · obtain ⟨value, hv⟩ := h.cnd t (List.mem_of_mem_filter hc)
        rw [hsig.1] at hv
        simp at hv
      · by_contra hne
        exact hu (h.setter u t (by simpa using hne) hset)
      · rw [(h.asked hn).2 t] at hset
        simp at hset
    · simp at hs
  | spurious t =>
    simp only [next] at hs
    split at hs
    · obtain rfl := by simpa using hs
      exact ⟨h.pcs, h.mtx, fun u hu => h.cnd u (List.mem_of_mem_erase hu), h.setter, h.asked,
        h.done, h.returned, h.order, h.reads⟩
    · simp at hs

lemma initial_inv : Inv initial := by
  constructor <;> simp [initial, PcOk, Pc.locked, Pc.setting]

/-! ### The wait set after the signal -/

/-- `promise_set_value` has signalled. -/
def Signalled (s : State) : Prop := s.returned = true ∨ ∃ t, s.pcs t = .setUnlock

lemma Inv.done_of_signalled (h : Inv s) (hs : Signalled s) : s.done = true := by
  rcases hs with hret | ⟨t, ht⟩
  · exact h.returned hret
  · have := h.pcs t
    rw [ht] at this
    exact this.1

lemma signalled_go {x : State} (hx : x.pcs = s.pcs) (hret : x.returned = s.returned)
    (hpc : pc ≠ .setUnlock) (h : Signalled (x.go t pc)) : Signalled s := by
  rcases h with hr | ⟨u, hu⟩
  · exact .inl (hret.symm.trans hr)
  · by_cases hut : u = t
    · rw [hut, go_self] at hu
      exact absurd hu hpc
    · rw [go_ne hut, hx] at hu
      exact .inr ⟨u, hu⟩

lemma threadStep_signalled (h : Inv s) (hs : threadStep s t = some s') (hsig : Signalled s') :
    Signalled s ∧ s'.cnd = s.cnd := by
  have hlock : ∀ {pc}, pc ≠ .setUnlock → lock s t pc = some s' →
      Signalled s ∧ s'.cnd = s.cnd := fun hpc hl => by
    unfold lock at hl
    split at hl
    · obtain rfl := by simpa using hl
      exact ⟨signalled_go (x := { s with mtx := some t }) rfl rfl hpc hsig, rfl⟩
    · simp at hl
  unfold threadStep at hs
  cases hpc : s.pcs t <;> rw [hpc] at hs
  case idle | got | has | setSignal => simp at hs
  case getLock | hasLock | setLock => exact hlock (by simp) hs
  case getTest value =>
    simp only at hs
    split at hs
    · obtain rfl := by simpa using hs
      exact ⟨signalled_go rfl rfl (by simp) hsig, rfl⟩
    · rename_i hdone
      obtain rfl := by simpa using hs
      -- a thread that is about to wait has read `false`, so nobody has signalled
      have hold := signalled_go (s := s) (by rfl) (by rfl) (by simp) hsig
      exact absurd (h.done_of_signalled hold) hdone
  case getWait =>
    simp only at hs
    split at hs
    · simp at hs
    · exact hlock (by simp) hs
  case setUnlock =>
    obtain rfl := by simpa using hs
    exact ⟨.inr ⟨t, hpc⟩, rfl⟩
  case getUnlock | getRead | hasRead | hasUnlock | setValue | setDone =>
    obtain rfl := by simpa using hs
    exact ⟨signalled_go (s := s) (by rfl) (by rfl) (by simp) hsig, rfl⟩

lemma wakes_step (h : Inv s) (hempty : Signalled s → s.cnd = []) (hok : WakesAll s a)
    (hs : next s a = some s') (hsig : Signalled s') : s'.cnd = [] := by
  cases a with
  | get t value | has t | set t v =>
    simp only [next] at hs
    split at hs
    · obtain rfl := by simpa using hs
      exact hempty (signalled_go (s := s) rfl rfl (by simp) hsig)
    · simp at hs
  | step t =>
    obtain ⟨hsig', hcnd⟩ := threadStep_signalled h hs hsig
    rw [hcnd, hempty hsig']
  | signal t woken =>
    simp only [next] at hs
    split at hs
    · obtain rfl := by simpa using hs
      refine List.filter_eq_nil_iff.mpr fun u hu => ?_
      simpa using hok u hu
    · simp at hs
  | spurious t =>
    simp only [next] at hs
    split at hs
    · obtain rfl := by simpa using hs
      rename_i hm
      rw [hempty hsig] at hm
      simp at hm
    · simp at hs

/-! ### The main result -/

/-- What `future_get_value` and `future_has_value` return. -/
structure Delivers (s : State) : Prop where
  set : ∀ t v, s.pcs t = .got v → s.done = true
  value : ∀ t v, s.pcs t = .got (some v) → s.asked = some v
  order : s.reads.Pairwise fun a b => a = true → b = true

/-- Nobody is left in the wait set once `promise_set_value` has returned. -/
def NoneLeft (s : State) : Prop := s.returned = true → s.cnd = []

lemma noneLeft (h : Reach next WakesAll initial s) : NoneLeft s := fun hret => by
  have hboth : Inv s ∧ (Signalled s → s.cnd = []) :=
    h.inv (I := fun u => Inv u ∧ (Signalled u → u.cnd = [])) ⟨initial_inv, fun _ => rfl⟩
      fun u a w hu ha hw => ⟨inv_step hu.1 hw, wakes_step hu.1 hu.2 ha hw⟩
  exact hboth.2 (.inl hret)

/-- At most one thread waits when `promise_set_value` signals. -/
def OneWaits (s : State) : Act → Prop
  | .signal _ _ => ∀ u ∈ s.cnd, ∀ v ∈ s.cnd, u = v
  | _ => True

lemma OneWaits.wakesAll (h : OneWaits s a) (hs : next s a = some s') : WakesAll s a := by
  cases a with
  | signal t woken =>
    simp only [next] at hs
    split at hs
    · rename_i hsig
      intro u hu
      obtain ⟨x, hx⟩ := List.exists_mem_of_ne_nil _ (hsig.2.2 (List.ne_nil_of_mem hu))
      rw [h u hu x (hsig.2.1 x hx)]
      exact hx
    · simp at hs
  | get | has | set | step | spurious => trivial

/-- **Futures**: every call delivers the value, and in every run in which the signal of
`promise_set_value` wakes all that wait, nobody is left waiting. At most one thread that waits is
always woken. -/
theorem future_wakes (h : Reach next (fun _ _ => True) initial s) :
    Delivers s ∧ (Reach next WakesAll initial s → NoneLeft s) ∧
      ∀ t woken s', s.cnd.length ≤ 1 → next s (.signal t woken) = some s' →
        WakesAll s (.signal t woken) := by
  have hinv : Inv s := h.inv initial_inv fun _ _ _ ht _ => inv_step ht
  refine ⟨⟨fun t v ht => ?_, fun t v ht => ?_, hinv.order⟩, noneLeft,
    fun t woken s' hlen hs => OneWaits.wakesAll (fun u hu v hv => ?_) hs⟩
  · have := hinv.pcs t
    rw [ht] at this
    exact this.1
  · have := hinv.pcs t
    rw [ht] at this
    exact this.2 v rfl
  · obtain ⟨w, hw⟩ := List.length_eq_one_iff.mp (hlen.antisymm (List.length_pos_of_mem hu))
    rw [hw, List.mem_singleton] at hu hv
    rw [hu, hv]

/-- Two threads wait and a third sets the value; both wake. -/
theorem future_wakes_two : ∃ s, Reach next WakesAll initial s ∧ s.returned = true ∧
    s.pcs 1 = .got (some 5) ∧ Delivers s ∧ NoneLeft s := by
  obtain ⟨s, hs, hp⟩ := exists_reach next WakesAll initial
    (fun s => decide (s.returned = true) && decide (s.pcs 1 = .got (some 5)))
    [.get 1 true, .step 1, .step 1, .get 2 false, .step 2, .step 2, .set 3 5, .step 3, .step 3,
      .step 3, .signal 3 [1, 2], .step 3, .step 1, .step 1, .step 1, .step 1] (by decide +kernel)
  simp only [Bool.and_eq_true, decide_eq_true_eq] at hp
  obtain ⟨h1, h2, -⟩ := future_wakes (hs.mono fun _ _ _ => trivial)
  exact ⟨s, hs, hp.1, hp.2, h1, h2 hs⟩

/-- In every run in which at most one thread waits at the signal, nobody is left waiting. -/
theorem none_left_of_one_waits (h : Reach next OneWaits initial s) : NoneLeft s :=
  noneLeft (h.inv (I := Reach next WakesAll initial) .refl
    fun _ _ _ ht ha hu => ht.step (ha.wakesAll hu) hu)

lemma signal_returns {woken : List ℕ} (hs : next s (.signal t woken) = some s') :
    ∃ x, next s' (.step t) = some x ∧ x.returned = true ∧ x.cnd = s.cnd.filter (· ∉ woken) := by
  simp only [next] at hs
  split at hs
  · obtain rfl := by simpa using hs
    refine ⟨unlock { { s with cnd := s.cnd.filter (· ∉ woken) }.go t .setUnlock with
      returned := true } t .idle, ?_, rfl, rfl⟩
    simp [next, threadStep]
  · simp at hs

/-- Where `promise_set_value` is about to signal, it leaves nobody waiting, whomever it wakes, if
and only if at most one thread waits. -/
theorem none_left_iff (hsig : s.pcs t = .setSignal) :
    (∀ woken s₁ s₂, next s (.signal t woken) = some s₁ → next s₁ (.step t) = some s₂ →
      NoneLeft s₂) ↔ OneWaits s (.signal t []) := by
  constructor
  · intro hall u hu v hv
    by_contra hne
    -- it may wake `u` only
    obtain ⟨s₁, h₁⟩ : ∃ s₁, next s (.signal t [u]) = some s₁ :=
      ⟨_, if_pos ⟨hsig, by simpa using hu, by simp⟩⟩
    obtain ⟨s₂, h₂, hret, hcnd⟩ := signal_returns h₁
    have hleft : v ∈ s.cnd.filter (· ∉ [u]) := by simpa [hv] using Ne.symm hne
    rw [← hcnd, hall [u] s₁ s₂ h₁ h₂ hret] at hleft
    simp at hleft
  · intro hone woken s₁ s₂ h₁ h₂ _
    have hwakes : ∀ u ∈ s.cnd, u ∈ woken := OneWaits.wakesAll (a := .signal t woken) hone h₁
    obtain ⟨x, hx, -, hcnd⟩ := signal_returns h₁
    obtain rfl := Option.some.inj (h₂.symm.trans hx)
    rw [hcnd]
    exact List.filter_eq_nil_iff.mpr fun u hu => by simpa using hwakes u hu

/-- Two threads wait and the signal wakes one of them: the other one is left in the wait set. -/
theorem future_waiter_left : ¬ ∀ s, Reach next (fun _ _ => True) initial s →
    Delivers s ∧ NoneLeft s := by
  intro hall
  obtain ⟨s, hs, hp⟩ := exists_reach next (fun _ _ => True) initial
    (fun s => decide (s.returned = true ∧ s.cnd = [2]))
    [.get 1 true, .step 1, .step 1, .get 2 true, .step 2, .step 2, .set 3 5, .step 3, .step 3,
      .step 3, .signal 3 [1], .step 3] (by decide +kernel)
  obtain ⟨hret, hcnd⟩ := of_decide_eq_true hp
  rw [(hall s hs).2 hret] at hcnd
  simp at hcnd

end CoopTasks.Future
