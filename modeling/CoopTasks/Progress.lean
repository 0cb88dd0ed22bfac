import CoopTasks.Linearize
import Mathlib.Algebra.GroupWithZero.Nat
import Mathlib.Algebra.Order.BigOperators.Group.Finset

/-!
Machines whose threads get in each other's way, and how often.

A thread that is let alone makes a bounded number of steps. One that is disturbed may have to begin
again, but only a step that wins disturbs the others, and each call brings only so many of these.
So the steps of a run are bounded by the calls made in it, and these by the returns, however the
threads interleave.
-/

namespace CoopTasks.Progress

open CoopTasks.Machine CoopTasks.Linearize

variable {σ ℓ T O R A : Type*}

/-! ### Potentials -/

lemma trace_pays {next : σ → ℓ → Option σ} {ok : σ → ℓ → Prop} {s₀ s : σ} {ls : List (σ × ℓ)}
    (k : ℕ) (cost credit : σ × ℓ → ℕ) (fund : List (σ × ℓ) → σ → ℕ)
    (hstep : ∀ ls s l u, Trace next ok s₀ ls s → ok s l → next s l = some u →
      cost (s, l) + fund ((s, l) :: ls) u ≤ k * credit (s, l) + fund ls s)
    (h : Trace next ok s₀ ls s) :
    (ls.map cost).sum + fund ls s ≤ k * (ls.map credit).sum + fund [] s₀ := by
  induction h with
  | refl => simp
  | step h hok hn ih =>
    have hpay := hstep _ _ _ _ h hok hn
    rw [List.map_cons, List.sum_cons, List.map_cons, List.sum_cons, Nat.mul_add]
    omega

lemma sum_toNat {α : Type*} {f : α → Bool} {l : List α} :
    (l.map fun x => (f x).toNat).sum = l.countP f := by
  induction l with
  | nil => rfl
  | cons x l ih =>
    rw [List.map_cons, List.sum_cons, ih, List.countP_cons]
    cases f x <;> simp [Nat.add_comm]

lemma exists_forall_mem {α : Type*} {p : ℕ → α → Prop}
    (hmono : ∀ {j k x}, j ≤ k → p j x → p k x) (hone : ∀ x, ∃ k, p k x) (l : List α) :
    ∃ k, ∀ x ∈ l, p k x := by
  induction l with
  | nil => exact ⟨0, by simp⟩
  | cons x l ih =>
    obtain ⟨j, hj⟩ := hone x
    obtain ⟨k, hk⟩ := ih
    refine ⟨max j k, List.forall_mem_cons.mpr ⟨hmono (le_max_left ..) hj, fun y hy => ?_⟩⟩
    exact hmono (le_max_right ..) (hk y hy)

/-! ### Threads -/

section Toil

variable {parties : Finset T} {b k w w' cost credit : ℕ} {left left' : T → ℕ} {t : T}

/-- The steps that the threads may still make: each makes those it has left, at most `b`, and all of
them begin again with each step that wins. -/
def toil (parties : Finset T) (b w : ℕ) (left : T → ℕ) : ℕ :=
  (parties.card * b + 1) * w + ∑ t ∈ parties, left t

/-- What a call, and a step that fails for no reason, may add to that. -/
def charge (parties : Finset T) (b k : ℕ) : ℕ := (parties.card * b + 1) * k + b + 1

/-- A move is a step that brings its thread on, one that wins, one that fails for no reason, a call,
or none of these. -/
inductive Works (parties : Finset T) (b k w w' : ℕ) (left left' : T → ℕ) : ℕ → ℕ → Prop
  | on (t : T) (ht : t ∈ parties) (hw : w' ≤ w) (hself : left' t < left t)
    (hothers : ∀ q, q ≠ t → left' q ≤ left q) : Works parties b k w w' left left' 1 0
  | win {credit : ℕ} (hw : w' < w) (hleft : ∀ q, left' q ≤ b) :
    Works parties b k w w' left left' 1 credit
  | fail (t : T) (hw : w' ≤ w) (hself : left' t ≤ b) (hothers : ∀ q, q ≠ t → left' q ≤ left q) :
    Works parties b k w w' left left' 1 1
  | call (t : T) (hw : w' ≤ w + k) (hself : left' t ≤ b)
    (hothers : ∀ q, q ≠ t → left' q ≤ left q) : Works parties b k w w' left left' 0 1
  | rest (hw : w' ≤ w) (hleft : ∀ q, left' q ≤ left q) : Works parties b k w w' left left' 0 0

lemma sum_left_le (parties : Finset T) (hself : left' t ≤ b)
    (hothers : ∀ q, q ≠ t → left' q ≤ left q) :
    ∑ q ∈ parties, left' q ≤ ∑ q ∈ parties, left q + b := by
  classical
  by_cases ht : t ∈ parties
  · have hrest : ∑ q ∈ parties.erase t, left' q ≤ ∑ q ∈ parties.erase t, left q :=
      Finset.sum_le_sum fun q hq => hothers q (Finset.ne_of_mem_erase hq)
    have h' := Finset.add_sum_erase parties left' ht
    have h := Finset.add_sum_erase parties left ht
    omega
  · have hall : ∑ q ∈ parties, left' q ≤ ∑ q ∈ parties, left q := by
      refine Finset.sum_le_sum fun q hq => hothers q ?_
      rintro rfl
      exact ht hq
    omega

lemma sum_one (f f' : T → ℕ) (ht : t ∈ parties) (h : ∀ q, q ≠ t → f' q = f q) :
    ∑ q ∈ parties, f' q + f t = ∑ q ∈ parties, f q + f' t := by
  classical
  have hrest : ∑ q ∈ parties.erase t, f' q = ∑ q ∈ parties.erase t, f q :=
    Finset.sum_congr rfl fun q hq => h q (Finset.ne_of_mem_erase hq)
  have h' := Finset.add_sum_erase parties f' ht
  have h₀ := Finset.add_sum_erase parties f ht
  omega

lemma Works.toil_le (h : Works parties b k w w' left left' cost credit) :
    cost + toil parties b w' left' ≤ charge parties b k * credit + toil parties b w left := by
  unfold toil charge
  cases h with
  | on t ht hw hself hothers =>
    have hsum : ∑ q ∈ parties, left' q < ∑ q ∈ parties, left q := by
      refine Finset.sum_lt_sum (fun q _ => ?_) ⟨t, ht, hself⟩
      by_cases hq : q = t
      · subst hq
        exact hself.le
      · exact hothers q hq
    have hmul := Nat.mul_le_mul_left (parties.card * b + 1) hw
    omega
  | win hw hleft =>
    have hsum : ∑ q ∈ parties, left' q ≤ parties.card * b :=
      Finset.sum_le_card_nsmul parties left' b fun q _ => hleft q
    have hmul := Nat.mul_le_mul_left (parties.card * b + 1) (Nat.succ_le_of_lt hw)
    rw [Nat.mul_succ] at hmul
    omega
  | fail t hw hself hothers =>
    have hsum := sum_left_le parties hself hothers
    have hmul := Nat.mul_le_mul_left (parties.card * b + 1) hw
    omega
  | call t hw hself hothers =>
    have hsum := sum_left_le parties hself hothers
    have hmul := Nat.mul_le_mul_left (parties.card * b + 1) hw
    rw [Nat.mul_add] at hmul
    omega
  | rest hw hleft =>
    have hsum : ∑ q ∈ parties, left' q ≤ ∑ q ∈ parties, left q :=
      Finset.sum_le_sum fun q _ => hleft q
    have hmul := Nat.mul_le_mul_left (parties.card * b + 1) hw
    omega

end Toil

/-! ### Calls and returns -/

def Event.isCall : Event T O R → Bool
  | .call _ _ => true
  | .ret _ _ => false

def Event.isRet : Event T O R → Bool
  | .call _ _ => false
  | .ret _ _ => true

section Serving

variable {M : Serving σ ℓ T O R A} {spec : A → O → R → A → Prop} {ls : List (σ × ℓ)} {s u s₀ : σ}
  {l : ℓ} {t : T} {parties : Finset T} {ok : σ → ℓ → Prop} {p : Event T O R → Bool}

lemma countP_history :
    (M.history ls).countP p = (ls.map fun x => (M.events x.1 x.2).countP p).sum := by
  induction ls with
  | nil => rfl
  | cons x ls ih =>
    rw [List.map_cons, List.sum_cons, ← ih]
    show (M.history ls ++ M.events x.1 x.2).countP p = _
    rw [List.countP_append]
    omega

open Classical in
/-- The threads that are in no call. -/
noncomputable def free (M : Serving σ ℓ T O R A) (parties : Finset T) (ls : List (σ × ℓ)) (s : σ) :
    Finset T :=
  parties.filter fun t => M.phase ls s t = .idle

lemma card_free_le : (free M parties ls s).card ≤ parties.card := by
  classical
  unfold free
  exact Finset.card_filter_le _ _

lemma free_same (h : ∀ q, M.phase ((s, l) :: ls) u q = .idle ↔ M.phase ls s q = .idle) :
    free M parties ((s, l) :: ls) u = free M parties ls s := by
  ext q
  simp [free, h q]

lemma card_free_call (ht : t ∈ parties) (hs : M.phase ls s t = .idle)
    (hu : M.phase ((s, l) :: ls) u t ≠ .idle)
    (hothers : ∀ q, q ≠ t → M.phase ((s, l) :: ls) u q = M.phase ls s q) :
    (free M parties ((s, l) :: ls) u).card + 1 = (free M parties ls s).card := by
  classical
  have hmem : t ∉ free M parties ((s, l) :: ls) u := by simp [free, hu]
  rw [← Finset.card_insert_of_notMem hmem]
  congr 1
  ext q
  by_cases hq : q = t
  · subst hq
    simp [free, ht, hs]
  · simp [free, hq, hothers q hq]

lemma card_free_ret (hothers : ∀ q, q ≠ t → M.phase ((s, l) :: ls) u q = M.phase ls s q) :
    (free M parties ((s, l) :: ls) u).card ≤ (free M parties ls s).card + 1 := by
  classical
  refine (Finset.card_le_card fun q hq => ?_).trans (Finset.card_insert_le t _)
  by_cases hqt : q = t
  · subst hqt
    exact Finset.mem_insert_self ..
  · refine Finset.mem_insert_of_mem ?_
    simpa [free, hothers q hqt] using hq

/-- **No more calls than returns**, but for the calls in progress, one for each thread. -/
theorem calls_le_returns (hturn : ∀ ls s l u, Trace M.next ok s₀ ls s → ok s l →
      M.next s l = some u → M.Turns spec ls s l u)
    (hcall : ∀ s l, ok s l → ∀ t op, .call t op ∈ M.events s l → t ∈ parties)
    (h : Trace M.next ok s₀ ls s) :
    (M.history ls).countP Event.isCall ≤ (M.history ls).countP Event.isRet + parties.card := by
  rw [countP_history, countP_history]
  have hpays := trace_pays 1 (fun x => (M.events x.1 x.2).countP Event.isCall)
    (fun x => (M.events x.1 x.2).countP Event.isRet)
    (fun ls s => (free M parties ls s).card) (fun ls s l u h hok hn => ?_) h
  · have hle : (free M parties [] s₀).card ≤ parties.card := card_free_le
    omega
  obtain ⟨t, hturn, hothers⟩ := hturn ls s l u h hok hn
  have hmem := hcall s l hok
  have hsame : (M.phase ((s, l) :: ls) u t = .idle ↔ M.phase ls s t = .idle) →
      (free M parties ((s, l) :: ls) u).card = (free M parties ls s).card := fun ht => by
    refine congrArg Finset.card (free_same fun q => ?_)
    by_cases hq : q = t
    · rw [hq, ht]
    · rw [hothers q hq]
  have hret : (free M parties ((s, l) :: ls) u).card ≤ (free M parties ls s).card + 1 :=
    card_free_ret hothers
  generalize M.events s l = es at hturn hmem
  cases hturn with
  | stay h' => simp [hsame (by rw [h'])]
  | call op h h' =>
    have hcard := card_free_call (hmem t op (by simp)) h (by simp [h']) hothers
    simpa [Event.isCall, Event.isRet] using by omega
  | answer op r h h' => simp [hsame (by simp [h, h'])]
  | ret r | look op r | last op r => simpa [Event.isCall, Event.isRet] using by omega
  | once op r h h' =>
    have hcard := hsame (by simp [h, h'])
    simpa [Event.isCall, Event.isRet, List.countP_cons] using by omega

/-- **Steps are paid by returns**: in any run the threads make only so many steps for each call that
returns, and for each step that fails for no reason. -/
theorem steps_le_returns {b k : ℕ} (spec : A → O → R → A → Prop) (step fail : σ × ℓ → Bool)
    (wins : σ → ℕ) (left : σ → T → ℕ)
    (hturn : ∀ ls s l u, Trace M.next ok s₀ ls s → ok s l → M.next s l = some u →
      M.Turns spec ls s l u)
    (hcall : ∀ s l, ok s l → ∀ t op, .call t op ∈ M.events s l → t ∈ parties)
    (hworks : ∀ ls s l u, Trace M.next ok s₀ ls s → ok s l → M.next s l = some u →
      Works parties b k (wins s) (wins u) (left s) (left u) (step (s, l)).toNat
        ((M.events s l).countP Event.isCall + (fail (s, l)).toNat))
    (h : Trace M.next ok s₀ ls s) :
    ls.countP step ≤ charge parties b k *
      ((M.history ls).countP Event.isRet + ls.countP fail + parties.card) +
        toil parties b (wins s₀) (left s₀) := by
  have hcalls := calls_le_returns hturn hcall h
  have hpays := trace_pays (charge parties b k) (fun x => (step x).toNat)
    (fun x => (M.events x.1 x.2).countP Event.isCall + (fail x).toNat)
    (fun _ s => toil parties b (wins s) (left s))
    (fun ls s l u h hok hn => (hworks ls s l u h hok hn).toil_le) h
  rw [sum_toNat, List.sum_map_add, sum_toNat, ← countP_history] at hpays
  have hmul : charge parties b k * ((M.history ls).countP Event.isCall + ls.countP fail) ≤
      charge parties b k *
        ((M.history ls).countP Event.isRet + ls.countP fail + parties.card) :=
    Nat.mul_le_mul_left _ (by omega)
  omega

end Serving

end CoopTasks.Progress
