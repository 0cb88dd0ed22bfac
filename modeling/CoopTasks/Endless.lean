import CoopTasks.Progress
import Mathlib.Data.DFinsupp.WellFounded
import Mathlib.Data.Prod.Lex

/-!
Runs that go on for ever, and machines in which they return for ever.

A step that wins leaves fewer wins to come, and any other step brings its own thread closer to its
end and no other thread further away. Neither can go on for ever without a new call, and a thread
that calls again has returned.
-/

namespace CoopTasks.Endless

open CoopTasks.Machine CoopTasks.Linearize CoopTasks.Progress

variable {σ ℓ τ κ T O R A α : Type*} {next : σ → ℓ → Option σ} {ok : σ → ℓ → Prop} {w : ℕ → σ}
  {a : ℕ → ℓ}

/-- A run without end: its states and its labels. -/
structure Forever (next : σ → ℓ → Option σ) (ok : σ → ℓ → Prop) (w : ℕ → σ) (a : ℕ → ℓ) :
    Prop where
  ok : ∀ i, ok (w i) (a i)
  next : ∀ i, next (w i) (a i) = some (w (i + 1))

/-- The first moves, the last one first. -/
def movesTo (w : ℕ → σ) (a : ℕ → ℓ) : ℕ → List (σ × ℓ)
  | 0 => []
  | i + 1 => (w i, a i) :: movesTo w a i

lemma Forever.trace (h : Forever next ok w a) (i : ℕ) :
    Trace next ok (w 0) (movesTo w a i) (w i) := by
  induction i with
  | zero => exact .refl
  | succ i ih => exact ih.step (h.ok i) (h.next i)

/-- What comes first, and then the others. -/
def cons {α : Type*} (x : α) (f : ℕ → α) : ℕ → α
  | 0 => x
  | i + 1 => f i

lemma Forever.mono {ok' : σ → ℓ → Prop} (himp : ∀ s l, ok s l → ok' s l)
    (h : Forever next ok w a) : Forever next ok' w a :=
  ⟨fun i => himp _ _ (h.ok i), h.next⟩

lemma Forever.cons {s : σ} {l : ℓ} (h : Forever next ok w a) (hok : ok s l)
    (hn : next s l = some (w 0)) : Forever next ok (cons s w) (cons l a) where
  ok i := by
    cases i with
    | zero => exact hok
    | succ i => exact h.ok i
  next i := by
    cases i with
    | zero => exact hn
    | succ i => exact h.next i

/-- A run without end goes on from where another run has got. -/
lemma Forever.after {s t : σ} {ls : List (σ × ℓ)} (hls : Trace next ok s ls t)
    (h : Forever next ok w a) (ht : w 0 = t) :
    ∃ w' a', w' 0 = s ∧ Forever next ok w' a' ∧
      ∀ i, w' (i + ls.length) = w i ∧ a' (i + ls.length) = a i := by
  induction hls generalizing w a with
  | refl => exact ⟨w, a, ht, h, fun i => ⟨rfl, rfl⟩⟩
  | @step ls t u l hls hok hn ih =>
    obtain ⟨w', a', hs, hforever, hall⟩ := ih (h.cons hok (by rw [hn, ht])) rfl
    refine ⟨w', a', hs, hforever, fun i => ?_⟩
    rw [List.length_cons, ← Nat.succ_add_eq_add_succ]
    exact hall (i + 1)

lemma forever_cycle {n : ℕ} (hn : 0 < n) (hok : ∀ j < n, ok (w j) (a j))
    (hnext : ∀ j < n, next (w j) (a j) = some (w ((j + 1) % n))) :
    Forever next ok (fun i => w (i % n)) fun i => a (i % n) where
  ok i := hok _ (Nat.mod_lt i hn)
  next i := by
    rw [hnext _ (Nat.mod_lt i hn), Nat.mod_add_mod]

/-- **Simulation**: a machine whose moves another one can follow, wherever its own run has got, has
its endless runs followed as well. -/
theorem Forever.simulate {next' : τ → κ → Option τ} {ok' : τ → κ → Prop} {R : σ → τ → Prop}
    {Q : ℓ → κ → Prop} {v₀ : τ}
    (hstep : ∀ t l u ls' t', Trace next' ok' v₀ ls' t' → R t t' → ok t l → next t l = some u →
      ∃ l' u', ok' t' l' ∧ next' t' l' = some u' ∧ Q l l' ∧ R u u')
    (h₀ : R (w 0) v₀) (h : Forever next ok w a) :
    ∃ v b, v 0 = v₀ ∧ Forever next' ok' v b ∧
      ∀ i, Followed next next' R Q (w i, a i) (v i, b i) := by
  let At (i : ℕ) : Type _ := {t : τ // R (w i) t ∧ ∃ ls, Trace next' ok' v₀ ls t}
  have hgo : ∀ i, ∀ t : At i, ∃ l, ∃ u : At (i + 1), ok' t.1 l ∧ next' t.1 l = some u.1 ∧
      Q (a i) l := fun i t => by
    obtain ⟨t, hR, ls, htrace⟩ := t
    obtain ⟨l, u, hok, hn, hQ, hR'⟩ := hstep _ _ _ _ _ htrace hR (h.ok i) (h.next i)
    exact ⟨l, ⟨u, hR', _, htrace.step hok hn⟩, hok, hn, hQ⟩
  choose b v hv using hgo
  let states : ∀ i, At i := fun i => i.rec ⟨v₀, h₀, [], .refl⟩ v
  refine ⟨fun i => (states i).1, fun i => b i (states i), rfl,
    ⟨fun i => (hv i (states i)).1, fun i => (hv i (states i)).2.1⟩, fun i => ?_⟩
  obtain ⟨-, hn, hQ⟩ := hv i (states i)
  exact ⟨(states i).2.1, hQ, _, _, h.next i, hn, (states (i + 1)).2.1⟩

/-! ### What comes to an end -/

lemma exists_settled [Preorder α] [WellFoundedLT α] {f : ℕ → α} {n : ℕ}
    (h : ∀ i ≥ n, f (i + 1) ≤ f i) : ∃ m ≥ n, ∀ i ≥ m, ¬ f (i + 1) < f i := by
  obtain ⟨-, ⟨m, hm, rfl⟩, hmin⟩ :=
    wellFounded_lt.has_min (f '' Set.Ici n) ⟨f n, n, Set.self_mem_Ici, rfl⟩
  have hm : n ≤ m := hm
  have hle : ∀ i ≥ m, f i ≤ f m := fun i hi => by
    induction i, hi using Nat.le_induction with
    | base => exact le_rfl
    | succ i hi ih => exact (h i (hm.trans hi)).trans ih
  refine ⟨m, hm, fun i hi hlt => ?_⟩
  exact hmin _ ⟨i + 1, Set.mem_Ici.mpr (by omega), rfl⟩ (hlt.trans_le (hle i hi))

lemma exists_last {p : ℕ → Prop} (h : {i | p i}.Finite) : ∃ n, ∀ i ≥ n, ¬ p i := by
  obtain ⟨n, hn⟩ := h.bddAbove
  refine ⟨n + 1, fun i hi hp => ?_⟩
  have hle : i ≤ n := hn hp
  omega

/-! ### Threads -/

/-- A move wins, brings its thread on, or leaves everything as it is because its thread waits. -/
inductive Strives [Preorder α] (parties : Finset T) (w w' : ℕ) (left left' : T → α) (goes : Prop) :
    Prop
  | win (hw : w' < w)
  | on (t : T) (ht : t ∈ parties) (hw : w' ≤ w) (hself : left' t < left t)
    (hothers : ∀ q, q ≠ t → left' q ≤ left q)
  | wait (hstill : ¬ goes) (hw : w' ≤ w) (hleft : ∀ q, left' q ≤ left q)

section Strives

variable [Preorder α] {parties : Finset T} {m m' : ℕ} {left left' : T → α} {goes : Prop}

/-- The wins to come, and then how far the threads are from their ends. -/
def strife (parties : Finset T) (m : ℕ) (left : T → α) : ℕ ×ₗ (parties → α) :=
  toLex (m, fun t => left t)

lemma strife_le (hm : m' ≤ m) (hleft : ∀ q, left' q ≤ left q) :
    strife parties m' left' ≤ strife parties m left := by
  unfold strife
  rw [Prod.Lex.toLex_le_toLex]
  rcases hm.lt_or_eq with hlt | heq
  · exact .inl hlt
  · exact .inr ⟨heq, fun t => hleft t⟩

lemma Strives.le (h : Strives parties m m' left left' goes) :
    strife parties m' left' ≤ strife parties m left ∧
      (goes → strife parties m' left' < strife parties m left) := by
  have hlt : strife parties m' left' < strife parties m left →
      strife parties m' left' ≤ strife parties m left ∧
        (goes → strife parties m' left' < strife parties m left) := fun hlt =>
    ⟨hlt.le, fun _ => hlt⟩
  cases h with
  | win hm =>
    refine hlt ?_
    unfold strife
    rw [Prod.Lex.toLex_lt_toLex]
    exact .inl hm
  | on t ht hm hself hothers =>
    refine hlt ?_
    have hleft : ∀ q, left' q ≤ left q := fun q => by
      by_cases hq : q = t
      · subst hq
        exact hself.le
      · exact hothers q hq
    unfold strife
    rw [Prod.Lex.toLex_lt_toLex]
    rcases hm.lt_or_eq with hlt | heq
    · exact .inl hlt
    · exact .inr ⟨heq, Pi.lt_def.mpr ⟨fun q => hleft q, ⟨t, ht⟩, hself⟩⟩
  | wait hstill hm hleft => exact ⟨strife_le hm hleft, fun hgoes => absurd hgoes hstill⟩

end Strives

/-! ### Calls and returns -/

variable {M : Serving σ ℓ T O R A} {parties : Finset T} {p : Event T O R → Bool}

lemma countP_movesTo (i : ℕ) : (M.history (movesTo w a (i + 1))).countP p =
    (M.history (movesTo w a i)).countP p + (M.events (w i) (a i)).countP p :=
  List.countP_append

/-- When the returns have come to an end, the calls do. -/
lemma calls_end (spec : A → O → R → A → Prop)
    (hturn : ∀ ls s l u, Trace M.next ok (w 0) ls s → ok s l → M.next s l = some u →
      M.Turns spec ls s l u)
    (hcall : ∀ s l, ok s l → ∀ t op, .call t op ∈ M.events s l → t ∈ parties)
    (h : Forever M.next ok w a) {n : ℕ} (hn : ∀ i ≥ n, ¬ ∃ t r, .ret t r ∈ M.events (w i) (a i)) :
    ∃ m ≥ n, ∀ i ≥ m, ∀ t op, .call t op ∉ M.events (w i) (a i) := by
  let calls (i : ℕ) : ℕ := (M.history (movesTo w a i)).countP Event.isCall
  let rets (i : ℕ) : ℕ := (M.history (movesTo w a i)).countP Event.isRet
  have hrets : ∀ i ≥ n, rets i = rets n := fun i hi => by
    induction i, hi using Nat.le_induction with
    | base => rfl
    | succ i hi ih =>
      have hnone : (M.events (w i) (a i)).countP Event.isRet = 0 := by
        refine List.countP_eq_zero.mpr fun e he hret => ?_
        cases e with
        | call t op => cases hret
        | ret t r => exact hn i hi ⟨t, r, he⟩
      show (M.history (movesTo w a (i + 1))).countP Event.isRet = _
      rw [countP_movesTo, hnone]
      exact ih
  have hle : ∀ i ≥ n, calls i ≤ rets n + parties.card := fun i hi => by
    rw [← hrets i hi]
    exact calls_le_returns hturn hcall (h.trace i)
  have hgrow : ∀ i, calls (i + 1) = calls i + (M.events (w i) (a i)).countP Event.isCall :=
    fun i => countP_movesTo i
  obtain ⟨m, hm, hset⟩ := exists_settled (f := fun i => rets n + parties.card - calls i) (n := n)
    fun i hi => by
      have := hgrow i
      show _ - calls (i + 1) ≤ _ - calls i
      omega
  refine ⟨m, hm, fun i hi t op hmem => ?_⟩
  have hpos : 0 < (M.events (w i) (a i)).countP Event.isCall :=
    List.countP_pos_iff.mpr ⟨_, hmem, rfl⟩
  have hstill : ¬ rets n + parties.card - calls (i + 1) < rets n + parties.card - calls i :=
    hset i hi
  have hlast := hle (i + 1) (by omega)
  have := hgrow i
  omega

/-- **Lock-freedom**: in an endless run calls return again and again, if again and again some thread
makes a step that does not wait, and only so many steps fail for no reason. -/
theorem Forever.returns [Preorder α] [WellFoundedLT α] (parties : Finset T)
    (spec : A → O → R → A → Prop) (goes fails : σ → ℓ → Prop) (wins : σ → ℕ)
    (left : σ → T → α)
    (hturn : ∀ ls s l u, Trace M.next ok (w 0) ls s → ok s l → M.next s l = some u →
      M.Turns spec ls s l u)
    (hcall : ∀ s l, ok s l → ∀ t op, .call t op ∈ M.events s l → t ∈ parties)
    (hstrives : ∀ ls s l u, Trace M.next ok (w 0) ls s → ok s l → M.next s l = some u →
      (∀ t op, .call t op ∉ M.events s l) → ¬ fails s l →
        Strives parties (wins s) (wins u) (left s) (left u) (goes s l))
    (h : Forever M.next ok w a) (hfails : {i | fails (w i) (a i)}.Finite)
    (hgoes : {i | goes (w i) (a i)}.Infinite) :
    {i | ∃ t r, .ret t r ∈ M.events (w i) (a i)}.Infinite := by
  intro hrets
  obtain ⟨n₀, hnone⟩ := exists_last hrets
  obtain ⟨n₁, hsound⟩ := exists_last hfails
  obtain ⟨m, hm, hquiet⟩ := calls_end spec hturn hcall h hnone
  let rank (i : ℕ) := strife parties (wins (w i)) (left (w i))
  have hdrop : ∀ i ≥ m + n₁, rank (i + 1) ≤ rank i ∧
      (goes (w i) (a i) → rank (i + 1) < rank i) := fun i hi =>
    (hstrives _ _ _ _ (h.trace i) (h.ok i) (h.next i) (hquiet i (by omega))
      (hsound i (by omega))).le
  obtain ⟨k, hk, hset⟩ := exists_settled fun i hi => (hdrop i hi).1
  refine hgoes (Set.Finite.subset (Set.finite_Iio k) fun i hi => ?_)
  by_contra hlt
  have hki : k ≤ i := by simpa using hlt
  exact hset i hki ((hdrop i (by omega)).2 hi)

end CoopTasks.Endless
