import Mathlib.Logic.Function.Basic
import Mathlib.Order.WellFounded
import Mathlib.Tactic.Common

/-!
Machines moved by labels, and what holds along their runs.

A label says who moves and how, and a schedule is a list of labels. `Reach next ok s`
collects the states reached from `s` by moves that all meet `ok`: a property is shown to
survive one move, and then holds in every state reached.
-/

namespace CoopTasks.Machine

variable {σ ℓ : Type*} (next : σ → ℓ → Option σ)

/-- Run a schedule, stopping at a move that is not enabled or does not meet `ok`. -/
def runIf (ok : σ → ℓ → Prop) [∀ s l, Decidable (ok s l)] : σ → List ℓ → Option σ
  | s, [] => some s
  | s, l :: ls => if ok s l then (next s l).bind fun t => runIf ok t ls else none

/-- Run a schedule without any condition on its moves. -/
abbrev run : σ → List ℓ → Option σ := runIf next fun _ _ => True

inductive Reach (ok : σ → ℓ → Prop) (s : σ) : σ → Prop
  | refl : Reach ok s s
  | step {t u : σ} {l : ℓ} (h : Reach ok s t) (hok : ok t l) (hn : next t l = some u) :
      Reach ok s u

variable {next} {ok : σ → ℓ → Prop} {s t u : σ}

/-- A property that holds at the start and survives every move holds wherever a run gets. -/
theorem Reach.inv {I : σ → Prop} (h0 : I s)
    (hstep : ∀ t l u, I t → ok t l → next t l = some u → I u) (h : Reach next ok s t) : I t := by
  induction h with
  | refl => exact h0
  | step _ hok hn ih => exact hstep _ _ _ ih hok hn

lemma Reach.trans (h : Reach next ok s t) (h' : Reach next ok t u) : Reach next ok s u := by
  induction h' with
  | refl => exact h
  | step _ hok hn ih => exact ih.step hok hn

lemma Reach.mono {ok' : σ → ℓ → Prop} (himp : ∀ s l, ok s l → ok' s l)
    (h : Reach next ok s t) : Reach next ok' s t := by
  induction h with
  | refl => exact .refl
  | step _ hok hn ih => exact ih.step (himp _ _ hok) hn

lemma reach_of_runIf [∀ s l, Decidable (ok s l)] {ls : List ℓ}
    (h : runIf next ok s ls = some t) : Reach next ok s t := by
  induction ls generalizing s with
  | nil => cases h; exact .refl
  | cons l ls ih =>
    rw [runIf] at h
    split at h
    · rename_i hl
      obtain ⟨u, hu, hrest⟩ := Option.bind_eq_some_iff.mp h
      exact (Reach.refl.step hl hu).trans (ih hrest)
    · simp at h

lemma reach_of_run {ls : List ℓ} (h : run next s ls = some t) :
    Reach next (fun _ _ => True) s t :=
  reach_of_runIf h

lemma exists_reach (next : σ → ℓ → Option σ) (ok : σ → ℓ → Prop) [∀ s l, Decidable (ok s l)]
    (s : σ) (p : σ → Bool) (ls : List ℓ) (h : (runIf next ok s ls).any p = true) :
    ∃ t, Reach next ok s t ∧ p t = true := by
  obtain ⟨t, ht, hp⟩ := (Option.any_eq_true p _).mp h
  exact ⟨t, reach_of_runIf ht, hp⟩

/-! ### The moves of a run -/

/-- A run and its moves, the last one first, each with the state it was made in. -/
inductive Trace (next : σ → ℓ → Option σ) (ok : σ → ℓ → Prop) (s : σ) : List (σ × ℓ) → σ → Prop
  | refl : Trace next ok s [] s
  | step {ls : List (σ × ℓ)} {t u : σ} {l : ℓ} (h : Trace next ok s ls t) (hok : ok t l)
      (hn : next t l = some u) : Trace next ok s ((t, l) :: ls) u

/-- A property of the moves made and of the state reached that every further move keeps. -/
theorem Trace.inv {I : List (σ × ℓ) → σ → Prop} {ls : List (σ × ℓ)} (h0 : I [] s)
    (hstep : ∀ ls t l u, I ls t → ok t l → next t l = some u → I ((t, l) :: ls) u)
    (h : Trace next ok s ls t) : I ls t := by
  induction h with
  | refl => exact h0
  | step _ hok hn ih => exact hstep _ _ _ _ ih hok hn

lemma Trace.trans {ls ls' : List (σ × ℓ)} (h : Trace next ok s ls t)
    (h' : Trace next ok t ls' u) : Trace next ok s (ls' ++ ls) u := by
  induction h' with
  | refl => exact h
  | step _ hok hn ih => exact ih.step hok hn

lemma Trace.mono {ok' : σ → ℓ → Prop} {ls : List (σ × ℓ)} (himp : ∀ s l, ok s l → ok' s l)
    (h : Trace next ok s ls t) : Trace next ok' s ls t := by
  induction h with
  | refl => exact .refl
  | step _ hok hn ih => exact ih.step (himp _ _ hok) hn

lemma Trace.all {ls : List (σ × ℓ)} (h : Trace next ok s ls t) : ∀ x ∈ ls, ok x.1 x.2 := by
  induction h with
  | refl => simp
  | step _ hok _ ih => simpa using ⟨hok, fun s l => ih (s, l)⟩

lemma Trace.and {ok' : σ → ℓ → Prop} {ls : List (σ × ℓ)} (h : Trace next ok s ls t)
    (h' : ∀ x ∈ ls, ok' x.1 x.2) : Trace next (fun s l => ok s l ∧ ok' s l) s ls t := by
  induction h with
  | refl => exact .refl
  | step _ hok hn ih =>
    obtain ⟨hlast, hrest⟩ := List.forall_mem_cons.mp h'
    exact (ih hrest).step ⟨hok, hlast⟩ hn

lemma trace_of_runIf [∀ s l, Decidable (ok s l)] {as : List ℓ} (h : runIf next ok s as = some t) :
    ∃ ls, Trace next ok s ls t ∧ ls.map Prod.snd = as.reverse := by
  induction as generalizing s with
  | nil =>
    cases h
    exact ⟨[], .refl, rfl⟩
  | cons a as ih =>
    rw [runIf] at h
    split at h
    · rename_i ha
      obtain ⟨u, hu, hrest⟩ := Option.bind_eq_some_iff.mp h
      obtain ⟨ls, hls, hlabels⟩ := ih hrest
      exact ⟨ls ++ [(s, a)], (Trace.refl.step ha hu).trans hls, by simp [hlabels]⟩
    · simp at h

lemma exists_trace (next : σ → ℓ → Option σ) (ok : σ → ℓ → Prop) [∀ s l, Decidable (ok s l)]
    (s : σ) (p : σ → Bool) (as : List ℓ) (h : (runIf next ok s as).any p = true) :
    ∃ ls t, Trace next ok s ls t ∧ ls.map Prod.snd = as.reverse ∧ p t = true := by
  obtain ⟨t, ht, hp⟩ := (Option.any_eq_true p _).mp h
  obtain ⟨ls, hls, hlabels⟩ := trace_of_runIf ht
  exact ⟨ls, t, hls, hlabels, hp⟩

/-- Run a schedule and keep its moves, the last one first. -/
def movesIf (next : σ → ℓ → Option σ) (ok : σ → ℓ → Prop) [∀ s l, Decidable (ok s l)] :
    List (σ × ℓ) → σ → List ℓ → Option (List (σ × ℓ) × σ)
  | ms, s, [] => some (ms, s)
  | ms, s, l :: ls =>
    if ok s l then (next s l).bind fun t => movesIf next ok ((s, l) :: ms) t ls else none

lemma trace_of_movesIf [∀ s l, Decidable (ok s l)] {ms ms' : List (σ × ℓ)} {ls : List ℓ}
    (h₀ : Trace next ok s ms t) (h : movesIf next ok ms t ls = some (ms', u)) :
    Trace next ok s ms' u := by
  induction ls generalizing ms t with
  | nil =>
    obtain ⟨rfl, rfl⟩ := by simpa [movesIf] using h
    exact h₀
  | cons l ls ih =>
    rw [movesIf] at h
    split at h
    · rename_i hl
      obtain ⟨v, hv, hrest⟩ := Option.bind_eq_some_iff.mp h
      exact ih (h₀.step hl hv) hrest
    · simp at h

lemma exists_moves (next : σ → ℓ → Option σ) (ok : σ → ℓ → Prop) [∀ s l, Decidable (ok s l)]
    (s : σ) (p : List (σ × ℓ) → σ → Bool) (ls : List ℓ)
    (h : (movesIf next ok [] s ls).any (fun x => p x.1 x.2) = true) :
    ∃ ms t, Trace next ok s ms t ∧ p ms t = true := by
  obtain ⟨⟨ms, t⟩, ht, hp⟩ := (Option.any_eq_true _ _).mp h
  exact ⟨ms, t, trace_of_movesIf .refl ht, hp⟩

/-- A move that another machine follows: from related states, with related labels, to related
states. -/
structure Followed {τ κ : Type*} (next : σ → ℓ → Option σ) (next' : τ → κ → Option τ)
    (R : σ → τ → Prop) (A : ℓ → κ → Prop) (x : σ × ℓ) (x' : τ × κ) : Prop where
  state : R x.1 x'.1
  label : A x.2 x'.2
  next : ∃ t t', next x.1 x.2 = some t ∧ next' x'.1 x'.2 = some t' ∧ R t t'

/-- **Simulation**: a machine whose moves another one can follow, wherever its own run has got, has
each of its runs followed. -/
theorem Trace.simulate {τ κ : Type*} {next' : τ → κ → Option τ} {ok' : τ → κ → Prop}
    {R : σ → τ → Prop} {A : ℓ → κ → Prop} {s' : τ} {ls : List (σ × ℓ)}
    (hstep : ∀ t l u ls' t', Trace next' ok' s' ls' t' → R t t' → ok t l → next t l = some u →
      ∃ l' u', ok' t' l' ∧ next' t' l' = some u' ∧ A l l' ∧ R u u')
    (hs : R s s') (h : Trace next ok s ls t) :
    ∃ ls' t', Trace next' ok' s' ls' t' ∧ R t t' ∧
      List.Forall₂ (Followed next next' R A) ls ls' := by
  induction h with
  | refl => exact ⟨[], s', .refl, hs, .nil⟩
  | step _ hok hn ih =>
    obtain ⟨ls', t', htrace, hR, hall⟩ := ih
    obtain ⟨l', u', hok', hn', hA, hR'⟩ := hstep _ _ _ _ _ htrace hR hok hn
    exact ⟨(t', l') :: ls', u', htrace.step hok' hn', hR', .cons ⟨hR, hA, _, _, hn, hn', hR'⟩ hall⟩

/-! ### One call that runs alone -/

variable {ρ : Type*} {step : σ → Bool → Option σ} {done : σ → Option ρ}

/-- Step until the call is done, for at most `fuel` steps; `weak` says which of the steps fail
spuriously if they can. -/
def runAlone (step : σ → Bool → Option σ) (done : σ → Option ρ) :
    ℕ → List Bool → σ → Option (σ × ρ)
  | fuel, weak, s =>
    match done s, fuel with
    | some r, _ => some (s, r)
    | none, 0 => none
    | none, fuel + 1 => (step s (weak.headD false)).bind (runAlone step done fuel weak.tail)

lemma runAlone_done {r : ρ} (h : done s = some r) (fuel : ℕ) (weak : List Bool) :
    runAlone step done fuel weak s = some (s, r) := by
  unfold runAlone
  rw [h]

lemma runAlone_step {weak : List Bool} {x : σ × ρ} {n : ℕ} (hdone : done s = none)
    (hs : step s (weak.headD false) = some t)
    (h : ∀ fuel ≥ n, runAlone step done fuel weak.tail t = some x) :
    ∀ fuel ≥ n + 1, runAlone step done fuel weak s = some x := by
  intro fuel hfuel
  obtain ⟨k, rfl⟩ : ∃ k, fuel = k + 1 := ⟨fuel - 1, by omega⟩
  unfold runAlone
  rw [hdone]
  simp only [hs, Option.bind_some]
  exact h k (by omega)

lemma runAlone_map {τ : Type*} {step' : τ → Bool → Option τ} {done' : τ → Option ρ} (f : σ → τ)
    (hstep : ∀ s weak, step' (f s) weak = (step s weak).map f) (hdone : ∀ s, done' (f s) = done s)
    (fuel : ℕ) (weak : List Bool) :
    runAlone step' done' fuel weak (f s) =
      (runAlone step done fuel weak s).map fun x => (f x.1, x.2) := by
  induction fuel generalizing s weak with
  | zero =>
    unfold runAlone
    rw [hdone]
    cases done s <;> rfl
  | succ fuel ih =>
    unfold runAlone
    rw [hdone]
    cases done s with
    | some r => rfl
    | none =>
      simp only [hstep]
      cases step s (weak.headD false) with
      | none => rfl
      | some t => exact ih weak.tail

/-- **Termination**: a call whose steps are possible, and come closer to the end when nothing
fails spuriously, comes to its end whatever finite pattern of failures it meets. -/
theorem runAlone_returns {α : Type*} [Preorder α] [WellFoundedLT α] {I : σ → Prop} (rank : σ → α)
    (hstep : ∀ s weak, I s → done s = none →
      ∃ t, step s weak = some t ∧ I t ∧ (weak = false → rank t < rank s))
    (weak : List Bool) (hI : I s) :
    ∃ n t r, (∀ fuel ≥ n, runAlone step done fuel weak s = some (t, r)) ∧ I t ∧
      done t = some r := by
  have hend : ∀ {s r} weak, I s → done s = some r →
      ∃ n t r, (∀ fuel ≥ n, runAlone step done fuel weak s = some (t, r)) ∧ I t ∧
        done t = some r :=
    fun weak hI hr => ⟨0, _, _, fun fuel _ => runAlone_done hr fuel weak, hI, hr⟩
  induction weak generalizing s with
  | nil =>
    induction hk : rank s using WellFoundedLT.induction generalizing s with
    | ind k ih =>
      cases hdone : done s with
      | some r => exact hend [] hI hdone
      | none =>
        obtain ⟨t, hs, ht, hrank⟩ := hstep s false hI hdone
        obtain ⟨n, u, r, hrun, hrest⟩ := ih _ (hk ▸ hrank rfl) ht rfl
        exact ⟨n + 1, u, r, runAlone_step hdone hs hrun, hrest⟩
  | cons b weak ih =>
    cases hdone : done s with
    | some r => exact hend (b :: weak) hI hdone
    | none =>
      obtain ⟨t, hs, ht, -⟩ := hstep s b hI hdone
      obtain ⟨n, u, r, hrun, hrest⟩ := ih ht
      exact ⟨n + 1, u, r, runAlone_step hdone hs hrun, hrest⟩

/-- **Divergence**: a call whose steps keep an invariant under which it is not done never ends. -/
theorem runAlone_diverges {I : σ → Prop} (hdone : ∀ s, I s → done s = none)
    (hstep : ∀ s weak t, I s → step s weak = some t → I t) (hI : I s) (fuel : ℕ)
    (weak : List Bool) : runAlone step done fuel weak s = none := by
  induction fuel generalizing s weak with
  | zero => simp [runAlone, hdone s hI]
  | succ fuel ih =>
    unfold runAlone
    rw [hdone s hI]
    cases hs : step s (weak.headD false) with
    | none => simp
    | some t =>
      simp only [Option.bind_some]
      exact ih (hstep s _ t hI hs) weak.tail

/-! ### What a call ensures -/

/-- Steps that lead to `Q`, with `P` on the way, even if up to `k` of them fail spuriously where
`may` lets them. -/
inductive Ensures (step : σ → Bool → Option σ) (may P Q : σ → Prop) : ℕ → σ → Prop
  | done {k : ℕ} {s : σ} (h : Q s) : Ensures step may P Q k s
  | step {k : ℕ} {s t : σ} (h : P s) (hs : step s false = some t) (ht : Ensures step may P Q k t)
      (hweak : ∀ j < k, ∀ u, may s → step s true = some u → Ensures step may P Q j u) :
      Ensures step may P Q k s

variable {may P Q Q' : σ → Prop} {j k : ℕ}

lemma Ensures.mono (h : Ensures step may P Q k s) (hjk : j ≤ k) : Ensures step may P Q j s := by
  induction h generalizing j with
  | done h => exact .done h
  | step h hs _ hweak ih => exact .step h hs (ih hjk) fun i hi => hweak i (by omega)

lemma Ensures.bind (h : Ensures step may P Q k s) (hQ : ∀ t, Q t → Ensures step may P Q' k t) :
    Ensures step may P Q' k s := by
  induction h with
  | done h => exact hQ _ h
  | step h hs _ _ ih ihweak =>
    refine .step h hs (ih hQ) fun i hi u hmay hu => ?_
    exact ihweak i hi u hmay hu fun t ht => (hQ t ht).mono hi.le

/-- What leads to `Q` with any number of failures stands at `Q`, or at a state with the property
from which every step leads to `Q`. -/
lemma Ensures.step_all (h : ∀ k, Ensures step may P Q k s) :
    Q s ∨ P s ∧ ∀ weak t, (weak = true → may s) → step s weak = some t →
      ∀ k, Ensures step may P Q k t := by
  by_cases hQ : Q s
  · exact .inl hQ
  refine .inr ⟨?_, fun weak t hmay ht k => ?_⟩
  · cases h 0 with
    | done h => exact absurd h hQ
    | step h => exact h
  · cases h (k + 1) with
    | done h => exact absurd h hQ
    | step _ hs hk hweak =>
      cases weak with
      | false =>
        obtain rfl := Option.some.inj (hs.symm.trans ht)
        exact hk.mono (by omega)
      | true => exact hweak k (by omega) t (hmay rfl) ht

lemma Ensures.runAlone (hdone : ∀ s t, step s false = some t → done s = none)
    (hQ : ∀ s, Q s → (done s).isSome = true) (h : Ensures step may P Q k s) :
    ∃ n t r, (∀ fuel ≥ n, Machine.runAlone step done fuel [] s = some (t, r)) ∧ Q t ∧
      done t = some r := by
  induction h with
  | done h =>
    obtain ⟨r, hr⟩ := Option.isSome_iff_exists.mp (hQ _ h)
    exact ⟨0, _, r, fun fuel _ => runAlone_done hr fuel [], h, hr⟩
  | step _ hs _ _ ih =>
    obtain ⟨n, t, r, hn, ht⟩ := ih
    exact ⟨n + 1, t, r, runAlone_step (hdone _ _ hs) hs hn, ht⟩

end CoopTasks.Machine
