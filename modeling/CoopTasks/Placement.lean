import Mathlib.Algebra.BigOperators.Group.Finset.Basic
import Mathlib.Tactic.Abel

/-!
Items that are each at exactly one place, and how many there are at all the places together.

An invariant of this shape is kept by moving one item at a time, whatever the places are.
-/

namespace CoopTasks.Placement

variable {ι P : Type*}

/-- Each item of `S` is at one place, and nothing else is anywhere. -/
structure Placed (S : ι → Prop) (A : ι → P → Prop) : Prop where
  one : ∀ i, S i → ∃ p, A i p
  uniq : ∀ i p q, A i p → A i q → p = q
  mem : ∀ i p, A i p → S i

variable {S S' : ι → Prop} {A A' : ι → P → Prop} {i : ι} {q : P}

/-- One item may be put at a new place, brought in or taken out, the others staying put. -/
lemma Placed.change (h : Placed S A) (hS : ∀ j, j ≠ i → (S' j ↔ S j))
    (hA : ∀ j, j ≠ i → ∀ p, A' j p ↔ A j p) (hi : S' i) (hq : ∀ p, A' i p ↔ p = q) :
    Placed S' A' where
  one j hj := by
    by_cases hji : j = i
    · subst hji
      exact ⟨q, (hq q).mpr rfl⟩
    · obtain ⟨p, hp⟩ := h.one j ((hS j hji).mp hj)
      exact ⟨p, (hA j hji p).mpr hp⟩
  uniq j p p' hp hp' := by
    by_cases hji : j = i
    · subst hji
      exact ((hq p).mp hp).trans ((hq p').mp hp').symm
    · exact h.uniq j p p' ((hA j hji p).mp hp) ((hA j hji p').mp hp')
  mem j p hp := by
    by_cases hji : j = i
    · subst hji
      exact hi
    · exact (hS j hji).mpr (h.mem j p ((hA j hji p).mp hp))

lemma Placed.remove (h : Placed S A) (hS : ∀ j, j ≠ i → (S' j ↔ S j))
    (hA : ∀ j, j ≠ i → ∀ p, A' j p ↔ A j p) (hi : ¬ S' i) (hq : ∀ p, ¬ A' i p) :
    Placed S' A' where
  one j hj := by
    have hji : j ≠ i := by rintro rfl; exact hi hj
    obtain ⟨p, hp⟩ := h.one j ((hS j hji).mp hj)
    exact ⟨p, (hA j hji p).mpr hp⟩
  uniq j p p' hp hp' := by
    have hji : j ≠ i := by rintro rfl; exact hq p hp
    exact h.uniq j p p' ((hA j hji p).mp hp) ((hA j hji p').mp hp')
  mem j p hp := by
    have hji : j ≠ i := by rintro rfl; exact hq p hp
    exact (hS j hji).mpr (h.mem j p ((hA j hji p).mp hp))

lemma Placed.congr (h : Placed S A) (hS : ∀ j, S' j ↔ S j) (hA : ∀ j p, A' j p ↔ A j p) :
    Placed S' A' where
  one j hj := by
    obtain ⟨p, hp⟩ := h.one j ((hS j).mp hj)
    exact ⟨p, (hA j p).mpr hp⟩
  uniq j p p' hp hp' := h.uniq j p p' ((hA j p).mp hp) ((hA j p').mp hp')
  mem j p hp := (hS j).mpr (h.mem j p ((hA j p).mp hp))

lemma Placed.ne (h : Placed S A) {p : P} (hp : A i p) (p' : P) (hne : p' ≠ p) : ¬ A i p' :=
  fun hp' => hne (h.uniq i p' p hp' hp)

lemma Placed.existsUnique (h : Placed S A) (hi : S i) : ∃! p, A i p := by
  obtain ⟨p, hp⟩ := h.one i hi
  exact ⟨p, hp, fun p' hp' => h.uniq i p' p hp' hp⟩

lemma sum_update {α M : Type*} [AddCommMonoid M] [DecidableEq P] {S : Finset P} {p : P}
    (hp : p ∈ S) (f : α → M) (g : P → α) (a : α) :
    ∑ q ∈ S, f (Function.update g p a q) + f (g p) = ∑ q ∈ S, f (g q) + f a := by
  rw [← Finset.add_sum_erase _ _ hp, ← Finset.add_sum_erase _ (fun q => f (g q)) hp,
    Function.update_self, Finset.sum_congr rfl fun q hq => by
      rw [Function.update_of_ne (Finset.ne_of_mem_erase hq)]]
  abel

end CoopTasks.Placement
