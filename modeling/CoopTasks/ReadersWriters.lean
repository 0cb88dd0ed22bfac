import Mathlib.Data.Set.Card
import Mathlib.Tactic.Common

/-!
One word shared by readers and a writer.

The word holds `top` while somebody writes, and counts the readers otherwise. A reader may enter
unless the word is `top`, and a writer when it is 0; the count may itself reach `top`, and then
keeps everybody out until a reader leaves.
-/

namespace CoopTasks.ReadersWriters

/-- Where a thread stands with respect to the word. -/
inductive Side
  | out
  | read
  | write
  deriving DecidableEq, Repr

variable {T : Type*} {top word : ℕ} {side side' : T → Side} {t w : T}

/-- Either one writer is alone inside, or the word counts the readers. -/
inductive Held (top word : ℕ) (side : T → Side) : Prop
  | writer (w : T) (hw : side w = .write) (hout : ∀ t, t ≠ w → side t = .out) (hword : word = top)
  | readers (S : Finset T) (hS : ∀ t, t ∈ S ↔ side t = .read) (hw : ∀ t, side t ≠ .write)
      (hword : word = S.card) (hle : S.card ≤ top)

lemma Held.free (h : ∀ t, side t = .out) : Held top 0 side :=
  .readers ∅ (fun t => by simp [h t]) (fun t => by simp [h t]) rfl (Nat.zero_le _)

lemma Held.word_le (h : Held top word side) : word ≤ top := by
  cases h with
  | writer w hw hout hword => exact hword.le
  | readers S hS hw hword hle => exact hword.trans_le hle

lemma Held.alone (h : Held top word side) (hw : side w = .write) (hne : t ≠ w) :
    side t = .out := by
  cases h with
  | writer w' hw' hout hword =>
    by_cases hww : w = w'
    · exact hout t (hww ▸ hne)
    · simp [hout w hww] at hw
  | readers S hS hno hword hle => exact absurd hw (hno w)

lemma Held.word_eq_top (h : Held top word side) (hw : side w = .write) : word = top := by
  cases h with
  | writer w' hw' hout hword => exact hword
  | readers S hS hno hword hle => exact absurd hw (hno w)

lemma Held.finite (h : Held top word side) : {t | side t = .read}.Finite := by
  cases h with
  | writer w hw hout hword =>
    refine Set.Finite.subset (Set.finite_singleton w) fun t ht => ?_
    by_contra hne
    simp [hout t hne] at ht
  | readers S hS _ hword hle => exact S.finite_toSet.subset fun t ht => (hS t).mpr ht

lemma Held.word_eq_ncard (h : Held top word side) (hno : ∀ t, side t ≠ .write) :
    word = {t | side t = .read}.ncard := by
  cases h with
  | writer w hw hout hword => exact absurd hw (hno w)
  | readers S hS _ hword hle =>
    have hset : {t | side t = .read} = (S : Set T) := by
      ext t
      exact (hS t).symm
    rw [hset, Set.ncard_coe_finset]
    exact hword

/-- When only one thread may be inside, and it does not write, the count is at most 1. -/
lemma Held.word_le_one (h : Held top word side) (hout : ∀ t, t ≠ w → side t = .out)
    (hw : side w ≠ .write) : word ≤ 1 := by
  cases h with
  | writer w' hw' _ _ =>
    by_cases heq : w' = w
    · exact absurd (heq ▸ hw') hw
    · simp [hout w' heq] at hw'
  | readers S hS _ hword _ =>
    have hsub : S ⊆ {w} := fun t ht => by
      by_contra hne
      have hread := (hS t).mp ht
      rw [hout t (by simpa using hne)] at hread
      cases hread
    calc word = S.card := hword
      _ ≤ ({w} : Finset T).card := Finset.card_le_card hsub
      _ = 1 := Finset.card_singleton w

lemma Held.congr (h : Held top word side) (heq : ∀ t, side' t = side t) : Held top word side' := by
  rw [funext heq]
  exact h

/-! ### Entering and leaving -/

section
variable [DecidableEq T]

lemma Held.readLock (h : Held top word side) (hne : word ≠ top) (ht : side t = .out) :
    Held top (word + 1) (Function.update side t .read) := by
  cases h with
  | writer w hw hout hword => exact absurd hword hne
  | readers S hS hw hword hle =>
    have htS : t ∉ S := by simp [hS, ht]
    refine .readers (insert t S) (fun u => ?_) (fun u => ?_) ?_ ?_
    · by_cases hu : u = t
      · simp [hu]
      · simp [hu, hS]
    · by_cases hu : u = t
      · simp [hu]
      · simpa [hu] using hw u
    · rw [Finset.card_insert_of_notMem htS, hword]
    · rw [Finset.card_insert_of_notMem htS]
      omega

lemma Held.readUnlock (h : Held top word side) (ht : side t = .read) :
    0 < word ∧ Held top (word - 1) (Function.update side t .out) := by
  cases h with
  | writer w hw hout hword =>
    by_cases htw : t = w
    · simp [htw, hw] at ht
    · simp [hout t htw] at ht
  | readers S hS hw hword hle =>
    have htS : t ∈ S := (hS t).mpr ht
    have hpos : 0 < S.card := Finset.card_pos.mpr ⟨t, htS⟩
    refine ⟨hword ▸ hpos, .readers (S.erase t) (fun u => ?_) (fun u => ?_) ?_ ?_⟩
    · by_cases hu : u = t
      · simp [hu]
      · simp [hu, hS]
    · by_cases hu : u = t
      · simp [hu]
      · simpa [hu] using hw u
    · rw [Finset.card_erase_of_mem htS, hword]
    · rw [Finset.card_erase_of_mem htS]
      omega

lemma Held.writeLock (h : Held top 0 side) (htop : 0 < top) :
    (∀ u, side u = .out) ∧ Held top top (Function.update side t .write) := by
  cases h with
  | writer w hw hout hword => omega
  | readers S hS hw hword hle =>
    obtain rfl : S = ∅ := Finset.card_eq_zero.mp hword.symm
    have hout : ∀ u, side u = .out := fun u => by
      cases hu : side u with
      | out => rfl
      | read => exact absurd ((hS u).mpr hu) (Finset.notMem_empty u)
      | write => exact absurd hu (hw u)
    refine ⟨hout, .writer t (by simp) (fun u hu => ?_) rfl⟩
    simpa [hu] using hout u

lemma Held.writeUnlock (h : Held top word side) (ht : side t = .write) :
    Held top 0 (Function.update side t .out) := by
  refine .free fun u => ?_
  by_cases hu : u = t
  · simp [hu]
  · simpa [hu] using h.alone ht hu

end

end CoopTasks.ReadersWriters
