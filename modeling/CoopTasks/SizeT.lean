import Mathlib.Algebra.Group.Int.Defs
import Mathlib.Algebra.Group.Nat.Defs
import Mathlib.Tactic.Common

/-!
Arithmetic of `size_t`, a 64-bit unsigned number.
-/

namespace CoopTasks.SizeT

/-- `SIZE_MAX`. -/
def sizeMax : ℕ := 2 ^ 64 - 1

def sizeAdd (a b : ℕ) : ℕ := if a + b < 2 ^ 64 then a + b else a + b - 2 ^ 64

def sizeSub (a b : ℕ) : ℕ := if b ≤ a then a - b else a + 2 ^ 64 - b

def sizeMul (a b : ℕ) : ℕ := a * b % 2 ^ 64

/-- A `size_t` returned as an `ssize_t`. -/
def toSsize (a : ℕ) : ℤ := if a < 2 ^ 63 then a else (a : ℤ) - 2 ^ 64

lemma toSsize_eq {a : ℕ} (h : a < 2 ^ 63) : toSsize a = a := if_pos h

lemma sizeAdd_eq {a b : ℕ} (h : a + b ≤ sizeMax) : sizeAdd a b = a + b := by
  unfold sizeMax at h
  exact if_pos (by omega)

lemma sizeMul_eq {a b : ℕ} (h : a * b ≤ sizeMax) : sizeMul a b = a * b := by
  unfold sizeMax at h
  exact Nat.mod_eq_of_lt (by omega)

lemma sizeAdd_le {a b : ℕ} (ha : a ≤ sizeMax) (hb : b ≤ sizeMax) : sizeAdd a b ≤ sizeMax := by
  unfold sizeMax sizeAdd at *
  split <;> omega

lemma sizeMul_le (a b : ℕ) : sizeMul a b ≤ sizeMax := by
  unfold sizeMax sizeMul
  omega

lemma sizeSub_eq {a b : ℕ} (h : b ≤ a) : sizeSub a b = a - b := if_pos h

lemma sizeAdd_mod {a b : ℕ} (ha : a ≤ sizeMax) (hb : b ≤ sizeMax) :
    sizeAdd a b = (a + b) % 2 ^ 64 := by
  unfold sizeMax at ha hb
  unfold sizeAdd
  split <;> omega

lemma sizeSub_mod {a b : ℕ} (ha : a ≤ sizeMax) (hb : b ≤ sizeMax) :
    sizeSub a b = (a + (2 ^ 64 - b)) % 2 ^ 64 := by
  unfold sizeMax at ha hb
  unfold sizeSub
  split <;> omega

end CoopTasks.SizeT
