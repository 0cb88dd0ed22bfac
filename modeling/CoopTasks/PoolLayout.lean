import CoopTasks.Pool

/-!
The block that `mempool_create` asks for.

Fragments are named by index everywhere else. That is sound as long as the sizes do not wrap
around: then the fragments lie apart from each other in the block.
-/

namespace CoopTasks.Pool

open CoopTasks.SizeT

inductive Errno
  | einval
  | enomem
  | enoent
  | eexist
  deriving DecidableEq, Repr

/-- `sizeof(struct memory_fragment)`, a link word and no data. -/
def memoryFragmentBytes : ℕ := 16

def internalMempoolAlignedDataBytes (dataBytes : ℕ) : ℕ :=
  let fragBytes := max dataBytes memoryFragmentBytes
  if fragBytes % 16 ≠ 0 then sizeAdd fragBytes (16 - fragBytes % 16) else fragBytes

/-- `calloc(n, size)`, which fails when the product overflows, and may fail anyway. -/
def calloc (memory : Bool) (n size : ℕ) : Bool := memory && decide (n * size ≤ sizeMax)

/-- `mempool_create`, up to the call of `internal_mempool_setup`. -/
def mempoolCreate {D : Type*} (memory : Bool) (dataBytes capacity : ℕ) (d : D) :
    Except Errno (PoolState D) :=
  if dataBytes = 0 ∨ capacity = 0 then .error .einval
  else if calloc memory (sizeAdd capacity 1) (internalMempoolAlignedDataBytes dataBytes) then
    .ok (raw capacity d)
  else .error .enomem

/-- No size that `mempool_create` computes wraps around. -/
def SizesFit (dataBytes capacity : ℕ) : Prop :=
  max dataBytes memoryFragmentBytes + 15 ≤ sizeMax ∧ capacity + 1 ≤ sizeMax

variable {dataBytes capacity : ℕ} {memory : Bool} {D : Type*} {d : D} {s : PoolState D}

lemma le_alignedDataBytes (h : SizesFit dataBytes capacity) :
    dataBytes ≤ internalMempoolAlignedDataBytes dataBytes := by
  obtain ⟨h, -⟩ := h
  unfold internalMempoolAlignedDataBytes
  simp only
  split
  · rw [sizeAdd_eq (by omega)]
    omega
  · exact le_max_left _ _

lemma mempoolCreate_ok (hc : mempoolCreate memory dataBytes capacity d = .ok s) :
    s = raw capacity d ∧ 0 < dataBytes ∧ 0 < capacity ∧
      sizeAdd capacity 1 * internalMempoolAlignedDataBytes dataBytes ≤ sizeMax := by
  unfold mempoolCreate at hc
  split at hc
  · simp at hc
  · rename_i hargs
    split at hc
    · rename_i hcalloc
      rw [calloc, Bool.and_eq_true, decide_eq_true_eq] at hcalloc
      exact ⟨by simpa using hc.symm, by omega, by omega, hcalloc.2⟩
    · simp at hc

lemma mempoolCreate_made (hd : 0 < dataBytes) (hpos : 0 < capacity)
    (hcap : capacity + 1 ≤ sizeMax)
    (hfit : (capacity + 1) * internalMempoolAlignedDataBytes dataBytes ≤ sizeMax) :
    mempoolCreate true dataBytes capacity d = .ok (raw capacity d) := by
  have hcalloc : calloc true (sizeAdd capacity 1) (internalMempoolAlignedDataBytes dataBytes) =
      true := by
    rw [sizeAdd_eq hcap]
    exact decide_eq_true hfit
  rw [mempoolCreate, if_neg (by omega), if_pos hcalloc]

end CoopTasks.Pool
