import CoopTasks.PoolCount
import CoopTasks.PoolOwnership

/-!
Which addresses a pool says are its own.

The set-up lays out one fragment more than the capacity. `mempool_contains` computes the end of
the block anew, and adds one to the size of `capacity` fragments where it means one to the
capacity: of the last fragment it knows the first byte only.
-/

namespace CoopTasks.Pool

open CoopTasks.SizeT CoopTasks.Machine

variable {D : Type*}

/-- What `calloc` returns for `bytes` bytes: the block ends inside the address space. -/
structure Block (bytes : ℕ) where
  base : ℕ
  ne_null : base ≠ 0
  fits : base + bytes ≤ sizeMax

/-- `mpool_t`: the block's address, the size a client asked for, and the rest. -/
structure Mpool (D : Type*) where
  pool : ℕ
  dataBytes : ℕ
  state : PoolState D

def Mpool.fragBytes (self : Mpool D) : ℕ := internalMempoolAlignedDataBytes self.dataBytes

/-- Where `internal_mempool_setup` puts the fragment `i`. -/
def Mpool.fragment (self : Mpool D) (i : ℕ) : ℕ := sizeAdd self.pool (sizeMul self.fragBytes i)

def mempoolContains (self : Mpool D) (ptr : ℕ) : Bool :=
  let poolSize := sizeAdd (sizeMul self.fragBytes self.state.pool.capacity) 1
  let poolEnd := sizeAdd self.pool poolSize
  decide (self.pool ≤ ptr) && decide (ptr < poolEnd)

/-- A thread calls `mempool_clear`, or something else happens to the pool. -/
inductive MpoolAct (D : Type*)
  | call (a : Act D)
  | clear (t : ℕ)

/-- A clear sets the pool up again, with the block and the sizes that it has. -/
def mpoolNext (m : Mpool D) : MpoolAct D → Option (Mpool D)
  | .call a => (next m.state a).map fun s => { m with state := s }
  | .clear t => (mempoolClear m.state t).map fun s => { m with state := s }

/-- Whether `p` is the address of a byte of the fragment `f`. -/
def Mpool.Byte (m : Mpool D) (f p : ℕ) : Prop := m.fragment f ≤ p ∧ p < m.fragment f + m.fragBytes

variable {m m' : Mpool D} {s s' s₀ made : PoolState D} {n t f p dataBytes : ℕ}
  {weak memory : Bool} {d : D}

/-! ### The sizes never change -/

lemma threadStep_capacity (hs : threadStep s t weak = some s') :
    s'.pool.capacity = s.pool.capacity := by
  unfold threadStep at hs
  split at hs
  · simp at hs
  · simp at hs
  · rename_i o pc _
    obtain ⟨P, r, hpick, rfl⟩ := by simpa using hs
    have hcap : P.capacity = s.pool.capacity := by
      cases pc with
      | loop pc => exact (pick_more hpick).1
      | count f =>
        obtain ⟨rfl, -⟩ := by simpa [internalMempoolPick] using hpick
        rfl
    rcases r with pc' | - | f <;> exact hcap
  · obtain ⟨P, C, r, hput, rfl⟩ := by simpa using hs
    exact put_capacity hput
  · rename_i pc _
    obtain ⟨P, C, r, hsetup, rfl⟩ := by simpa using hs
    cases pc with
    | start =>
      obtain ⟨rfl, -⟩ := by simpa [internalMempoolSetup] using hsetup
      rfl
    | test i =>
      simp only [internalMempoolSetup] at hsetup
      split at hsetup <;> obtain ⟨rfl, -⟩ := by simpa using hsetup
      · rfl
      · rfl
    | put i pc =>
      obtain ⟨r', hput, rfl⟩ := by simpa [internalMempoolSetup] using hsetup
      exact put_capacity hput

lemma next_capacity {a : Act D} (hs : next s a = some s') :
    s'.pool.capacity = s.pool.capacity := by
  cases a with
  | step t weak => exact threadStep_capacity hs
  | callAlloc | callFree | write =>
    simp only [next] at hs
    split at hs
    · obtain rfl := by simpa using hs
      rfl
    · simp at hs

/-- The pool lies where it lay when it was made, and its sizes are the same. -/
structure Mpool.Lies (base dataBytes n : ℕ) (m : Mpool D) : Prop where
  pool : m.pool = base
  dataBytes : m.dataBytes = dataBytes
  capacity : m.state.pool.capacity = n

lemma lies_step {base : ℕ} {a : MpoolAct D} (h : m.Lies base dataBytes n)
    (hs : mpoolNext m a = some m') : m'.Lies base dataBytes n := by
  cases a with
  | call a =>
    obtain ⟨s, hnext, rfl⟩ := Option.map_eq_some_iff.mp hs
    exact ⟨h.pool, h.dataBytes, (next_capacity hnext).trans h.capacity⟩
  | clear t =>
    obtain ⟨s, hclear, rfl⟩ := Option.map_eq_some_iff.mp hs
    unfold mempoolClear at hclear
    split at hclear
    · obtain rfl := by simpa using hclear
      exact ⟨h.pool, h.dataBytes, h.capacity⟩
    · simp at hclear

/-! ### The two extents -/

lemma alignedDataBytes_pos (h : SizesFit dataBytes n) :
    0 < internalMempoolAlignedDataBytes dataBytes := by
  obtain ⟨h, -⟩ := h
  unfold internalMempoolAlignedDataBytes memoryFragmentBytes at *
  simp only
  split
  · rw [sizeAdd_eq (by omega)]
    omega
  · omega

/-- The block of a pool of capacity `n` is large enough for what the set-up puts there. -/
structure Mpool.Fits (n : ℕ) (m : Mpool D) : Prop where
  pos : 0 < m.fragBytes
  le : m.dataBytes ≤ m.fragBytes
  capacity : m.state.pool.capacity = n
  fits : m.pool + m.fragBytes * (n + 1) ≤ sizeMax

lemma Mpool.Fits.fragment_eq (h : m.Fits n) (hf : f ≤ n + 1) :
    m.fragment f = m.pool + m.fragBytes * f := by
  have hle : m.fragBytes * f ≤ m.fragBytes * (n + 1) := Nat.mul_le_mul_left _ hf
  have hfits := h.fits
  rw [Mpool.fragment, sizeMul_eq (by omega), sizeAdd_eq (by omega)]

lemma Mpool.Fits.contains_iff (h : m.Fits n) :
    mempoolContains m p = true ↔ m.pool ≤ p ∧ p ≤ m.pool + m.fragBytes * n := by
  have hnext : m.fragBytes * (n + 1) = m.fragBytes * n + m.fragBytes := Nat.mul_succ _ _
  have hfits := h.fits
  have hpos := h.pos
  unfold mempoolContains
  simp only [h.capacity, Bool.and_eq_true, decide_eq_true_eq]
  have hsize : sizeAdd (m.fragBytes * n) 1 = m.fragBytes * n + 1 := sizeAdd_eq (by omega)
  rw [sizeMul_eq (by omega), hsize, sizeAdd_eq (by omega)]
  omega

lemma Mpool.Fits.byte_iff (h : m.Fits n) :
    (∃ f ≤ n, m.Byte f p) ↔ m.pool ≤ p ∧ p < m.pool + m.fragBytes * (n + 1) := by
  constructor
  · rintro ⟨f, hf, hlo, hhi⟩
    have hle : m.fragBytes * (f + 1) ≤ m.fragBytes * (n + 1) := Nat.mul_le_mul_left _ (by omega)
    rw [h.fragment_eq (by omega)] at hlo hhi
    rw [Nat.mul_succ] at hle
    omega
  · rintro ⟨hlo, hhi⟩
    have hlt : (p - m.pool) / m.fragBytes < n + 1 := Nat.div_lt_of_lt_mul (by omega)
    refine ⟨(p - m.pool) / m.fragBytes, by omega, ?_⟩
    have hdiv := Nat.div_add_mod (p - m.pool) m.fragBytes
    have hmod := Nat.mod_lt (p - m.pool) h.pos
    rw [Mpool.Byte, h.fragment_eq (by omega)]
    omega

/-- The two extents differ in the bytes of the last fragment that follow its first. -/
lemma Mpool.Fits.agree_iff (h : m.Fits n) :
    (mempoolContains m p = true ↔ ∃ f ≤ n, m.Byte f p) ↔
      ¬ (m.fragment n < p ∧ p < m.fragment n + m.fragBytes) := by
  rw [h.contains_iff, h.byte_iff, h.fragment_eq (by omega), Nat.mul_succ]
  have hpos := h.pos
  omega

lemma Mpool.Fits.contains_data (h : m.Fits n) (hf : f ≤ n) {k : ℕ} (hk : k < m.dataBytes) :
    mempoolContains m (m.fragment f + k) = true ↔ f ≠ n ∨ k = 0 := by
  have hle := h.le
  rw [h.contains_iff, h.fragment_eq (by omega)]
  rcases Nat.lt_or_eq_of_le hf with hlt | rfl
  · have hnext : m.fragBytes * (f + 1) ≤ m.fragBytes * n := Nat.mul_le_mul_left _ hlt
    rw [Nat.mul_succ] at hnext
    omega
  · omega

/-! ### Runs -/

lemma created_chain (hn : n + 1 ≤ sizeMax) (h₀ : Created n d s₀) :
    s₀.chain = List.range (n + 1) := by
  obtain ⟨hI, -, hcap, -⟩ := created_inv hn h₀
  exact hI.chain_eq hcap

lemma fits_of_reach (hfit : SizesFit dataBytes n)
    (block : Block (internalMempoolAlignedDataBytes dataBytes * (n + 1))) (h₀ : Created n d s₀)
    (h : Reach mpoolNext (fun _ _ => True) ⟨block.base, dataBytes, s₀⟩ m) : m.Fits n := by
  obtain ⟨-, -, hcap, -⟩ := created_inv hfit.2 h₀
  have hlies : m.Lies block.base dataBytes n :=
    h.inv ⟨rfl, rfl, hcap⟩ fun _ _ _ hm _ hs => lies_step hm hs
  have hfrag : m.fragBytes = internalMempoolAlignedDataBytes dataBytes := by
    rw [Mpool.fragBytes, hlies.dataBytes]
  refine ⟨?_, ?_, hlies.capacity, ?_⟩
  · rw [hfrag]
    exact alignedDataBytes_pos hfit
  · rw [hfrag, hlies.dataBytes]
    exact le_alignedDataBytes hfit
  · rw [hfrag, hlies.pool]
    exact block.fits

/-- **Containment**: whatever calls, clears and clients do, `mempool_contains` agrees with the
layout exactly at the addresses that are not bytes of the last fragment after its first. -/
theorem mempool_contains_layout (hfit : SizesFit dataBytes n)
    (hmake : mempoolCreate memory dataBytes n d = .ok made)
    (block : Block (internalMempoolAlignedDataBytes dataBytes * (n + 1)))
    (hrun : Reach next (fun _ a => a.isStep 0 = true) made s₀)
    (hret : s₀.calls 0 = .returned none)
    (h : Reach mpoolNext (fun _ _ => True) ⟨block.base, dataBytes, s₀⟩ m) :
    s₀.chain = List.range (n + 1) ∧
    (∀ p, (mempoolContains m p = true ↔ ∃ f ∈ s₀.chain, m.Byte f p) ↔
      ¬ (m.fragment n < p ∧ p < m.fragment n + m.fragBytes)) ∧
    (∀ f ∈ s₀.chain, ∀ k < m.dataBytes,
      mempoolContains m (m.fragment f + k) = true ↔ f ≠ n ∨ k = 0) ∧
    mempoolContains m (m.fragment (n + 1)) = false := by
  obtain ⟨rfl, -⟩ := mempoolCreate_ok hmake
  have h₀ : Created n d s₀ := ⟨hrun, hret⟩
  have hm : m.Fits n := fits_of_reach hfit block h₀ h
  have hmem : ∀ f, f ∈ s₀.chain ↔ f ≤ n := fun f => by
    rw [created_chain hfit.2 h₀, List.mem_range, Nat.lt_succ_iff]
  refine ⟨created_chain hfit.2 h₀, fun p => ?_, fun f hf k hk => ?_, ?_⟩
  · simp only [hmem]
    exact hm.agree_iff
  · exact hm.contains_data ((hmem f).mp hf) hk
  · have hpos := hm.pos
    rw [Bool.eq_false_iff, ne_eq, hm.contains_iff, hm.fragment_eq le_rfl, Nat.mul_succ]
    omega

lemma exists_mpool [DecidableEq D] (base dataBytes n : ℕ) (d : D) (p : Mpool D → Bool)
    (setUp : List (Act D)) (ls : List (MpoolAct D))
    (h : ((runIf next (fun _ a => a.isStep 0 = true) (raw n d) setUp).any fun s₀ =>
      decide (s₀.calls 0 = .returned none) &&
        (run mpoolNext ⟨base, dataBytes, s₀⟩ ls).any p) = true) :
    ∃ s₀ m, Created n d s₀ ∧ Reach mpoolNext (fun _ _ => True) ⟨base, dataBytes, s₀⟩ m ∧
      p m = true := by
  obtain ⟨s₀, h₀, hs⟩ := (Option.any_eq_true _ _).mp h
  simp only [Bool.and_eq_true, decide_eq_true_eq] at hs
  obtain ⟨m, hm, hp⟩ := (Option.any_eq_true _ _).mp hs.2
  exact ⟨s₀, m, ⟨reach_of_runIf h₀, hs.1⟩, reach_of_run hm, hp⟩

/-- The block of a pool of two fragments of sixteen bytes. -/
def blockOfTwo : Block (internalMempoolAlignedDataBytes 16 * (1 + 1)) where
  base := 4096
  ne_null := by decide
  fits := by decide

/-- A pool of one, cleared while client 1 has its fragment. -/
theorem mempool_contains_layout_one : ∃ (s₀ : PoolState Unit) (m : Mpool Unit),
    m.state.calls 1 = .returned none ∧ s₀.chain = [0, 1] ∧
    (mempoolContains m 4112 = true ↔ ∃ f ∈ s₀.chain, m.Byte f 4112) ∧
    mempoolContains m (m.fragment 2) = false := by
  obtain ⟨s₀, m, h₀, hm, hp⟩ := exists_mpool 4096 16 1 ()
    (fun m => decide (m.state.calls 1 = .returned none) && decide (m.fragment 1 = 4112))
    (List.replicate 10 (strongStep 0))
    (List.flatten [.call (.callAlloc 1 1) :: List.replicate 6 (.call (strongStep 1)),
      .clear 1 :: List.replicate 10 (.call (strongStep 1))])
    (by decide +kernel)
  simp only [Bool.and_eq_true, decide_eq_true_eq] at hp
  obtain ⟨hchain, hagree, -, hpast⟩ := mempool_contains_layout ⟨by decide, by decide⟩
    (mempoolCreate_made (by decide) (by decide) (by decide) (by decide)) blockOfTwo h₀.1 h₀.2 hm
  refine ⟨s₀, m, hp.1, hchain, (hagree 4112).mpr ?_, hpast⟩
  rw [hp.2]
  omega

/-- A pool of one has handed its last fragment out, at the address 4112: the second byte of that
fragment is not contained. -/
theorem mempool_contains_short : ¬ ∀ (dataBytes n : ℕ) (s₀ : PoolState Unit)
    (block : Block (internalMempoolAlignedDataBytes dataBytes * (n + 1))) (m : Mpool Unit),
    SizesFit dataBytes n → mempoolCreate true dataBytes n () = .ok (raw n ()) →
    Created n () s₀ → Reach mpoolNext (fun _ _ => True) ⟨block.base, dataBytes, s₀⟩ m →
    ∀ p, mempoolContains m p = true ↔ ∃ f ∈ s₀.chain, m.Byte f p := by
  intro hall
  obtain ⟨s₀, m, h₀, hm, hp⟩ := exists_mpool 4096 16 1 ()
    (fun m => decide (m.state.owns 1 = [1]) && decide (m.fragment 1 = 4112) &&
      decide (m.fragBytes = 16) && !mempoolContains m 4113)
    (List.replicate 10 (strongStep 0))
    (List.map .call (List.flatten [.callAlloc 1 1 :: List.replicate 6 (strongStep 1),
      .callFree 1 1 0 :: List.replicate 7 (strongStep 1),
      .callAlloc 1 1 :: List.replicate 6 (strongStep 1)]))
    (by decide +kernel)
  simp only [Bool.and_eq_true, decide_eq_true_eq, Bool.not_eq_true'] at hp
  obtain ⟨⟨⟨-, hfrag⟩, hbytes⟩, hnot⟩ := hp
  have hin : mempoolContains m 4113 = true :=
    (hall 16 1 s₀ blockOfTwo m ⟨by decide, by decide⟩
      (mempoolCreate_made (by decide) (by decide) (by decide) (by decide)) h₀ hm 4113).mpr
      ⟨1, by rw [created_chain (by decide) h₀]; decide, by rw [Mpool.Byte, hfrag, hbytes]; decide⟩
  rw [hnot] at hin
  exact absurd hin (by decide)

end CoopTasks.Pool
