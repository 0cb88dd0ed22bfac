import CoopTasks.ListPool
import CoopTasks.PoolFifo
import CoopTasks.QueueCreate
import CoopTasks.ThreadPoolCreate

/-!
How large the blocks are that the constructors ask for, and where the code then puts things.

Offsets are relative to the start of a block. Sums and products of sizes wrap around.
-/

namespace CoopTasks.Sizes

open CoopTasks.SizeT
open CoopTasks.ThreadPoolCreate (thrdpoolBytes)
open CoopTasks.Pool (Errno internalMempoolAlignedDataBytes mempoolCreate memoryFragmentBytes)

/-! ### What the constructors do -/

/-- The block of a pool and the offsets at which `internal_mempool_setup` lays fragments. -/
structure Block where
  bytes : ℕ
  frags : List ℕ
  deriving DecidableEq, Repr

/-- The offsets in the order in which the fragments are put: the first one is the chain to begin
with, the others come from `for (i = 1; i < self->capacity + 1; ++i)`. -/
def fragmentOffsets (dataBytes capacity : ℕ) : List ℕ :=
  0 :: (List.range' 1 (sizeAdd capacity 1 - 1)).map
    (sizeMul (internalMempoolAlignedDataBytes dataBytes))

/-- The block of a pool that `mempool_create` has made. -/
def mempoolBlock (memory : Bool) (dataBytes capacity : ℕ) : Except Errno Block :=
  (mempoolCreate memory dataBytes capacity ()).map fun _ =>
    ⟨sizeAdd capacity 1 * internalMempoolAlignedDataBytes dataBytes,
      fragmentOffsets dataBytes capacity⟩

/-- `mempool_alloc` on a pool at rest, whose free fragments are these. -/
def mempoolAlloc (frags : List ℕ) : Option ℕ × List ℕ :=
  match Pool.fifo 0 ⟨frags, []⟩ (.alloc : Pool.Op Unit) with
  | some (.ok frag, F) => (frag, F.free)
  | _ => (none, frags)

/-- The block of a queue that `queue_create` has made, and its dummy node. -/
def queueBlock (memory : Bool) (valBytes capacity : ℕ) : Except Errno (Block × Option ℕ) :=
  if valBytes = 0 ∨ capacity = 0 then .error .einval
  else (mempoolBlock memory (sizeAdd Queue.queueValueBytes valBytes) (sizeAdd capacity 1)).map
    fun b => (b, (mempoolAlloc b.frags).1)

/-- The block of a list that `list_create` has made, with its head and its tail. -/
def listBlock (memory : Bool) (valBytes capacity : ℕ) :
    Except Errno (Block × Option ℕ × Option ℕ) :=
  if valBytes = 0 ∨ capacity = 0 then .error .einval
  else (mempoolBlock memory (sizeAdd LockFreeList.listNodeBytes valBytes)
      (sizeAdd capacity 2)).map fun b =>
    let (head, frags) := mempoolAlloc b.frags
    (b, head, (mempoolAlloc frags).1)

/-- The size of the block that `malloc` gives `thrdpool_create`, which then fills it. -/
def thrdpoolBlock (memory : Bool) (poolBytes workerBytes numWorkers : ℕ) : Except Errno ℕ :=
  if numWorkers = 0 then .error .einval
  else if memory then
    .ok (thrdpoolBytes poolBytes workerBytes numWorkers)
  else .error .enomem

/-! ### What they should do -/

/-- Fragments `0` to `capacity` lie at equal distances, aligned, apart from each other and inside
the block, with room for `dataBytes` bytes each. -/
structure Laid (b : Block) (dataBytes capacity : ℕ) : Prop where
  spaced : ∃ distance, b.frags = (List.range (capacity + 1)).map (distance * ·)
  aligned : ∀ o ∈ b.frags, 16 ∣ o
  apart : b.frags.Pairwise fun o p => o + dataBytes ≤ p
  inside : ∀ o ∈ b.frags, o + dataBytes ≤ b.bytes

/-- `workers[0]` to `workers[numWorkers]` lie behind the header, inside the block. -/
def WorkersFit (bytes poolBytes workerBytes numWorkers : ℕ) : Prop :=
  ∀ i ≤ numWorkers, poolBytes + workerBytes * i + workerBytes ≤ bytes

/-- No size that `list_create` computes wraps around. -/
def ListSizesFit (valBytes capacity : ℕ) : Prop :=
  LockFreeList.listNodeBytes + valBytes + 15 ≤ sizeMax ∧ capacity + 3 ≤ sizeMax

variable {memory : Bool} {dataBytes valBytes capacity n : ℕ} {b : Block}

/-! ### Pools -/

lemma mempoolBlock_ok (h : mempoolBlock memory dataBytes capacity = .ok b) :
    b = ⟨sizeAdd capacity 1 * internalMempoolAlignedDataBytes dataBytes,
      fragmentOffsets dataBytes capacity⟩ ∧ 0 < dataBytes ∧ 0 < capacity ∧
      b.bytes ≤ sizeMax := by
  unfold mempoolBlock at h
  cases hm : mempoolCreate memory dataBytes capacity () with
  | error e => simp [hm, Except.map] at h
  | ok s =>
    obtain rfl := by simpa [hm, Except.map] using h.symm
    obtain ⟨-, hd, hc, hblock⟩ := Pool.mempoolCreate_ok hm
    exact ⟨rfl, hd, hc, hblock⟩

/-- Rounding up either works or wraps to nothing. -/
lemma alignedDataBytes_cases (h : dataBytes ≤ sizeMax) :
    max dataBytes memoryFragmentBytes + 15 ≤ sizeMax ∧
        dataBytes ≤ internalMempoolAlignedDataBytes dataBytes ∧
        16 ∣ internalMempoolAlignedDataBytes dataBytes ∨
      sizeMax < max dataBytes memoryFragmentBytes + 15 ∧
        internalMempoolAlignedDataBytes dataBytes = 0 := by
  have hmax := le_max_left dataBytes memoryFragmentBytes
  have hle : max dataBytes memoryFragmentBytes ≤ sizeMax := max_le h (by decide)
  unfold internalMempoolAlignedDataBytes
  generalize max dataBytes memoryFragmentBytes = m at *
  unfold sizeMax sizeAdd at *
  simp only
  split
  · split <;> omega
  · omega

lemma fragmentOffsets_length : (fragmentOffsets dataBytes capacity).length =
    sizeAdd capacity 1 - 1 + 1 := by
  simp [fragmentOffsets]

lemma fragmentOffsets_eq (hc : capacity + 1 ≤ sizeMax)
    (h : (capacity + 1) * internalMempoolAlignedDataBytes dataBytes ≤ sizeMax) :
    fragmentOffsets dataBytes capacity =
      (List.range (capacity + 1)).map (internalMempoolAlignedDataBytes dataBytes * ·) := by
  have hrange : List.range (capacity + 1) = 0 :: List.range' 1 capacity := by
    rw [List.range_eq_range', List.range'_succ]
  rw [fragmentOffsets, hrange, sizeAdd_eq hc, Nat.add_sub_cancel, List.map_cons, Nat.mul_zero]
  refine congrArg _ (List.map_congr_left fun i hi => sizeMul_eq ?_)
  have hi' : i ≤ capacity + 1 := by
    have := (List.mem_range'_1.mp hi).2
    omega
  calc internalMempoolAlignedDataBytes dataBytes * i
      ≤ internalMempoolAlignedDataBytes dataBytes * (capacity + 1) := Nat.mul_le_mul_left _ hi'
    _ = (capacity + 1) * internalMempoolAlignedDataBytes dataBytes := Nat.mul_comm _ _
    _ ≤ sizeMax := h

/-- **Pools**: the fragments are laid out as they should exactly when no size wraps. -/
lemma mempool_laid_iff (hd : dataBytes ≤ sizeMax) (hc : capacity ≤ sizeMax)
    (h : mempoolBlock memory dataBytes capacity = .ok b) :
    Laid b dataBytes capacity ↔ Pool.SizesFit dataBytes capacity := by
  obtain ⟨rfl, hpos, hcap, hbytes⟩ := mempoolBlock_ok h
  constructor
  · rintro ⟨⟨distance, hspaced⟩, -, hapart, -⟩
    have hlen := congrArg List.length hspaced
    rw [fragmentOffsets_length, List.length_map, List.length_range] at hlen
    have hfit : capacity + 1 ≤ sizeMax := by
      by_contra hwrap
      have : sizeAdd capacity 1 = 0 := by unfold sizeAdd sizeMax at *; split <;> omega
      omega
    refine ⟨?_, hfit⟩
    by_contra hwrap
    obtain ⟨hle, -⟩ | ⟨-, hzero⟩ := alignedDataBytes_cases hd
    · exact hwrap hle
    · -- fragment 1 begins where fragment 0 does
      have hmem : sizeMul 0 1 ∈ (List.range' 1 (sizeAdd capacity 1 - 1)).map (sizeMul 0) := by
        rw [sizeAdd_eq hfit]
        exact List.mem_map_of_mem (List.mem_range'_1.mpr ⟨le_rfl, by omega⟩)
      unfold fragmentOffsets at hapart
      rw [hzero] at hapart
      have hzero' := List.rel_of_pairwise_cons hapart hmem
      simp only [sizeMul, Nat.zero_mul, Nat.zero_mod] at hzero'
      omega
  · rintro ⟨hd', hc'⟩
    obtain ⟨-, hle, hdvd⟩ | ⟨hwrap, -⟩ := alignedDataBytes_cases hd
    · rw [sizeAdd_eq hc'] at hbytes ⊢
      have hoff := fragmentOffsets_eq hc' hbytes
      generalize internalMempoolAlignedDataBytes dataBytes = frag at *
      have hnext : ∀ {i j : ℕ}, i < j → frag * i + dataBytes ≤ frag * j := by
        intro i j hij
        calc frag * i + dataBytes ≤ frag * (i + 1) := by rw [Nat.mul_succ]; omega
          _ ≤ frag * j := Nat.mul_le_mul_left _ hij
      refine ⟨⟨frag, hoff⟩, ?_, ?_, ?_⟩
      all_goals simp only [hoff]
      · intro o ho
        obtain ⟨i, -, rfl⟩ := List.mem_map.mp ho
        exact Dvd.dvd.mul_right hdvd i
      · exact List.pairwise_map.mpr (List.pairwise_lt_range.imp hnext)
      · intro o ho
        obtain ⟨i, hi, rfl⟩ := List.mem_map.mp ho
        rw [Nat.mul_comm (capacity + 1)]
        exact hnext (List.mem_range.mp hi)
    · omega

/-! ### Queues and lists -/

lemma mempoolAlloc_some {frags : List ℕ} :
    (mempoolAlloc frags).1.isSome = true ↔ 2 ≤ frags.length := by
  match frags with
  | [] | [_] | _ :: _ :: _ => simp [mempoolAlloc, Pool.fifo]

lemma mempoolAlloc_length {frags : List ℕ} :
    (mempoolAlloc frags).2.length = if 2 ≤ frags.length then frags.length - 1
      else frags.length := by
  match frags with
  | [] | [_] | _ :: _ :: _ => simp [mempoolAlloc, Pool.fifo]

lemma header_laid_iff {header : ℕ} (hh : 16 ≤ header) (hc : capacity ≤ sizeMax)
    (h : mempoolBlock memory (sizeAdd header valBytes) capacity = .ok b) :
    Laid b (header + valBytes) capacity ↔
      header + valBytes + 15 ≤ sizeMax ∧ capacity + 1 ≤ sizeMax := by
  obtain ⟨hb, -, -, hbytes⟩ := mempoolBlock_ok h
  have hfit : header + valBytes ≤ sizeMax →
      (Laid b (header + valBytes) capacity ↔
        header + valBytes + 15 ≤ sizeMax ∧ capacity + 1 ≤ sizeMax) := fun hle => by
    rw [sizeAdd_eq hle] at h
    rw [mempool_laid_iff hle hc h, Pool.SizesFit, max_eq_left]
    exact hh.trans (Nat.le_add_right _ _)
  constructor
  · intro hlaid
    have hzero : 0 ∈ b.frags := by rw [hb]; exact List.mem_cons_self
    have hinside := hlaid.inside 0 hzero
    exact (hfit (by omega)).mp hlaid
  · intro hle
    exact (hfit (by omega)).mpr hle

lemma Laid.length (h : Laid b dataBytes capacity) : b.frags.length = capacity + 1 := by
  obtain ⟨distance, hspaced⟩ := h.spaced
  rw [hspaced, List.length_map, List.length_range]

/-- **Queues**: the nodes have room and the dummy node was allocated exactly when no size
wraps. -/
lemma queue_laid_iff (hc : capacity ≤ sizeMax) {dummy : Option ℕ}
    (h : queueBlock memory valBytes capacity = .ok (b, dummy)) :
    (Laid b (Queue.queueValueBytes + valBytes) (capacity + 1) ∧ dummy.isSome = true) ↔
      Queue.SizesFit valBytes capacity := by
  unfold queueBlock at h
  split at h
  · simp at h
  · cases hm : mempoolBlock memory (sizeAdd Queue.queueValueBytes valBytes)
        (sizeAdd capacity 1) with
    | error e => simp [hm, Except.map] at h
    | ok b' =>
      obtain ⟨rfl, rfl⟩ : b' = b ∧ (mempoolAlloc b'.frags).1 = dummy := by
        simpa [hm, Except.map] using h
      obtain ⟨-, -, hpos, -⟩ := mempoolBlock_ok hm
      have hcap : capacity + 1 ≤ sizeMax := by
        unfold sizeAdd sizeMax at *
        split at hpos <;> omega
      rw [sizeAdd_eq hcap] at hm
      have hiff := header_laid_iff (by decide) hcap hm
      constructor
      · rintro ⟨hlaid, -⟩
        exact hiff.mp hlaid
      · intro hfit
        have hlaid := hiff.mpr hfit
        refine ⟨hlaid, mempoolAlloc_some.mpr ?_⟩
        rw [hlaid.length]
        omega

/-- **Lists**: the nodes have room and both sentinels were allocated exactly when no size
wraps. -/
lemma list_laid_iff (hc : capacity ≤ sizeMax) {head tail : Option ℕ}
    (h : listBlock memory valBytes capacity = .ok (b, head, tail)) :
    (Laid b (LockFreeList.listNodeBytes + valBytes) (capacity + 2) ∧ head.isSome = true ∧
      tail.isSome = true) ↔ ListSizesFit valBytes capacity := by
  unfold listBlock at h
  split at h
  · simp at h
  · cases hm : mempoolBlock memory (sizeAdd LockFreeList.listNodeBytes valBytes)
        (sizeAdd capacity 2) with
    | error e => simp [hm, Except.map] at h
    | ok b' =>
      obtain ⟨rfl, rfl, rfl⟩ : b' = b ∧ (mempoolAlloc b'.frags).1 = head ∧
          (mempoolAlloc (mempoolAlloc b'.frags).2).1 = tail := by
        simpa [hm, Except.map] using h
      obtain ⟨hb, -, hpos, -⟩ := mempoolBlock_ok hm
      by_cases hcap : capacity + 2 ≤ sizeMax
      · rw [sizeAdd_eq hcap] at hm
        have hiff := header_laid_iff (by decide) hcap hm
        constructor
        · rintro ⟨hlaid, -⟩
          exact hiff.mp hlaid
        · intro hfit
          have hlaid := hiff.mpr hfit
          have hlen := hlaid.length
          refine ⟨hlaid, mempoolAlloc_some.mpr (by omega), mempoolAlloc_some.mpr ?_⟩
          rw [mempoolAlloc_length, if_pos (by omega)]
          omega
      · -- the pool has a single fragment to give, and the tail is a null pointer
        constructor
        · rintro ⟨hlaid, -⟩
          have hlen := hlaid.length
          rw [hb, fragmentOffsets_length] at hlen
          unfold sizeAdd sizeMax at *
          split at hlen <;> split at hlen <;> omega
        · rintro ⟨-, hle⟩
          omega

/-! ### Thread pools -/

/-- **Thread pools**: the workers fit exactly when no size wraps. -/
lemma thrdpool_fit_iff {bytes poolBytes workerBytes : ℕ} (hp : poolBytes ≤ sizeMax)
    (hw : 0 < workerBytes) (h : thrdpoolBlock memory poolBytes workerBytes n = .ok bytes) :
    WorkersFit bytes poolBytes workerBytes n ↔
      poolBytes + workerBytes * (n + 1) ≤ sizeMax := by
  obtain rfl : sizeAdd poolBytes (sizeMul workerBytes (sizeAdd n 1)) = bytes := by
    unfold thrdpoolBlock thrdpoolBytes at h
    split at h
    · simp at h
    · split at h <;> simp_all
  constructor
  · intro hfit
    calc poolBytes + workerBytes * (n + 1)
        = poolBytes + workerBytes * n + workerBytes := by rw [Nat.mul_succ, Nat.add_assoc]
      _ ≤ sizeAdd poolBytes (sizeMul workerBytes (sizeAdd n 1)) := hfit n le_rfl
      _ ≤ sizeMax := sizeAdd_le hp (sizeMul_le _ _)
  · intro hle i hi
    have hn : n + 1 ≤ workerBytes * (n + 1) := Nat.le_mul_of_pos_left _ hw
    rw [sizeAdd_eq (show n + 1 ≤ sizeMax by omega), sizeMul_eq (by omega), sizeAdd_eq hle]
    have hmul : workerBytes * (i + 1) ≤ workerBytes * (n + 1) :=
      Nat.mul_le_mul_left _ (by omega)
    rw [Nat.mul_succ] at hmul
    omega

/-! ### All constructors -/

/-- **Sizes**: a constructor that reports success has made a block in which everything has its
place exactly when none of the sizes that it computes wraps around. -/
theorem sizes_fit_iff (memory : Bool) :
    (∀ dataBytes capacity b, dataBytes ≤ sizeMax → capacity ≤ sizeMax →
      mempoolBlock memory dataBytes capacity = .ok b →
      (Laid b dataBytes capacity ↔ Pool.SizesFit dataBytes capacity)) ∧
    (∀ valBytes capacity b dummy, valBytes ≤ sizeMax → capacity ≤ sizeMax →
      queueBlock memory valBytes capacity = .ok (b, dummy) →
      ((Laid b (Queue.queueValueBytes + valBytes) (capacity + 1) ∧ dummy.isSome = true) ↔
        Queue.SizesFit valBytes capacity)) ∧
    (∀ valBytes capacity b head tail, valBytes ≤ sizeMax → capacity ≤ sizeMax →
      listBlock memory valBytes capacity = .ok (b, head, tail) →
      ((Laid b (LockFreeList.listNodeBytes + valBytes) (capacity + 2) ∧ head.isSome = true ∧
        tail.isSome = true) ↔ ListSizesFit valBytes capacity)) ∧
    ∀ poolBytes workerBytes numWorkers bytes, poolBytes ≤ sizeMax → 0 < workerBytes →
      numWorkers ≤ sizeMax → thrdpoolBlock memory poolBytes workerBytes numWorkers = .ok bytes →
      (WorkersFit bytes poolBytes workerBytes numWorkers ↔
        poolBytes + workerBytes * (numWorkers + 1) ≤ sizeMax) := by
  refine ⟨fun dataBytes capacity b hd hc h => mempool_laid_iff hd hc h,
    fun valBytes capacity b dummy _ hc h => queue_laid_iff hc h,
    fun valBytes capacity b head tail _ hc h => list_laid_iff hc h,
    fun poolBytes workerBytes numWorkers bytes hp hw _ h => thrdpool_fit_iff hp hw h⟩

/-- `sizeof(struct thread_pool)`, without its workers, and `sizeof(struct worker)`, where a
`pthread_mutex_t` takes 40 bytes and a `pthread_cond_t` 48. -/
def threadPoolBytes : ℕ := 384
def workerBytes : ℕ := 256

/-- The constructors take sizes that wrap: they report a pool whose fragments all begin at offset
0, a queue and a list whose nodes are smaller than their headers, and a list without a tail, and
`thrdpool_create` goes on with a block that has no room for any worker. -/
theorem sizes_wrap :
    (∃ b, mempoolBlock true sizeMax 1 = .ok b ∧ ¬ Laid b sizeMax 1) ∧
    (∃ b dummy, queueBlock true (2 ^ 64 - 15) 1 = .ok (b, dummy) ∧
      ¬ Laid b (Queue.queueValueBytes + (2 ^ 64 - 15)) 2) ∧
    (∃ b head tail, listBlock true (2 ^ 64 - 31) 1 = .ok (b, head, tail) ∧
      ¬ Laid b (LockFreeList.listNodeBytes + (2 ^ 64 - 31)) 3) ∧
    (∃ b head, listBlock true 1 sizeMax = .ok (b, head, none)) ∧
    ∃ bytes, thrdpoolBlock true threadPoolBytes workerBytes (2 ^ 56 - 1) = .ok bytes ∧
      ¬ WorkersFit bytes threadPoolBytes workerBytes (2 ^ 56 - 1) := by
  refine ⟨⟨⟨0, [0, 0]⟩, rfl, fun h => ?_⟩, ⟨⟨48, [0, 16, 32]⟩, some 0, rfl, fun h => ?_⟩,
    ⟨⟨64, [0, 16, 32, 48]⟩, some 0, some 16, rfl, fun h => ?_⟩,
    ⟨⟨96, [0, 48]⟩, some 0, rfl⟩, ⟨384, rfl, fun h => ?_⟩⟩
  · exact absurd (h.inside 0 (by simp)) (by decide)
  · exact absurd (h.inside 0 (by simp)) (by decide)
  · exact absurd (h.inside 0 (by simp)) (by decide)
  · exact absurd (h 0 (Nat.zero_le _)) (by decide)

/-- A pool of 3 fragments of 20 bytes, a queue of 2 bytes, a list of one byte and 4 workers. -/
theorem sizes_fit_three :
    (∃ b, mempoolBlock true 20 3 = .ok b ∧ Laid b 20 3) ∧
    (∃ b dummy, queueBlock true 2 3 = .ok (b, dummy) ∧ Laid b 18 4 ∧ dummy.isSome = true) ∧
    (∃ b head tail, listBlock true 1 3 = .ok (b, head, tail) ∧ Laid b 33 5 ∧
      head.isSome = true ∧ tail.isSome = true) ∧
    ∃ bytes, thrdpoolBlock true threadPoolBytes workerBytes 4 = .ok bytes ∧
      WorkersFit bytes threadPoolBytes workerBytes 4 := by
  obtain ⟨h1, h2, h3, h4⟩ := sizes_fit_iff true
  exact ⟨⟨_, rfl, (h1 20 3 _ (by decide) (by decide) rfl).mpr ⟨by decide, by decide⟩⟩,
    ⟨_, _, rfl, (h2 2 3 _ _ (by decide) (by decide) rfl).mpr ⟨by decide, by decide⟩⟩,
    ⟨_, _, _, rfl, (h3 1 3 _ _ _ (by decide) (by decide) rfl).mpr ⟨by decide, by decide⟩⟩,
    ⟨_, rfl, (h4 _ _ 4 _ (by decide) (by decide) (by decide) rfl).mpr (by decide)⟩⟩

end CoopTasks.Sizes
