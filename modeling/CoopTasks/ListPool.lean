import CoopTasks.LockFreeList
import CoopTasks.PoolAlone

/-!
The list over its memory pool.

A node is a fragment of the pool, named by its index: the link word of the fragment is the word
`succ` of the node, its count being the mark. A step of a thread is one access; an access that
allocates or gives back a node runs `internal_mempool_pick` or `internal_mempool_put` from its
beginning to its end, as it does when calls are made one at a time.
-/

namespace CoopTasks.LockFreeList

open CoopTasks.Chain (Tagged Cells casOk)
open CoopTasks.SizeT
open CoopTasks.Pool (MemoryPool PutCall PickCall PickRes PoolState)

variable {V D R : Type*}

/-! ### The pool, run to the end of a call -/

/-- `internal_mempool_put`, at most `fuel` steps of it. -/
def runPut (frag : ℕ) : ℕ → MemoryPool → Cells ℕ D → PutCall → Option (MemoryPool × Cells ℕ D)
  | 0, _, _, _ => none
  | fuel + 1, P, C, pc => (Pool.internalMempoolPut false frag P C pc).bind fun (P', C', r) =>
    match r with
    | some pc' => runPut frag fuel P' C' pc'
    | none => some (P', C')

/-- `internal_mempool_pick`, at most `fuel` steps of it. -/
def runPick : ℕ → MemoryPool → Cells ℕ D → PickCall D → Option (MemoryPool × Option ℕ)
  | 0, _, _, _ => none
  | fuel + 1, P, C, pc => (Pool.internalMempoolPick false P C pc).bind fun (P', r) =>
    match r with
    | .more pc' => runPick fuel P' C pc'
    | .ret frag => some (P', frag)

/-- More steps than a call of the pool takes when it runs alone. -/
def poolFuel : ℕ := 32

/-! ### The nodes -/

/-- A node but for its word `succ`. -/
structure Fields (V : Type*) where
  backlink : Option ℕ
  key : ℤ
  val : Option V
  deriving DecidableEq, Repr

/-- A word `succ` as the list reads it: `MARKED` and `FLAGGED` are the low bits of the count. -/
def refOf (w : Tagged ℕ) : Ref ℕ := ⟨w.ptr, w.count % 2 = 1, w.count / 2 % 2 = 1⟩

/-- A word `succ` as the list writes it. -/
def tagOf (r : Ref ℕ) : Tagged ℕ := ⟨r.marked.toNat + 2 * r.flagged.toNat, r.node⟩

/-- The memory of a list. -/
structure Mem (V : Type*) where
  pool : MemoryPool
  cells : Cells ℕ (Fields V)
  readers : ℕ

def Mem.setSucc (m : Mem V) (n : ℕ) (r : Ref ℕ) : Mem V :=
  { m with cells := m.cells.setLink n (tagOf r) }

def Mem.setFields (m : Mem V) (n : ℕ) (d : Fields V) : Mem V :=
  { m with cells := m.cells.setData n d }

/-- Make one access. -/
def Mem.exec (m : Mem V) (weak : Bool) : Cmd ℕ V R → Option (Mem V × R)
  | .load n k => some (m, k (refOf (m.cells.link n)))
  | .cas n exp new k =>
    if casOk weak (m.cells.link n) (tagOf exp) then some (m.setSucc n new, k true)
    else some (m, k false)
  | .store n r k => some (m.setSucc n r, k)
  | .loadKey n k => some (m, k (m.cells.data n).key)
  | .storeKey n key k => some (m.setFields n { m.cells.data n with key := key }, k)
  | .loadBacklink n k => some (m, k (m.cells.data n).backlink)
  | .storeBacklink n b k => some (m.setFields n { m.cells.data n with backlink := b }, k)
  | .loadVal n k => some (m, k (m.cells.data n).val)
  | .storeVal n v k => some (m.setFields n { m.cells.data n with val := some v }, k)
  | .alloc k => (runPick poolFuel m.pool m.cells (.loop .loadHead)).map fun (P, r) =>
    ({ m with pool := P }, k r)
  | .free n k => (runPut n poolFuel m.pool m.cells .init).map fun (P, C) =>
    ({ m with pool := P, cells := C }, k)
  | .loadReaders k => some (m, k m.readers)
  | .casReaders exp new k =>
    if !weak && m.readers = exp then some ({ m with readers := new }, k true)
    else some (m, k false)
  | .subReaders k => some ({ m with readers := m.readers - 1 }, k)
  | .initReaders k => some ({ m with readers := 0 }, k)

/-! ### Making a list -/

/-- `list_alloc_node`, with `val` `none` for a null pointer. -/
def listAllocNode (m : Mem V) (key : ℤ) (val : Option V) : Option (Mem V × Option ℕ) :=
  (runPick poolFuel m.pool m.cells (.loop .loadHead)).map fun (P, r) =>
    match r with
    | none => ({ m with pool := P }, none)
    | some node =>
      ((({ m with pool := P }.setSucc node ⟨none, false, false⟩).setFields node
        ⟨none, key, match val with
          | some v => some v
          | none => (m.cells.data node).val⟩), some node)

/-- `struct list` and its threads. -/
structure ListState (V : Type*) where
  mem : Mem V
  head : ℕ
  tail : Option ℕ
  threads : ℕ → Thread ℕ V

/-- `sizeof(struct list_node)`. -/
def listNodeBytes : ℕ := 32

/-- `list_create` up to the call of `internal_mempool_setup`. -/
def listCreate (memory : Bool) (valBytes capacity : ℕ) :
    Except Pool.Errno (PoolState (Fields V)) :=
  if valBytes = 0 ∨ capacity = 0 then .error .einval
  else Pool.mempoolCreate memory (sizeAdd listNodeBytes valBytes) (sizeAdd capacity 2)
    ⟨none, 0, none⟩

/-- `list_create` after `mempool_create` has returned; `none` where it follows a null pointer. -/
def listSentinels (p : PoolState (Fields V)) : Option (ListState V) :=
  (listAllocNode ⟨p.pool, p.cells, 0⟩ intptrMin none).bind fun (m₁, head) =>
    (listAllocNode m₁ intptrMax none).bind fun (m₂, tail) =>
      head.map fun head =>
        { mem := m₂.setSucc head ⟨tail, false, false⟩, head := head, tail := tail,
          threads := fun _ => ⟨[], .idle⟩ }

/-- A list that `list_create` has made: `mempool_create` has run its set-up alone, and the
sentinels were linked. -/
def Made (memory : Bool) (valBytes capacity : ℕ) (s : ListState V) : Prop :=
  ∃ made p, listCreate memory valBytes capacity = .ok made ∧
    Machine.Reach Pool.next (fun _ a => a.isStep 0 = true) made p ∧
    p.calls 0 = .returned none ∧ listSentinels p = some s

/-- A thread takes its next step. -/
def threadStep (s : ListState V) (t : ℕ) (weak : Bool) : Option (ListState V) :=
  ((s.threads t).cmd (· == ·)).bind fun cmd => (s.mem.exec weak cmd).map fun (m, th) =>
    { s with mem := m, threads := Function.update s.threads t th }

/-- A thread makes a call, with a key strictly between those of the sentinels. -/
def callStep (s : ListState V) (t : ℕ) (op : Op V) : Option (ListState V) :=
  if (s.threads t).outside ∧ intptrMin < op.key ∧ op.key < intptrMax then
    some { s with threads := Function.update s.threads t ⟨[], op.pc s.head⟩ }
  else none

/-- The nodes from the head on, at most as many as there are fragments. -/
def ListState.chain (s : ListState V) : List ℕ :=
  Chain.follow s.mem.cells.link (s.mem.pool.capacity + 1) (some s.head)

/-- How often `mempool_alloc` can still succeed: for every fragment but the last of the pool. -/
def ListState.left (s : ListState V) : ℕ :=
  (Chain.follow s.mem.cells.link (s.mem.pool.capacity + 1) s.mem.pool.ends.head.ptr).length - 1

end CoopTasks.LockFreeList
