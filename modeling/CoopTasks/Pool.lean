import CoopTasks.Machine
import CoopTasks.Advance
import CoopTasks.SizeT

/-!
The memory pool of `collections.c`: fragments of one block, chained through their first bytes.

A fragment is named by its index in the block; `cells` holds its link word and the bytes after
it. Threads run `mempool_alloc` and `mempool_free` step by step on behalf of clients, and a
client may overwrite all of a fragment it owns. Counts are kept as the unbounded number whose
low 32 bits the source stores, and only these are compared.
-/

namespace CoopTasks.Pool

open CoopTasks.Chain CoopTasks.Append CoopTasks.Advance CoopTasks.SizeT

variable {D : Type*}

/-- `struct memory_pool`, without the block's address and the sizes. -/
structure MemoryPool where
  capacity : ℕ
  freeable : ℕ
  ends : Ends ℕ

/-- `MEMORY_FRAGMENT_MAKER()`: the link word of a fresh fragment. -/
def memoryFragmentMaker : Tagged ℕ := ⟨0, none⟩

/-- Where `internal_mempool_put` stands. -/
inductive PutCall
  | init
  | loop (pc : PutPc ℕ)
  | count
  deriving DecidableEq, Repr

/-- One step of `internal_mempool_put`; `none` in the last component is its return. -/
def internalMempoolPut (weak : Bool) (frag : ℕ) (self : MemoryPool) (C : Cells ℕ D) :
    PutCall → Option (MemoryPool × Cells ℕ D × Option PutCall)
  | .init => some (self, C.write frag memoryFragmentMaker, some (.loop .loadTail))
  | .loop pc => (putStep weak frag self.ends C pc).map fun (E, C', r) =>
    ({ self with ends := E }, C', some (r.elim .count .loop))
  | .count => some ({ self with freeable := sizeAdd self.freeable 1 }, C, none)

/-- Where `internal_mempool_pick` stands. -/
inductive PickCall (D : Type*)
  | loop (pc : TakePc ℕ D)
  | count (frag : ℕ)
  deriving DecidableEq, Repr

/-- How a step of `internal_mempool_pick` ends: it goes on or returns, `none` with `ENOMEM`. -/
inductive PickRes (D : Type*)
  | more (pc : PickCall D)
  | ret (frag : Option ℕ)

/-- One step of `internal_mempool_pick`. -/
def internalMempoolPick (weak : Bool) (self : MemoryPool) (C : Cells ℕ D) :
    PickCall D → Option (MemoryPool × PickRes D)
  | .loop pc => (takeStep weak false self.ends C pc).map fun (E, r) =>
    ({ self with ends := E },
      match r with
      | .more pc' => .more (.loop pc')
      | .empty => .ret none
      | .took n _ => .more (.count n))
  | .count frag =>
    some ({ self with freeable := sizeSub self.freeable 1 }, .ret (some frag))

/-- Where `internal_mempool_setup` stands: at its stores, at the loop test, or in a put. -/
inductive SetupCall
  | start
  | test (i : ℕ)
  | put (i : ℕ) (pc : PutCall)
  deriving DecidableEq, Repr

/-- One step of `internal_mempool_setup`; `none` in the last component is its return. -/
def internalMempoolSetup (weak : Bool) (self : MemoryPool) (C : Cells ℕ D) :
    SetupCall → Option (MemoryPool × Cells ℕ D × Option SetupCall)
  | .start =>
    some (⟨self.capacity, 0, ⟨⟨0, some 0⟩, ⟨0, some 0⟩⟩⟩, C.write 0 memoryFragmentMaker,
      some (.test 1))
  | .test i =>
    if i < sizeAdd self.capacity 1 then some (self, C, some (.put i .init))
    else some (self, C, none)
  | .put i pc => (internalMempoolPut weak i self C pc).map fun (P, C', r) =>
    (P, C', some (r.elim (.test (i + 1)) (.put i)))

/-- What a thread is doing to the pool; `returned` holds what its last call gave back. -/
inductive Call (D : Type*)
  | idle
  | returned (frag : Option ℕ)
  | alloc (client : ℕ) (pc : PickCall D)
  | free (frag : ℕ) (pc : PutCall)
  | setup (pc : SetupCall)
  deriving DecidableEq, Repr

/-- The pool, its memory, the fragments each client owns, and each thread's call. -/
structure PoolState (D : Type*) where
  pool : MemoryPool
  cells : Cells ℕ D
  owns : ℕ → List ℕ
  calls : ℕ → Call D

inductive Act (D : Type*)
  | callAlloc (t client : ℕ)
  | callFree (t client frag : ℕ)
  | write (client frag : ℕ) (link : Tagged ℕ) (data : D)
  | step (t : ℕ) (weak : Bool)

def PoolState.setCall (s : PoolState D) (t : ℕ) (c : Call D) : PoolState D :=
  { s with calls := Function.update s.calls t c }

/-- Whether a thread is outside `mempool_alloc` and `mempool_free`. -/
def Call.outside : Call D → Bool
  | .idle | .returned _ => true
  | _ => false

/-- The thread `t` takes its next step. -/
def threadStep (s : PoolState D) (t : ℕ) (weak : Bool) : Option (PoolState D) :=
  match s.calls t with
  | .idle | .returned _ => none
  | .alloc client pc => (internalMempoolPick weak s.pool s.cells pc).map fun (P, r) =>
    match r with
    | .more pc' => { s with pool := P }.setCall t (.alloc client pc')
    | .ret none => { s with pool := P }.setCall t (.returned none)
    | .ret (some f) =>
      { s with pool := P, owns := Function.update s.owns client (f :: s.owns client) }.setCall t
        (.returned (some f))
  | .free f pc => (internalMempoolPut weak f s.pool s.cells pc).map fun (P, C, r) =>
    { s with pool := P, cells := C }.setCall t (r.elim (.returned none) (.free f))
  | .setup pc => (internalMempoolSetup weak s.pool s.cells pc).map fun (P, C, r) =>
    { s with pool := P, cells := C }.setCall t (r.elim (.returned none) .setup)

/-- A client calls `mempool_alloc`, gives a fragment it owns to `mempool_free`, or overwrites
one it owns; or a thread inside a call takes its next step. -/
def next (s : PoolState D) : Act D → Option (PoolState D)
  | .callAlloc t client =>
    if (s.calls t).outside then some (s.setCall t (.alloc client (.loop .loadHead))) else none
  | .callFree t client f =>
    if (s.calls t).outside ∧ f ∈ s.owns client then
      some ({ s with owns := Function.update s.owns client ((s.owns client).erase f) }.setCall t
        (.free f .init))
    else none
  | .write client f v d =>
    if f ∈ s.owns client then some { s with cells := (s.cells.write f v).setData f d } else none
  | .step t weak => threadStep s t weak

/-- The chain from `self->head`, followed for at most as many links as there are fragments. -/
def PoolState.chain (s : PoolState D) : List ℕ :=
  follow s.cells.link (s.pool.capacity + 1) s.pool.ends.head.ptr

/-- The words that the step finds equal are the words its thread read. -/
def CallFresh (weak : Bool) (E : Ends ℕ) (C : Cells ℕ D) (c : List ℕ) : Call D → Prop
  | .alloc _ (.loop pc) => TakeFresh weak E pc
  | .free _ (.loop pc) | .setup (.put _ (.loop pc)) => PutFresh weak E C c pc
  | _ => True

instance (weak : Bool) (E : Ends ℕ) (C : Cells ℕ D) (c : List ℕ) :
    (call : Call D) → Decidable (CallFresh weak E C c call)
  | .alloc _ (.loop pc) => inferInstanceAs (Decidable (TakeFresh weak E pc))
  | .free _ (.loop pc) | .setup (.put _ (.loop pc)) =>
    inferInstanceAs (Decidable (PutFresh weak E C c pc))
  | .idle | .returned _ | .alloc _ (.count _) | .free _ .init | .free _ .count | .setup .start
  | .setup (.test _) | .setup (.put _ .init) | .setup (.put _ .count) =>
    inferInstanceAs (Decidable True)

/-- No step of the run is deceived by a word that was replaced and looks the same again. -/
def Fresh (s : PoolState D) : Act D → Prop
  | .step t weak => CallFresh weak s.pool.ends s.cells s.chain (s.calls t)
  | _ => True

instance (s : PoolState D) : (a : Act D) → Decidable (Fresh s a)
  | .step t weak =>
    inferInstanceAs (Decidable (CallFresh weak s.pool.ends s.cells s.chain (s.calls t)))
  | .callAlloc _ _ | .callFree _ _ _ | .write _ _ _ _ => inferInstanceAs (Decidable True)

/-- Whether this is a step of the thread `t` inside a call. -/
def Act.isStep (t : ℕ) : Act D → Bool
  | .step u _ => u == t
  | _ => false

/-- Whether no compare-exchange of the step fails spuriously. -/
def Act.strong : Act D → Bool
  | .step _ weak => !weak
  | _ => true

/-- The block as `calloc` returns it, with thread 0 about to run `internal_mempool_setup`. -/
def raw (capacity : ℕ) (d : D) : PoolState D where
  pool := ⟨capacity, 0, ⟨⟨0, none⟩, ⟨0, none⟩⟩⟩
  cells := ⟨fun _ => ⟨0, none⟩, fun _ => d, fun _ => 0⟩
  owns := fun _ => []
  calls := fun t => if t = 0 then .setup .start else .idle

/-- `mempool_create` has returned: thread 0 has run the set-up to its end, alone. -/
def Created (capacity : ℕ) (d : D) (s : PoolState D) : Prop :=
  Machine.Reach next (fun _ a => a.isStep 0 = true) (raw capacity d) s ∧
    s.calls 0 = .returned none

/-- The fragment a put holds until it is linked. -/
def PutCall.held (f : ℕ) : PutCall → Option ℕ
  | .init => some f
  | .loop pc => if pc.linked then none else some f
  | .count => none

/-- The fragment a call in progress holds. -/
def Call.held : Call D → Option ℕ
  | .alloc _ (.count f) => some f
  | .free f pc | .setup (.put f pc) => pc.held f
  | _ => none

inductive Place
  | chain
  | call (t : ℕ)
  | client (o : ℕ)
  deriving DecidableEq, Repr

/-- Where a fragment is. -/
def At (s : PoolState D) (c : List ℕ) (f : ℕ) : Place → Prop
  | .chain => f ∈ c
  | .call t => (s.calls t).held = some f
  | .client o => f ∈ s.owns o

end CoopTasks.Pool
