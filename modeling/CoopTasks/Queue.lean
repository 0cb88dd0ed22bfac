import CoopTasks.PoolLayout

/-!
The queue of `collections.c`: a chain of nodes that come from a memory pool, the first of them
a dummy, with the values in the others.

A node is a fragment of the pool, and its `next` lies where the fragment has its link. Threads
run `queue_enqueue` and `queue_dequeue` step by step, the pool's steps included. Calls are
numbered, and a value carries the number of the call that brought it, so that equal bytes are
told apart; nothing in the source depends on the numbers.
-/

namespace CoopTasks.Queue

open CoopTasks.Chain CoopTasks.Append CoopTasks.Advance CoopTasks.SizeT
open CoopTasks.Pool (PoolState Errno)

variable {V : Type*}

/-- The bytes of a node, if any were put there, with the number of the call that did. -/
abbrev Item (V : Type*) := Option (ℕ × V)

/-- `QUEUE_VALUE_MAKER()`: the link word of a fresh node. -/
def queueValueMaker : Tagged ℕ := ⟨0, none⟩

/-- Where `queue_alloc_value` stands: in `mempool_alloc`, or at its stores. -/
inductive AllocPc
  | alloc
  | init (n : ℕ)
  | copy (n : ℕ)
  deriving DecidableEq, Repr

/-- How a step of `queue_alloc_value` ends: it goes on or returns. -/
inductive AllocRes
  | more (pc : AllocPc)
  | ret (n : Option ℕ)

/-- What a call has returned: 0 with what it stored through `val`, or -1. -/
inductive Res (V : Type*)
  | ok (val : Option (Item V))
  | fail (e : Errno)
  deriving DecidableEq, Repr

/-- What a thread is doing to the queue. -/
inductive Pc (V : Type*)
  | idle
  | returned (r : Res V)
  | createPool
  | createAlloc (pc : AllocPc)
  | createEnds (n : Option ℕ)
  | enqueueAlloc (call : ℕ) (v : V) (pc : AllocPc)
  | enqueueLoop (call n : ℕ) (pc : PutPc ℕ)
  | dequeueLoop (call : ℕ) (val : Bool) (pc : TakePc ℕ (Item V))
  | dequeueFree (call : ℕ) (val : Option (Item V))
  deriving DecidableEq, Repr

/-- What has happened: calls and returns, and the moment a dequeue moves the head. -/
inductive Event (V : Type*)
  | enqueue (call : ℕ) (v : V)
  | enqueued (call : ℕ)
  | dequeue (call : ℕ) (val : Bool)
  | take (call : ℕ) (item : Item V)
  | dequeued (call : ℕ) (val : Option (Item V))
  | failed (call : ℕ) (e : Errno)
  deriving DecidableEq, Repr

/-- The queue, its pool, what each thread is doing, and what has happened so far. -/
structure QueueState (V : Type*) where
  mem : PoolState (Item V)
  ends : Ends ℕ
  pcs : ℕ → Pc V
  count : ℕ
  log : List (Event V)

/-- `val` is `none` where a null pointer is passed, and tells for a dequeue whether the pointer
is not null. -/
inductive Act (V : Type*)
  | enqueue (t : ℕ) (val : Option V)
  | dequeue (t : ℕ) (val : Bool)
  | step (t : ℕ) (weak : Bool)

def QueueState.go (s : QueueState V) (t : ℕ) (pc : Pc V) : QueueState V :=
  { s with pcs := Function.update s.pcs t pc }

def QueueState.setCells (s : QueueState V) (C : Cells ℕ (Item V)) : QueueState V :=
  { s with mem := { s.mem with cells := C } }

def QueueState.note (s : QueueState V) (e : Event V) : QueueState V :=
  { s with log := s.log ++ [e] }

/-- The thread `t` calls `mempool_alloc`; the queue is the only client of its pool. -/
def mempoolAlloc (m : PoolState (Item V)) (t : ℕ) : PoolState (Item V) :=
  m.setCall t (.alloc 0 (.loop .loadHead))

/-- The thread `t` calls `mempool_free`. -/
def mempoolFree (m : PoolState (Item V)) (t n : ℕ) : PoolState (Item V) :=
  { m with owns := Function.update m.owns 0 ((m.owns 0).erase n) }.setCall t (.free n .init)

/-- One step of `queue_alloc_value` after `mempool_alloc` has returned. -/
def queueAllocValue (m : PoolState (Item V)) (t : ℕ) (val : Item V) :
    AllocPc → Option (Cells ℕ (Item V) × AllocRes)
  | .alloc =>
    match m.calls t with
    | .returned (some n) => some (m.cells, .more (.init n))
    | .returned none => some (m.cells, .ret none)
    | _ => none
  | .init n =>
    some (m.cells.write n queueValueMaker,
      bif val.isSome then .more (.copy n) else .ret (some n))
  | .copy n => some (m.cells.setData n val, .ret (some n))

/-- One step of `queue_create` after `mempool_create` has returned. -/
def queueCreateStep (s : QueueState V) (t : ℕ) : Pc V → Option (QueueState V)
  | .createPool => some ({ s with mem := mempoolAlloc s.mem t }.go t (.createAlloc .alloc))
  | .createAlloc pc => (queueAllocValue s.mem t none pc).map fun (C, r) =>
    match r with
    | .more pc' => (s.setCells C).go t (.createAlloc pc')
    | .ret n => (s.setCells C).go t (.createEnds n)
  | .createEnds n => some ({ s with ends := ⟨⟨0, n⟩, ⟨0, n⟩⟩ }.go t (.returned (.ok none)))
  | _ => none

/-- One step of `queue_enqueue` outside the pool. -/
def queueEnqueue (s : QueueState V) (t : ℕ) (weak : Bool) : Pc V → Option (QueueState V)
  | .enqueueAlloc call v pc => (queueAllocValue s.mem t (some (call, v)) pc).map fun (C, r) =>
    match r with
    | .more pc' => (s.setCells C).go t (.enqueueAlloc call v pc')
    | .ret none => ((s.setCells C).note (.failed call .enomem)).go t (.returned (.fail .enomem))
    | .ret (some n) => (s.setCells C).go t (.enqueueLoop call n .loadTail)
  | .enqueueLoop call n pc => (putStep weak n s.ends s.mem.cells pc).map fun (E, C, r) =>
    match r with
    | some pc' => ({ s with ends := E }.setCells C).go t (.enqueueLoop call n pc')
    | none =>
      (({ s with ends := E }.setCells C).note (.enqueued call)).go t (.returned (.ok none))
  | _ => none

/-- One step of `queue_dequeue` outside the pool. -/
def queueDequeue (s : QueueState V) (t : ℕ) (weak : Bool) : Pc V → Option (QueueState V)
  | .dequeueLoop call val pc => (takeStep weak val s.ends s.mem.cells pc).map fun (E, r) =>
    match r with
    | .more pc' => { s with ends := E }.go t (.dequeueLoop call val pc')
    | .empty => ({ s with ends := E }.note (.failed call .enoent)).go t (.returned (.fail .enoent))
    | .took n buf =>
      ({ s with ends := E, mem := mempoolFree s.mem t n }.note
        (.take call (E.head.ptr.bind s.mem.cells.data))).go t (.dequeueFree call buf)
  | .dequeueFree call buf => some ((s.note (.dequeued call buf)).go t (.returned (.ok buf)))
  | _ => none

/-- One step of the thread `t` outside the pool. -/
def queueStep (s : QueueState V) (t : ℕ) (weak : Bool) : Option (QueueState V) :=
  match s.pcs t with
  | .idle | .returned _ => none
  | .createPool | .createAlloc _ | .createEnds _ => queueCreateStep s t (s.pcs t)
  | .enqueueAlloc _ _ _ | .enqueueLoop _ _ _ => queueEnqueue s t weak (s.pcs t)
  | .dequeueLoop _ _ _ | .dequeueFree _ _ => queueDequeue s t weak (s.pcs t)

/-- The thread `t` takes its next step, in the pool if it is inside one of its calls. -/
def threadStep (s : QueueState V) (t : ℕ) (weak : Bool) : Option (QueueState V) :=
  bif (s.mem.calls t).outside then queueStep s t weak
  else (Pool.threadStep s.mem t weak).map fun m => { s with mem := m }

/-- Whether a thread is outside the calls of the queue. -/
def Pc.outside : Pc V → Bool
  | .idle | .returned _ => true
  | _ => false

/-- A thread calls `queue_enqueue` or `queue_dequeue`, or takes its next step in a call. -/
def next (s : QueueState V) : Act V → Option (QueueState V)
  | .enqueue t val => bif (s.pcs t).outside then
      match val with
      | none => some (({ s with count := s.count + 1 }.note (.failed s.count .einval)).go t
          (.returned (.fail .einval)))
      | some v => some (({ s with mem := mempoolAlloc s.mem t, count := s.count + 1 }.note
          (.enqueue s.count v)).go t (.enqueueAlloc s.count v .alloc))
    else none
  | .dequeue t val => bif (s.pcs t).outside then
      some (({ s with count := s.count + 1 }.note (.dequeue s.count val)).go t
        (.dequeueLoop s.count val .loadHead))
    else none
  | .step t weak => threadStep s t weak

/-- `sizeof(struct queue_value)`, a link word and no data. -/
def queueValueBytes : ℕ := 16

/-- `queue_create`, up to the call of `internal_mempool_setup`, made by thread 0. -/
def queueCreate (memory : Bool) (valBytes capacity : ℕ) : Except Errno (QueueState V) :=
  if valBytes = 0 ∨ capacity = 0 then .error .einval
  else (Pool.mempoolCreate memory (sizeAdd queueValueBytes valBytes) (sizeAdd capacity 1)
      none).map fun m =>
    ⟨m, ⟨⟨0, none⟩, ⟨0, none⟩⟩, fun t => if t = 0 then .createPool else .idle, 0, []⟩

/-- The queue of a pool of capacity `capacity + 1`, about to be made by thread 0. -/
def raw (capacity : ℕ) : QueueState V where
  mem := Pool.raw (sizeAdd capacity 1) none
  ends := ⟨⟨0, none⟩, ⟨0, none⟩⟩
  pcs := fun t => if t = 0 then .createPool else .idle
  count := 0
  log := []

/-- Whether this is a step of the thread `t` inside a call. -/
def Act.isStep (t : ℕ) : Act V → Bool
  | .step u _ => u == t
  | _ => false

/-- Whether no compare-exchange of the step fails spuriously. -/
def Act.strong : Act V → Bool
  | .step _ weak => !weak
  | _ => true

/-- `queue_create` has returned: thread 0 has run it to its end, alone. -/
def Created (capacity : ℕ) (s : QueueState V) : Prop :=
  Machine.Reach next (fun _ a => a.isStep 0 = true) (raw capacity) s ∧
    s.pcs 0 = .returned (.ok none)

/-- The chain from `self->head`, followed for at most as many links as there are nodes. -/
def QueueState.chain (s : QueueState V) : List ℕ :=
  follow s.mem.cells.link (s.mem.pool.capacity + 1) s.ends.head.ptr

/-- The words that the step finds equal are the words its thread read. -/
def PcFresh (weak : Bool) (E : Ends ℕ) (C : Cells ℕ (Item V)) (c : List ℕ) : Pc V → Prop
  | .enqueueLoop _ _ pc => PutFresh weak E C c pc
  | .dequeueLoop _ _ pc => TakeFresh weak E pc
  | _ => True

instance (weak : Bool) (E : Ends ℕ) (C : Cells ℕ (Item V)) (c : List ℕ) :
    (pc : Pc V) → Decidable (PcFresh weak E C c pc)
  | .enqueueLoop _ _ pc => inferInstanceAs (Decidable (PutFresh weak E C c pc))
  | .dequeueLoop _ _ pc => inferInstanceAs (Decidable (TakeFresh weak E pc))
  | .idle | .returned _ | .createPool | .createAlloc _ | .createEnds _ | .enqueueAlloc _ _ _
  | .dequeueFree _ _ => inferInstanceAs (Decidable True)

/-- No step of the run is deceived by a word that was replaced and looks the same again,
neither in the queue nor in its pool. -/
def Fresh (s : QueueState V) : Act V → Prop
  | .step t weak =>
    Pool.CallFresh weak s.mem.pool.ends s.mem.cells s.mem.chain (s.mem.calls t) ∧
      PcFresh weak s.ends s.mem.cells s.chain (s.pcs t)
  | _ => True

instance (s : QueueState V) : (a : Act V) → Decidable (Fresh s a)
  | .step t weak => inferInstanceAs (Decidable
    (Pool.CallFresh weak s.mem.pool.ends s.mem.cells s.mem.chain (s.mem.calls t) ∧
      PcFresh weak s.ends s.mem.cells s.chain (s.pcs t)))
  | .enqueue _ _ | .dequeue _ _ => inferInstanceAs (Decidable True)

/-- What the nodes after the one `self->head` points to hold. -/
def QueueState.queued (s : QueueState V) : List (Item V) := s.chain.tail.map s.mem.cells.data

/-- The node that `queue_alloc_value` holds, if `mempool_alloc` has come to an end. -/
def AllocPc.held (call : Pool.Call (Item V)) : AllocPc → Option ℕ
  | .alloc =>
    match call with
    | .returned n => n
    | _ => none
  | .init n | .copy n => some n

/-- The node that a thread holds and that is not yet on the chain. -/
def Pc.held (call : Pool.Call (Item V)) : Pc V → Option ℕ
  | .createAlloc pc | .enqueueAlloc _ _ pc => pc.held call
  | .createEnds n => n
  | .enqueueLoop _ n pc => bif pc.linked then none else some n
  | _ => none

inductive Place
  | chain
  | call (t : ℕ)
  deriving DecidableEq, Repr

/-- Where a node that was taken from the pool is. -/
def At (s : QueueState V) (c : List ℕ) (n : ℕ) : Place → Prop
  | .chain => n ∈ c
  | .call t => (s.pcs t).held (s.mem.calls t) = some n

end CoopTasks.Queue
