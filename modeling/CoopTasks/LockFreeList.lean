import CoopTasks.Machine
import CoopTasks.PoolLayout
import Mathlib.Data.Int.Notation

/-!
The list operations of `collections.c` as programs: what a thread does next, and what it does
with the answer.

A thread runs one call. It stands at a place of the function it is in, and calls of
`help_flagged`, which may nest, wait on a stack above it; `help_marked` and `try_mark` are places
of their callers. Each place makes one access to memory, a `Cmd`, so that the programs do not
depend on how the memory behaves. `same` compares two addresses.
-/

namespace CoopTasks.LockFreeList

open CoopTasks.Pool (Errno)

/-- `INTPTR_MIN`, the key of the head. -/
def intptrMin : ℤ := -2 ^ 63

/-- `INTPTR_MAX`, the key of the tail. -/
def intptrMax : ℤ := 2 ^ 63 - 1

/-- `UINT32_MAX`. -/
def uint32Max : ℕ := 2 ^ 32 - 1

variable {N V R S : Type*}

/-- `struct list_node_ref`. -/
structure Ref (N : Type*) where
  node : Option N
  marked : Bool
  flagged : Bool
  deriving DecidableEq, Repr

@[simps] def getMarkedRef (n : Option N) : Ref N := ⟨n, true, false⟩
@[simps] def getUnmarkedRef (n : Option N) : Ref N := ⟨n, false, false⟩
@[simps] def getFlaggedRef (n : Option N) : Ref N := ⟨n, false, true⟩
@[simps] def getUnflaggedRef (n : Option N) : Ref N := ⟨n, false, false⟩

/-- The test `!is_marked(result) && is_flagged(result)`. -/
def Ref.isFlag (r : Ref N) : Bool := !r.marked && r.flagged

/-- `struct list_node`; `val` is `none` until something is copied there. -/
structure Node (N V : Type*) where
  succ : Ref N
  backlink : Option N
  key : ℤ
  val : Option V

/-- One access to memory, and what comes after it. -/
inductive Cmd (N V R : Type*)
  | load (n : N) (k : Ref N → R)
  | cas (n : N) (exp new : Ref N) (k : Bool → R)
  | store (n : N) (r : Ref N) (k : R)
  | loadKey (n : N) (k : ℤ → R)
  | storeKey (n : N) (key : ℤ) (k : R)
  | loadBacklink (n : N) (k : Option N → R)
  | storeBacklink (n : N) (b : Option N) (k : R)
  | loadVal (n : N) (k : Option V → R)
  | storeVal (n : N) (v : V) (k : R)
  | alloc (k : Option N → R)
  | free (n : N) (k : R)
  | loadReaders (k : ℕ → R)
  | casReaders (exp new : ℕ) (k : Bool → R)
  | subReaders (k : R)
  | initReaders (k : R)

def Cmd.map (f : R → S) : Cmd N V R → Cmd N V S
  | .load n k => .load n (f ∘ k)
  | .cas n exp new k => .cas n exp new (f ∘ k)
  | .store n r k => .store n r (f k)
  | .loadKey n k => .loadKey n (f ∘ k)
  | .storeKey n key k => .storeKey n key (f k)
  | .loadBacklink n k => .loadBacklink n (f ∘ k)
  | .storeBacklink n b k => .storeBacklink n b (f k)
  | .loadVal n k => .loadVal n (f ∘ k)
  | .storeVal n v k => .storeVal n v (f k)
  | .alloc k => .alloc (f ∘ k)
  | .free n k => .free n (f k)
  | .loadReaders k => .loadReaders (f ∘ k)
  | .casReaders exp new k => .casReaders exp new (f ∘ k)
  | .subReaders k => .subReaders (f k)
  | .initReaders k => .initReaders (f k)

/-! ### Helping -/

/-- Where `help_marked` stands. -/
inductive HelpMarkedPc (N : Type*)
  | load
  | cas (next : Option N)
  deriving DecidableEq, Repr

/-- One step of `help_marked`; `none` is its return. -/
def helpMarked (prev del : N) : HelpMarkedPc N → Cmd N V (Option (HelpMarkedPc N))
  | .load => .load del fun r => some (.cas r.node)
  | .cas next => .cas prev (getFlaggedRef (some del)) (getUnflaggedRef next) fun _ => none

/-- Where `try_mark` stands. -/
inductive TryMarkPc (N : Type*)
  | load
  | cas (next : Option N)
  | result
  | test
  deriving DecidableEq, Repr

/-- How a step of `try_mark` ends: it goes on, calls `help_flagged`, or returns. -/
inductive TryMarkRes (N : Type*)
  | more (pc : TryMarkPc N)
  | help (node : Option N)
  | ret

/-- One step of `try_mark`. -/
def tryMark (del : N) : TryMarkPc N → Cmd N V (TryMarkRes N)
  | .load => .load del fun r => .more (.cas r.node)
  | .cas next => .cas del (getUnmarkedRef next) (getMarkedRef next) fun _ => .more .result
  | .result => .load del fun r => bif r.isFlag then .help r.node else .more .test
  | .test => .load del fun r => bif r.marked then .ret else .more .load

/-- Where `help_flagged` stands. -/
inductive HelpFlaggedPc (N : Type*)
  | backlink
  | test
  | tryMark (pc : TryMarkPc N)
  | helpMarked (pc : HelpMarkedPc N)
  deriving DecidableEq, Repr

/-- A call of `help_flagged`. -/
structure HelpFlagged (N : Type*) where
  prev : N
  del : N
  pc : HelpFlaggedPc N
  deriving DecidableEq, Repr

/-- `help_flagged` is called. -/
def HelpFlagged.call (prev del : N) : HelpFlagged N := ⟨prev, del, .backlink⟩

/-- One step of the innermost call of `help_flagged`: the calls that are then in progress, or
`none` before a null pointer is followed. -/
def helpFlagged (f : HelpFlagged N) : Cmd N V (Option (List (HelpFlagged N))) :=
  match f.pc with
  | .backlink => .storeBacklink f.del (some f.prev) (some [{ f with pc := .test }])
  | .test => .load f.del fun r =>
    bif r.marked then some [{ f with pc := .helpMarked .load }]
    else some [{ f with pc := .tryMark .load }]
  | .tryMark pc => (tryMark f.del pc).map fun
    | .more pc' => some [{ f with pc := .tryMark pc' }]
    | .help node => node.map fun n => [.call f.del n, { f with pc := .tryMark .test }]
    | .ret => some [{ f with pc := .helpMarked .load }]
  | .helpMarked pc => (helpMarked f.prev f.del pc).map fun
    | some pc' => some [{ f with pc := .helpMarked pc' }]
    | none => some []

/-! ### Searching -/

/-- Where `search_from` stands, with its `curr` and `next`. -/
inductive SearchPc (N : Type*)
  | load (curr : N)
  | testKey (curr next : N)
  | nextMarked (curr next : N)
  | currMarked (curr next : N)
  | differs (curr next : N)
  | agrees (curr next : N)
  | helpMarked (curr next : N) (pc : HelpMarkedPc N)
  | reload (curr : N)
  | advance (curr next : N)
  deriving DecidableEq, Repr

/-- How a step of `search_from` ends: it goes on, returns, or has a null pointer to follow. -/
inductive SearchRes (N : Type*)
  | more (pc : SearchPc N)
  | ret (curr next : N)
  | null

/-- Go on with a pointer that is followed next. -/
def SearchRes.follow (n : Option N) (k : N → SearchPc N) : SearchRes N :=
  match n with
  | some n => .more (k n)
  | none => .null

/-- Whether a pointer is the address of a node. -/
def isNode (same : N → N → Bool) (p : Option N) (n : N) : Bool := p.any (same n)

/-- One step of `search_from`. -/
def searchFrom (same : N → N → Bool) (key : ℤ) : SearchPc N → Cmd N V (SearchRes N)
  | .load curr => .load curr fun r => .follow r.node (.testKey curr)
  | .testKey curr next => .loadKey next fun k =>
    if k ≤ key then .more (.nextMarked curr next) else .ret curr next
  | .nextMarked curr next => .load next fun r =>
    bif r.marked then .more (.currMarked curr next) else .more (.advance curr next)
  | .currMarked curr next => .load curr fun r =>
    bif r.marked then .more (.differs curr next) else .more (.agrees curr next)
  | .differs curr next => .load curr fun r =>
    bif isNode same r.node next then .more (.advance curr next) else .more (.agrees curr next)
  | .agrees curr next => .load curr fun r =>
    bif isNode same r.node next then .more (.helpMarked curr next .load) else .more (.reload curr)
  | .helpMarked curr next pc => (helpMarked curr next pc).map fun
    | some pc' => .more (.helpMarked curr next pc')
    | none => .more (.reload curr)
  | .reload curr => .load curr fun r => .follow r.node (.nextMarked curr)
  | .advance curr next => .loadKey next fun k =>
    if k ≤ key then .more (.load next) else .more (.testKey curr next)

/-! ### The operations -/

/-- What a call returns: 0, with what was stored through `val`, or -1. -/
inductive Res (V : Type*)
  | ok (val : Option (Option V))
  | fail (errno : Option Errno)
  deriving DecidableEq, Repr

/-- Where `list_insert` stands after its first `search_from`. -/
inductive InsertPc (N : Type*)
  | checkFirst (prev next : N)
  | alloc (prev next : N)
  | initSucc (prev next node : N)
  | initBacklink (prev next node : N)
  | initKey (prev next node : N)
  | initVal (prev next node : N)
  | load (prev next node : N)
  | store (prev next node : N)
  | cas (prev next node : N)
  | result (prev node : N)
  | marked (prev node : N)
  | backlink (prev node : N)
  | checkAgain (prev next node : N)
  | free (node : N)
  deriving DecidableEq, Repr

/-- Where `try_flag` stands, but for the inner `search_from`. -/
inductive TryFlagPc
  | testNode
  | testMarked
  | testFlagged
  | cas
  | result
  | marked
  | backlink
  | key
  deriving DecidableEq, Repr

/-- Where a copy out of a node stands; `readers` is held from `copy` to `sub`. -/
inductive ReadPc (V : Type*)
  | load
  | cas (orig : ℕ)
  | copy
  | sub (v : Option V)
  deriving DecidableEq, Repr

/-- Where a copy into a node stands. -/
inductive WritePc
  | load
  | cas (orig : ℕ)
  | copy
  | init
  deriving DecidableEq, Repr

/-- Where `list_delete` stands after `search_from`, but for `try_flag`. -/
inductive DeletePc (N V : Type*)
  | check (prev : N)
  | read (pc : ReadPc V)
  | free (val : Option (Option V))
  deriving DecidableEq, Repr

/-- Which call of `search_from` is being made, with the caller's locals. -/
inductive Ctx (N V : Type*)
  | insertFirst (val : V)
  | insertAgain (val : V) (node : N)
  | delete (val : Bool)
  | tryFlag (key : ℤ) (val : Bool) (target : N)
  | search (val : Bool)
  | update (val : V)
  deriving DecidableEq, Repr

/-- Where a thread stands; `val` tells whether the caller wants the value. `null` is the place
before a null pointer is followed. -/
inductive Pc (N V : Type*)
  | idle
  | returned (r : Res V)
  | null
  | searchFrom (ctx : Ctx N V) (key : ℤ) (pc : SearchPc N)
  | insert (key : ℤ) (val : V) (pc : InsertPc N)
  | tryFlag (key : ℤ) (val : Bool) (prev target : N) (pc : TryFlagPc)
  | delete (key : ℤ) (val : Bool) (del : N) (pc : DeletePc N V)
  | searchCheck (key : ℤ) (val : Bool) (curr : N)
  | searchRead (key : ℤ) (target : N) (pc : ReadPc V)
  | updateCheck (key : ℤ) (val : V) (curr : N)
  | updateWrite (key : ℤ) (val : V) (target : N) (pc : WritePc)
  deriving DecidableEq, Repr

/-- A thread: its calls of `help_flagged`, innermost first, and where it stands below them or
will stand when they have returned. -/
structure Thread (N V : Type*) where
  helps : List (HelpFlagged N)
  pc : Pc N V
  deriving DecidableEq, Repr

/-- What follows the return of `search_from`. -/
def found (same : N → N → Bool) (key : ℤ) (curr next : N) : Ctx N V → Pc N V
  | .insertFirst val => .insert key val (.checkFirst curr next)
  | .insertAgain val node => .insert key val (.checkAgain curr next node)
  | .delete val => .delete (key + 1) val next (.check curr)
  | .tryFlag k val target =>
    bif same next target then .tryFlag k val curr target .testNode
    else .returned (.fail (some .enoent))
  | .search val => .searchCheck key val curr
  | .update val => .updateCheck key val curr

/-- One step of `list_insert` outside `search_from`. -/
def listInsert (key : ℤ) (val : V) : InsertPc N → Cmd N V (Thread N V)
  | .checkFirst prev next => .loadKey prev fun k =>
    if k = key then ⟨[], .returned (.fail (some .eexist))⟩
    else ⟨[], .insert key val (.alloc prev next)⟩
  | .alloc prev next => .alloc fun
    | none => ⟨[], .returned (.fail (some .enomem))⟩
    | some node => ⟨[], .insert key val (.initSucc prev next node)⟩
  | .initSucc prev next node =>
    .store node ⟨none, false, false⟩ ⟨[], .insert key val (.initBacklink prev next node)⟩
  | .initBacklink prev next node =>
    .storeBacklink node none ⟨[], .insert key val (.initKey prev next node)⟩
  | .initKey prev next node => .storeKey node key ⟨[], .insert key val (.initVal prev next node)⟩
  | .initVal prev next node => .storeVal node val ⟨[], .insert key val (.load prev next node)⟩
  | .load prev next node => .load prev fun r =>
    bif r.flagged then
      match r.node with
      | some del => ⟨[.call prev del], .searchFrom (.insertAgain val node) key (.load prev)⟩
      | none => ⟨[], .null⟩
    else ⟨[], .insert key val (.store prev next node)⟩
  | .store prev next node =>
    .store node (getUnmarkedRef (some next)) ⟨[], .insert key val (.cas prev next node)⟩
  | .cas prev next node =>
    .cas prev (getUnmarkedRef (some next)) (getUnmarkedRef (some node)) fun ok =>
      bif ok then ⟨[], .returned (.ok none)⟩ else ⟨[], .insert key val (.result prev node)⟩
  | .result prev node => .load prev fun r =>
    match r.isFlag, r.node with
    | true, some del => ⟨[.call prev del], .insert key val (.marked prev node)⟩
    | true, none => ⟨[], .null⟩
    | false, _ => ⟨[], .insert key val (.marked prev node)⟩
  | .marked prev node => .load prev fun r =>
    bif r.marked then ⟨[], .insert key val (.backlink prev node)⟩
    else ⟨[], .searchFrom (.insertAgain val node) key (.load prev)⟩
  | .backlink prev node => .loadBacklink prev fun
    | some prev' => ⟨[], .insert key val (.marked prev' node)⟩
    | none => ⟨[], .null⟩
  | .checkAgain prev next node => .loadKey prev fun k =>
    if k = key then ⟨[], .insert key val (.free node)⟩
    else ⟨[], .insert key val (.load prev next node)⟩
  | .free node => .free node ⟨[], .returned (.fail (some .eexist))⟩

/-- What follows the return of `try_flag` with a result: `list_delete` calls `help_flagged`, and
then fails or delivers the value and frees the node. -/
def flagged (key : ℤ) (val : Bool) (prev target : N) (deleted : Bool) : Thread N V :=
  ⟨[.call prev target],
    bif deleted then .delete key val target (bif val then .read .load else .free none)
    else .returned (.fail none)⟩

/-- One step of `try_flag` outside `search_from`. -/
def tryFlag (same : N → N → Bool) (key : ℤ) (val : Bool) (prev target : N) :
    TryFlagPc → Cmd N V (Thread N V)
  | .testNode => .load prev fun r =>
    bif isNode same r.node target then ⟨[], .tryFlag key val prev target .testMarked⟩
    else ⟨[], .tryFlag key val prev target .cas⟩
  | .testMarked => .load prev fun r =>
    bif r.marked then ⟨[], .tryFlag key val prev target .cas⟩
    else ⟨[], .tryFlag key val prev target .testFlagged⟩
  | .testFlagged => .load prev fun r =>
    bif r.flagged then flagged key val prev target false
    else ⟨[], .tryFlag key val prev target .cas⟩
  | .cas => .cas prev (getUnflaggedRef (some target)) (getFlaggedRef (some target)) fun ok =>
    bif ok then flagged key val prev target true else ⟨[], .tryFlag key val prev target .result⟩
  | .result => .load prev fun r =>
    bif isNode same r.node target && r.isFlag then flagged key val prev target false
    else ⟨[], .tryFlag key val prev target .marked⟩
  | .marked => .load prev fun r =>
    bif r.marked then ⟨[], .tryFlag key val prev target .backlink⟩
    else ⟨[], .tryFlag key val prev target .key⟩
  | .backlink => .loadBacklink prev fun
    | some prev' => ⟨[], .tryFlag key val prev' target .marked⟩
    | none => ⟨[], .null⟩
  | .key => .loadKey target fun k =>
    ⟨[], .searchFrom (.tryFlag key val target) (k - 1) (.load prev)⟩

/-- How a step of a copy out of a node ends. -/
inductive ReadRes (V : Type*)
  | more (pc : ReadPc V)
  | ret (v : Option V)

/-- One step of copying the value out of a node, with the other readers but no writer. -/
def readVal (n : N) : ReadPc V → Cmd N V (ReadRes V)
  | .load => .loadReaders fun orig =>
    if orig = uint32Max then .more .load else .more (.cas orig)
  | .cas orig => .casReaders orig (orig + 1) fun ok =>
    bif ok then .more .copy else .more .load
  | .copy => .loadVal n fun v => .more (.sub v)
  | .sub v => .subReaders (.ret v)

/-- One step of copying a value into a node, with no reader and no other writer; `none` is the
end. -/
def writeVal (n : N) (val : V) : WritePc → Cmd N V (Option WritePc)
  | .load => .loadReaders fun orig => if orig ≠ 0 then some .load else some (.cas orig)
  | .cas orig => .casReaders orig uint32Max fun ok => bif ok then some .copy else some .load
  | .copy => .storeVal n val (some .init)
  | .init => .initReaders none

/-- One step of `list_delete` outside `search_from` and `try_flag`. -/
def listDelete (key : ℤ) (val : Bool) (del : N) : DeletePc N V → Cmd N V (Thread N V)
  | .check prev => .loadKey del fun k =>
    if k = key then ⟨[], .tryFlag key val prev del .testNode⟩
    else ⟨[], .returned (.fail (some .enoent))⟩
  | .read pc => (readVal del pc).map fun
    | .more pc' => ⟨[], .delete key val del (.read pc')⟩
    | .ret v => ⟨[], .delete key val del (.free (some v))⟩
  | .free v => .free del ⟨[], .returned (.ok v)⟩

/-- What a thread does next below its calls of `help_flagged`; `none` outside calls. -/
def Pc.cmd (same : N → N → Bool) : Pc N V → Option (Cmd N V (Thread N V))
  | .idle | .returned _ | .null => none
  | .searchFrom ctx key pc => some ((LockFreeList.searchFrom same key pc).map fun
    | .more pc' => ⟨[], .searchFrom ctx key pc'⟩
    | .ret curr next => ⟨[], found same key curr next ctx⟩
    | .null => ⟨[], .null⟩)
  | .insert key val pc => some (listInsert key val pc)
  | .tryFlag key val prev target pc => some (LockFreeList.tryFlag same key val prev target pc)
  | .delete key val del pc => some (listDelete key val del pc)
  | .searchCheck key val curr => some (.loadKey curr fun k =>
    if k = key then
      bif val then ⟨[], .searchRead key curr .load⟩ else ⟨[], .returned (.ok none)⟩
    else ⟨[], .returned (.fail (some .enoent))⟩)
  | .searchRead key target pc => some ((readVal target pc).map fun
    | .more pc' => ⟨[], .searchRead key target pc'⟩
    | .ret v => ⟨[], .returned (.ok (some v))⟩)
  | .updateCheck key val curr => some (.loadKey curr fun k =>
    if k = key then ⟨[], .updateWrite key val curr .load⟩
    else ⟨[], .returned (.fail (some .enoent))⟩)
  | .updateWrite key val target pc => some ((writeVal target val pc).map fun
    | some pc' => ⟨[], .updateWrite key val target pc'⟩
    | none => ⟨[], .returned (.ok none)⟩)

/-- What a thread does next. -/
def Thread.cmd (same : N → N → Bool) (th : Thread N V) : Option (Cmd N V (Thread N V)) :=
  match th.helps with
  | [] => th.pc.cmd same
  | f :: fs => some ((helpFlagged f).map fun
    | some gs => ⟨gs ++ fs, th.pc⟩
    | none => ⟨[], .null⟩)

/-- A call. The `val` of `list_insert` and `list_update` is not null; for `list_delete` and
`list_search` it tells whether the pointer is not null. -/
inductive Op (V : Type*)
  | insert (key : ℤ) (val : V)
  | delete (key : ℤ) (val : Bool)
  | search (key : ℤ) (val : Bool)
  | update (key : ℤ) (val : V)
  deriving DecidableEq, Repr

def Op.key : Op V → ℤ
  | .insert key _ | .delete key _ | .search key _ | .update key _ => key

/-- Where a call begins. -/
def Op.pc (head : N) : Op V → Pc N V
  | .insert key val => .searchFrom (.insertFirst val) key (.load head)
  | .delete key val => .searchFrom (.delete val) (key - 1) (.load head)
  | .search key val => .searchFrom (.search val) key (.load head)
  | .update key val => .searchFrom (.update val) key (.load head)

/-- Whether a thread is outside the operations. -/
def Thread.outside (th : Thread N V) : Bool :=
  match th.helps, th.pc with
  | [], .idle | [], .returned _ => true
  | _, _ => false

end CoopTasks.LockFreeList
