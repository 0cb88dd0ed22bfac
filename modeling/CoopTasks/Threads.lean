import CoopTasks.Machine
import Mathlib.Data.Int.Notation

/-!
The threads of `threads_posix.c`: how `thrd_create` starts one, how it registers itself, and
how it is cleaned up.

A call of `thrd_create` and the thread it starts have one number. A block of the pool `buckets`
carries the start data from the caller to the thread, and the thread gives it back before it
has read all of it; the list `tcbs` and the pools are a map and two FIFO pools.
-/

namespace CoopTasks.Threads

/-- `MAX_THREADS`. -/
def maxThreads : ℕ := 256

/-- The capacity of `buckets`. -/
def maxBuckets : ℕ := 10

def enomem : ℤ := 12

/-- `mempool_alloc`: the oldest free fragment, but never the last one. -/
def mempoolAlloc : List ℕ → Option (ℕ × List ℕ)
  | a :: b :: r => some (a, b :: r)
  | _ => none

/-- `mempool_free`. -/
def mempoolFree (free : List ℕ) (a : ℕ) : List ℕ := free ++ [a]

/-- `struct thread_control_block` in a bucket: what `internal_entry` reads of it. `call` is the
call of `thrd_create` that wrote it. -/
structure Tcb (F A : Type*) where
  thr : ℕ
  func : F
  arg : A
  prms : Option ℕ
  suspend : Option ℕ
  call : ℕ

/-- An entry of `tcbs`; `thread` is the thread that inserted it. -/
structure Entry where
  key : ℕ
  suspend : Option ℕ
  thread : ℕ
  deriving DecidableEq, Repr

/-- Where a call of `thrd_create` stands; `lost` is one whose `pthread_create` failed. -/
inductive CreatePc
  | idle
  | alloc
  | write (b : ℕ)
  | create (b : ℕ)
  | wait
  | lost (b : ℕ)
  | ret (res : ℤ)
  deriving DecidableEq, Repr

/-- Where a thread stands: in `internal_entry`, in its function, or in its clean-up. -/
inductive EntryPc (F A : Type*)
  | unborn
  | setThr
  | allocSuspend
  | initSem
  | insert
  | keyCreate
  | setSpecific
  | freeBucket
  | readSuspend
  | readPrms
  | setPrms (p : Option ℕ)
  | clearPrms
  | readFunc
  | readArg (f : F)
  | call (f : F) (a : A)
  | running
  | failFree
  | failRead
  | failSet (p : Option ℕ)
  | destructors
  | listDelete
  | freeSuspend (sem : Option ℕ)
  | keyDelete
  | finished
  deriving DecidableEq, Repr

variable {F A : Type*}

/-- The globals of the file, the memory of the buckets, the keys of the process with each
thread's values (true if not null), the promises, and each call and thread. `sem` is the
semaphore a thread has taken; `failed`, `sets` and `ran` record failed starts, the values set
to promises with the thread that set them, and the functions called. -/
structure State (F A : Type*) where
  tcbs : List Entry
  suspends : List ℕ
  buckets : List ℕ
  block : ℕ → Tcb F A
  tcbKey : ℕ
  keys : List ℕ
  value : ℕ → ℕ → Bool
  promise : ℕ → Option ℤ
  suspend : ℕ → Option ℕ
  func : ℕ → F
  arg : ℕ → A
  creators : ℕ → CreatePc
  threads : ℕ → EntryPc F A
  tcb : ℕ → ℕ
  handle : ℕ → ℕ
  count : ℕ
  sem : ℕ → Option ℕ
  failed : List ℕ
  sets : List (ℕ × ℕ × ℤ)
  ran : List (ℕ × F × A)

def State.go (s : State F A) (t : ℕ) (pc : EntryPc F A) : State F A :=
  { s with threads := Function.update s.threads t pc }

def State.setTcb (s : State F A) (b : ℕ) (d : Tcb F A) : State F A :=
  { s with block := Function.update s.block b d }

/-- `promise_set_value(p, v)`, called by the thread `t`. -/
def promiseSetValue (s : State F A) (t : ℕ) (v : ℤ) : Option ℕ → State F A
  | none => s
  | some p =>
    { s with promise := Function.update s.promise p (some v), sets := s.sets ++ [(p, t, v)] }

/-- `list_insert(&tcbs, e.key, ...)`. -/
def listInsert (l : List Entry) (e : Entry) : Option (List Entry) :=
  if (∃ e' ∈ l, e'.key = e.key) ∨ maxThreads ≤ l.length then none else some (l ++ [e])

/-- The key whose destructor runs next when the thread `t` exits. -/
def dueKey (s : State F A) (t : ℕ) : Option ℕ := s.keys.find? (s.value t ·)

/-- What can happen: a call of `thrd_create` (`f` is `none` when an argument is a null pointer that
may not be one), its next step, the start of its thread, or the
failure of that; a step of a thread, in which `key` is what `pthread_key_create` stores and
`ok` tells whether `sem_init` succeeds; and the end of a thread's function, by its return, by
`thrd_exit` or by cancellation. -/
inductive Act (F A : Type*)
  | call (f : Option F) (a : A)
  | create (c : ℕ)
  | start (c h : ℕ)
  | startFail (c : ℕ)
  | step (t key : ℕ) (ok : Bool)
  | exit (t : ℕ)

/-- One step of `thrd_create`, up to `pthread_create` and after it. -/
def thrdCreate (s : State F A) (c : ℕ) : Option (State F A) :=
  let go (s : State F A) (pc : CreatePc) : State F A :=
    { s with creators := Function.update s.creators c pc }
  match s.creators c with
  | .alloc =>
    match mempoolAlloc s.buckets with
    | some (b, l) => some (go { s with buckets := l } (.write b))
    | none => some (go s (.ret (-1)))
  | .write b => some (go (s.setTcb b ⟨0, s.func c, s.arg c, some c, none, c⟩) (.create b))
  | .wait => (s.promise c).map fun v => go s (.ret (if v < 0 then -1 else 0))
  | _ => none

/-- One step of `internal_entry`, and of `internal_task_finalizer` at the end. -/
def internalEntry (s : State F A) (t key : ℕ) (ok : Bool) : Option (State F A) :=
  let b := s.tcb t
  let tcb := s.block b
  match s.threads t with
  | .setThr => some ((s.setTcb b { tcb with thr := s.handle t }).go t .allocSuspend)
  | .allocSuspend =>
    match mempoolAlloc s.suspends with
    | some (sem, l) =>
      some ({ s.setTcb b { tcb with suspend := some sem } with
        suspends := l, sem := Function.update s.sem t (some sem) }.go t .initSem)
    | none =>
      some ({ s.setTcb b { tcb with suspend := none } with failed := t :: s.failed }.go t .failFree)
  | .initSem =>
    if ok then some (s.go t .insert)
    else some ({ s with failed := t :: s.failed }.go t .failFree)
  | .insert =>
    match listInsert s.tcbs ⟨tcb.thr, tcb.suspend, t⟩ with
    | some l => some ({ s with tcbs := l }.go t .keyCreate)
    | none => some ({ s with failed := t :: s.failed }.go t .failFree)
  | .keyCreate =>
    if key ∈ s.keys then none
    else some ({ s with
      keys := key :: s.keys
      value := fun u k => if k = key then false else s.value u k
      tcbKey := key }.go t .setSpecific)
  | .setSpecific =>
    if s.tcbKey ∈ s.keys then
      some ({ s with
        value := Function.update s.value t (Function.update (s.value t) s.tcbKey true) }.go t
          .freeBucket)
    else some (s.go t .freeBucket)
  | .freeBucket => some ({ s with buckets := mempoolFree s.buckets b }.go t .readSuspend)
  | .readSuspend =>
    some ({ s with suspend := Function.update s.suspend t tcb.suspend }.go t .readPrms)
  | .readPrms => some (s.go t (.setPrms tcb.prms))
  | .setPrms p => some ((promiseSetValue s t 0 p).go t .clearPrms)
  | .clearPrms => some ((s.setTcb b { tcb with prms := none }).go t .readFunc)
  | .readFunc => some (s.go t (.readArg tcb.func))
  | .readArg f => some (s.go t (.call f tcb.arg))
  | .call f a => some ({ s with ran := s.ran ++ [(t, f, a)] }.go t .running)
  | .failFree => some ({ s with buckets := mempoolFree s.buckets b }.go t .failRead)
  | .failRead => some (s.go t (.failSet tcb.prms))
  | .failSet p => some ((promiseSetValue s t (-enomem) p).go t .destructors)
  | .destructors =>
    match dueKey s t with
    | some k =>
      some ({ s with
        value := Function.update s.value t (Function.update (s.value t) k false) }.go t .listDelete)
    | none => some (s.go t .finished)
  | .listDelete =>
    -- without an entry, the finalizer would go on with a block that it never filled
    (s.tcbs.find? fun e => e.key = s.handle t).map fun e =>
      { s with tcbs := s.tcbs.erase e }.go t (.freeSuspend e.suspend)
  | .freeSuspend sem => sem.map fun a =>
    { s with
      suspends := mempoolFree s.suspends a
      sem := Function.update s.sem t none }.go t .keyDelete
  | .keyDelete => some ({ s with keys := s.keys.erase s.tcbKey }.go t .destructors)
  | .unborn | .running | .finished => none

/-- The thread is between `pthread_create` and its end. -/
def EntryPc.live : EntryPc F A → Bool
  | .unborn | .finished => false
  | _ => true

def next (s : State F A) : Act F A → Option (State F A)
  | .call none _ => some s
  | .call (some f) a =>
    some { s with
      func := Function.update s.func s.count f
      arg := Function.update s.arg s.count a
      creators := Function.update s.creators s.count .alloc
      count := s.count + 1 }
  | .create c => thrdCreate s c
  | .start c h =>
    match s.creators c with
    | .create b =>
      if ∀ u < s.count, (s.threads u).live = true → s.handle u ≠ h then
        some { s with
          creators := Function.update s.creators c .wait
          threads := Function.update s.threads c .setThr
          tcb := Function.update s.tcb c b
          handle := Function.update s.handle c h }
      else none
    | _ => none
  | .startFail c =>
    match s.creators c with
    | .create b => some { s with creators := Function.update s.creators c (.lost b) }
    | _ => none
  | .step t key ok => internalEntry s t key ok
  | .exit t =>
    match s.threads t with
    | .running => some (s.go t .destructors)
    | _ => none

/-- The process after `tcb_initialize`. -/
def initial (f : F) (a : A) : State F A where
  tcbs := []
  suspends := List.range (maxThreads + 1)
  buckets := List.range (maxBuckets + 1)
  block := fun _ => ⟨0, f, a, none, none, 0⟩
  tcbKey := 0
  keys := []
  value := fun _ _ => false
  promise := fun _ => none
  suspend := fun _ => none
  func := fun _ => f
  arg := fun _ => a
  creators := fun _ => .idle
  threads := fun _ => .unborn
  tcb := fun _ => 0
  handle := fun _ => 0
  count := 0
  sem := fun _ => none
  failed := []
  sets := []
  ran := []

/-! ### Schedules -/

/-- A call of `thrd_create` that starts the thread `t`, with the handle `t + 1`. -/
def creation (t : ℕ) : List (Act ℕ ℕ) :=
  [.call (some t) 0, .create t, .create t, .start t (t + 1)]

/-- The steps that bring the thread `t` from its start into its function. -/
def setUp (t key : ℕ) : List (Act ℕ ℕ) := List.replicate 14 (.step t key true)

/-- The end of the thread `t`. -/
def cleanUp (t : ℕ) : List (Act ℕ ℕ) := .exit t :: List.replicate 5 (.step t 0 true)

end CoopTasks.Threads
