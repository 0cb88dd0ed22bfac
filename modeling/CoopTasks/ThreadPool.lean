import CoopTasks.Machine
import CoopTasks.SizeT
import Mathlib.Algebra.BigOperators.Group.Finset.Basic
import Mathlib.Data.Multiset.Basic

/-!
The thread pools of `thread_pool.c`: workers that share a queue, have one of their own each,
and steal from each other.

A step is one call of a queue, one access of a counter, or one operation on a mutex or a
condition variable. A job queue is a bounded FIFO. Everything in the file happens in a pool's
critical section, except for the jobs themselves and the creation of the workers.
-/

namespace CoopTasks.ThreadPool

open CoopTasks.SizeT

/-- `MAX_JOBS`. -/
def maxJobs : ℕ := 32

/-- How many workers a pool has. Each takes more than `MAX_JOBS` bytes of the block that
`thrdpool_create` got from `malloc`. -/
structure Workers where
  num : ℕ
  pos : 0 < num
  fits : num * maxJobs ≤ sizeMax

/-- A job as it is queued; `id` is the unbounded number whose low 32 bits the source stores, and
`outside` tells whether the thread that added it runs no worker. -/
structure Job (B : Type*) where
  id : ℕ
  body : B
  outside : Bool
  deriving DecidableEq, Repr

/-- A thread that runs a worker, or any other. -/
inductive Tid (Q : Type*)
  | outside (t : ℕ)
  | worker (q : Q) (i : ℕ)
  deriving DecidableEq, Repr

/-- Whether `ctx` is `NULL` in the thread. -/
def Tid.isOutside {Q : Type*} : Tid Q → Bool
  | .outside _ => true
  | .worker _ _ => false

/-- Where `thrdpool_add` stands; `ok` is whether `queue_enqueue` returned zero. -/
inductive AddPc
  | lock
  | enqueue
  | inc
  | broadcast (ok : Bool)
  | unlock (ok : Bool)
  deriving DecidableEq, Repr

/-- Where `job_seeking` stands. -/
inductive SeekPc (B : Type*)
  | count
  | own
  | steal (j : ℕ)
  | sub (job : Job B)
  | global
  deriving DecidableEq, Repr

/-- Where a thread stands: in no code of the pools (an outside thread, or a worker's job), in
`thrdpool_add`, or in the loop of `worker`. -/
inductive Pc (Q B : Type*)
  | rest
  | add (q : Q) (job : Job B) (pc : AddPc)
  | unborn
  | top
  | seek (pc : SeekPc B)
  | wait
  | waiting
  | woken
  | leave (job : Job B)
  deriving DecidableEq, Repr

/-- How far `worker_creator` is: about to create the worker `i`, or in the `pthread_create`
that will store its handle. -/
inductive Creator
  | create (i : ℕ)
  | store (i h : ℕ)
  deriving DecidableEq, Repr

/-- The worker that `worker_creator` is at. -/
def Creator.index : Creator → ℕ
  | .create i | .store i _ => i

/-- `struct thread_pool` with its workers' fields. `os` is the handle of the thread that runs
a worker, `thr` the worker's field for it; `accepted` and `taken` are the jobs that
`thrdpool_add` was given for this pool and the jobs its workers have taken. -/
structure Pool (Q B : Type*) where
  creator : Creator
  os : ℕ → Option ℕ
  thr : ℕ → ℕ
  seekMtx : Option (Tid Q)
  numLocalJobs : ℕ
  jobs : List (Job B)
  localJobs : ℕ → List (Job B)
  accepted : List (Job B)
  taken : List (Job B)

variable {Q B : Type*}

/-- `queue_enqueue` on a queue of capacity `MAX_JOBS`. -/
def queueEnqueue (q : List (Job B)) (job : Job B) : Option (List (Job B)) :=
  if q.length < maxJobs then some (q ++ [job]) else none

/-- `queue_dequeue`. -/
def queueDequeue : List (Job B) → Option (Job B × List (Job B))
  | [] => none
  | job :: q => some (job, q)

/-- How a step of `job_seeking` ends: it goes on or returns, `none` when it found nothing. -/
inductive SeekRes (B : Type*)
  | more (pc : SeekPc B)
  | ret (job : Option (Job B))

/-- Where a worker stands after a step of `job_seeking`. -/
def SeekRes.pc : SeekRes B → Pc Q B
  | .more pc => .seek pc
  | .ret (some job) => .leave job
  | .ret none => .wait

def Pool.setLocal (P : Pool Q B) (i : ℕ) (q : List (Job B)) : Pool Q B :=
  { P with localJobs := Function.update P.localJobs i q }

/-- One step of `job_seeking`, run by the worker `i`; `steal` is the loop of `work_steal`, whose
`int` counters reach all workers of a pool that has fewer than 2^31. -/
def jobSeeking (n i : ℕ) (P : Pool Q B) : SeekPc B → Pool Q B × SeekRes B
  | .count => (P, .more (if 0 < P.numLocalJobs then .own else .global))
  | .own =>
    match queueDequeue (P.localJobs i) with
    | some (job, q) => ({ P.setLocal i q with taken := P.taken ++ [job] }, .more (.sub job))
    | none => (P, .more (.steal 0))
  | .steal j =>
    if j < n then
      if P.thr j ≠ P.thr i then
        match queueDequeue (P.localJobs j) with
        | some (job, q) => ({ P.setLocal j q with taken := P.taken ++ [job] }, .more (.sub job))
        | none => (P, .more (.steal (j + 1)))
      else (P, .more (.steal (j + 1)))
    else (P, .more .global)
  | .sub job => ({ P with numLocalJobs := sizeSub P.numLocalJobs 1 }, .ret (some job))
  | .global =>
    match queueDequeue P.jobs with
    | some (job, q) => ({ P with jobs := q, taken := P.taken ++ [job] }, .ret (some job))
    | none => (P, .ret none)

/-- All pools of the process, its threads, the counter of `thrdpool_add`, and what each call of
it returned. -/
structure State (Q B : Type*) where
  pools : Q → Pool Q B
  pcs : Tid Q → Pc Q B
  juid : ℕ
  returns : List (Q × Job B × Bool)

/-- What can happen: a pool's first thread starts or its handle is stored, `worker_creator`
creates the next worker or fails to, a worker enters its loop, a thread calls `thrdpool_add`,
a job returns, a worker wakes up without having been woken, or a thread takes its next step. -/
inductive Act (Q B : Type*)
  | start (q : Q) (h : ℕ)
  | storeFirst (q : Q)
  | create (q : Q) (h : ℕ)
  | createFail (q : Q) (h : ℕ)
  | store (q : Q)
  | enter (q : Q) (i : ℕ)
  | call (t : Tid Q) (tp : Option Q) (job : Option B)
  | finish (q : Q) (i : ℕ)
  | spurious (q : Q) (i : ℕ)
  | step (t : Tid Q)

section Machine

variable [DecidableEq Q] (w : Q → Workers)

def State.setPool (s : State Q B) (q : Q) (P : Pool Q B) : State Q B :=
  { s with pools := Function.update s.pools q P }

def State.setPc (s : State Q B) (t : Tid Q) (pc : Pc Q B) : State Q B :=
  { s with pcs := Function.update s.pcs t pc }

/-- `pthread_cond_broadcast(&self->seek_cnd)`. -/
def State.wakeAll (s : State Q B) (q : Q) : State Q B :=
  { s with pcs := fun t =>
      match t, s.pcs t with
      | .worker p _, .waiting => if p = q then .woken else .waiting
      | _, pc => pc }

/-- One step of `thrdpool_add(q, job)`, called by the thread `t`: a worker's thread has `ctx`
set, and there the job goes to the worker's own queue. -/
def thrdpoolAdd (s : State Q B) (t : Tid Q) (q : Q) (job : Job B) :
    AddPc → Option (State Q B)
  | .lock =>
    if (s.pools q).seekMtx = none then
      some ((s.setPool q { s.pools q with seekMtx := some t }).setPc t (.add q job .enqueue))
    else none
  | .enqueue =>
    match t with
    | .worker p i =>
      match queueEnqueue ((s.pools p).localJobs i) job with
      | some l =>
        let s := s.setPool p ((s.pools p).setLocal i l)
        some ((s.setPool q { s.pools q with accepted := (s.pools q).accepted ++ [job] }).setPc t
          (.add q job .inc))
      | none => some (s.setPc t (.add q job (.broadcast false)))
    | .outside _ =>
      match queueEnqueue (s.pools q).jobs job with
      | some l =>
        some ((s.setPool q { s.pools q with
          jobs := l, accepted := (s.pools q).accepted ++ [job] }).setPc t
            (.add q job (.broadcast true)))
      | none => some (s.setPc t (.add q job (.broadcast false)))
  | .inc =>
    some ((s.setPool q { s.pools q with
      numLocalJobs := sizeAdd (s.pools q).numLocalJobs 1 }).setPc t (.add q job (.broadcast true)))
  | .broadcast ok => some ((s.wakeAll q).setPc t (.add q job (.unlock ok)))
  | .unlock ok =>
    some { (s.setPool q { s.pools q with seekMtx := none }).setPc t .rest with
      returns := s.returns ++ [(q, job, ok)] }

/-- One step of the loop of `worker`, run by the worker `i` of the pool `q`. -/
def worker (s : State Q B) (q : Q) (i : ℕ) : Pc Q B → Option (State Q B)
  | .top | .woken =>
    if (s.pools q).seekMtx = none then
      some ((s.setPool q { s.pools q with seekMtx := some (.worker q i) }).setPc (.worker q i)
        (.seek .count))
    else none
  | .seek pc =>
    let r := jobSeeking (w q).num i (s.pools q) pc
    some ((s.setPool q r.1).setPc (.worker q i) r.2.pc)
  | .wait => some ((s.setPool q { s.pools q with seekMtx := none }).setPc (.worker q i) .waiting)
  | .leave _ => some ((s.setPool q { s.pools q with seekMtx := none }).setPc (.worker q i) .rest)
  | _ => none

/-- A handle that no worker of the pool has. -/
def Fresh (n : ℕ) (P : Pool Q B) (h : ℕ) : Prop := h ≠ 0 ∧ ∀ i < n, P.os i ≠ some h

instance (n : ℕ) (P : Pool Q B) (h : ℕ) : Decidable (Fresh n P h) :=
  inferInstanceAs (Decidable (h ≠ 0 ∧ ∀ i < n, P.os i ≠ some h))

/-- The creation of a pool's workers. `pthread_create` may store the handle before or after
the thread starts; the first worker's thread runs `worker_creator` before its own loop. -/
def createStep (n : ℕ) (P : Pool Q B) : Act Q B → Option (Pool Q B)
  | .start _ h =>
    if P.os 0 = none ∧ Fresh n P h then some { P with os := Function.update P.os 0 (some h) }
    else none
  | .storeFirst _ => (P.os 0).map fun h => { P with thr := Function.update P.thr 0 h }
  | .create _ h =>
    match P.creator with
    | .create i =>
      if P.os 0 ≠ none ∧ i < n ∧ Fresh n P h then
        some { P with creator := .store i h, os := Function.update P.os i (some h) }
      else none
    | .store _ _ => none
  | .createFail _ h =>
    match P.creator with
    | .create i =>
      if P.os 0 ≠ none ∧ i < n then
        some { P with creator := .create (i + 1), thr := Function.update P.thr i h }
      else none
    | .store _ _ => none
  | .store _ =>
    match P.creator with
    | .create _ => none
    | .store i h => some { P with creator := .create (i + 1), thr := Function.update P.thr i h }
  | _ => none

/-- Whether `worker_creator` has created all workers. -/
def Creator.done (n : ℕ) : Creator → Bool
  | .create i => n ≤ i
  | .store _ _ => false

def next (s : State Q B) : Act Q B → Option (State Q B)
  | .start q h => (createStep (w q).num (s.pools q) (.start q h)).map (s.setPool q)
  | .storeFirst q => (createStep (w q).num (s.pools q) (.storeFirst q)).map (s.setPool q)
  | .create q h => (createStep (w q).num (s.pools q) (.create q h)).map (s.setPool q)
  | .createFail q h => (createStep (w q).num (s.pools q) (.createFail q h)).map (s.setPool q)
  | .store q => (createStep (w q).num (s.pools q) (.store q)).map (s.setPool q)
  | .enter q i =>
    match s.pcs (.worker q i) with
    | .unborn =>
      if i < (w q).num ∧ (s.pools q).os i ≠ none ∧
          (i = 0 → (s.pools q).creator.done (w q).num = true) then
        some (s.setPc (.worker q i) .top)
      else none
    | _ => none
  | .call t tp job =>
    match s.pcs t, tp, job with
    | .rest, some q, some b =>
      some { s.setPc t (.add q ⟨s.juid, b, t.isOutside⟩ .lock) with juid := s.juid + 1 }
    | .rest, _, _ => some s
    | _, _, _ => none
  | .finish q i =>
    match s.pcs (.worker q i) with
    | .rest => some (s.setPc (.worker q i) .top)
    | _ => none
  | .spurious q i =>
    match s.pcs (.worker q i) with
    | .waiting => some (s.setPc (.worker q i) .woken)
    | _ => none
  | .step t =>
    match s.pcs t, t with
    | .add q job pc, t => thrdpoolAdd s t q job pc
    | pc, .worker q i => worker w s q i pc
    | _, .outside _ => none

end Machine

/-- `THREAD_POOL_MAKER`, before any thread has started. -/
def newPool : Pool Q B where
  creator := .create 1
  os := fun _ => none
  thr := fun _ => 0
  seekMtx := none
  numLocalJobs := 0
  jobs := []
  localJobs := fun _ => []
  accepted := []
  taken := []

def initial : State Q B where
  pools := fun _ => newPool
  pcs := fun t =>
    match t with
    | .outside _ => .rest
    | .worker _ _ => .unborn
  juid := 0
  returns := []

end CoopTasks.ThreadPool
