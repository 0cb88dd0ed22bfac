import CoopTasks.QueueFifo
import CoopTasks.ThreadPoolDrain

/-!
The thread pools over the code of their queues.

A job queue is the queue of `collections.c` here, and not a FIFO whose calls are single steps: a
thread that calls one goes through the steps of `queue_enqueue` or `queue_dequeue`, and of the
memory pool below, while all other threads go on. As the queues of a pool are used under its mutex,
no two threads are ever in one of them, and each run is one of pools with FIFOs, in which a call of
a queue takes place when it returns.
-/

namespace CoopTasks.Queue

variable {V : Type*} {s : QueueState V} {cap t : ℕ} {op : Op V} {q : List V} {r : Res V}

/-- Nobody is inside a call, and the queue holds `q`. -/
def AtRest (cap : ℕ) (q : List V) (s : QueueState V) : Prop := ∃ c₁ c₂, Quiet cap s c₁ c₂ q

/-- The thread `t` alone is inside a call `op`, which it made when the queue held `q`. -/
def InUse (cap t : ℕ) (op : Op V) (q : List V) (s : QueueState V) : Prop :=
  ∃ c₁ c₂, Running cap t s c₁ c₂ ∧ Serves cap op q s.mem.cells c₂ (s.pcs t)

lemma created_atRest (hmax : cap + 2 ≤ SizeT.sizeMax) (h : Created cap s) : AtRest cap [] s := by
  obtain ⟨⟨c₁, n, hI, hready, hnear⟩, -, -, hout⟩ := created_inv hmax h
  exact ⟨c₁, [n], hI, hout, hready.near, hnear, rfl⟩

lemma AtRest.begin (h : AtRest cap q s) (t : ℕ) (op : Op V) :
    ∃ s', next s (op.act t) = some s' ∧ InUse cap t op q s' := by
  obtain ⟨c₁, c₂, h⟩ := h
  obtain ⟨s', hs, hR, hserves⟩ := call_begin h t op
  exact ⟨s', hs, c₁, c₂, hR, hserves⟩

lemma InUse.step (h : InUse cap t op q s) (hret : (s.pcs t).result = none) (weak : Bool) :
    ∃ s', threadStep s t weak = some s' ∧ InUse cap t op q s' ∧
      (weak = false → rank s' t < rank s t) := by
  obtain ⟨c₁, c₂, hR, hserves⟩ := h
  have hin := Pc.result_eq_none hret fun hidle => by
    rw [hidle] at hserves
    exact hserves
  obtain ⟨s', d₁, d₂, hst⟩ := threadStep_alone weak hR hin
  exact ⟨s', hst.step, ⟨d₁, d₂, hst.running, serves_step hR hst hserves⟩, hst.rank⟩

lemma InUse.returned (h : InUse cap t op q s) (hret : s.pcs t = .returned r) :
    r.Is (fifo cap q op).1 ∧ AtRest cap (fifo cap q op).2 s := by
  obtain ⟨c₁, c₂, hR, hserves⟩ := h
  rw [hret] at hserves
  obtain ⟨hanswer, hholds⟩ := hserves
  refine ⟨hanswer, c₁, c₂, hR.inv, fun u => ?_, hR.poolNear, hR.near, hholds⟩
  by_cases hu : u = t
  · subst hu
    rw [hret]
    rfl
  · exact hR.others u hu

lemma Res.Is.ok (h : r.Is (.ok none)) : r = .ok none := by
  cases r with
  | ok val =>
    cases val with
    | none => rfl
    | some item => exact h.elim
  | fail e => exact h.elim

lemma Res.Is.value {v : V} (h : r.Is (.ok (some v))) : ∃ k, r = .ok (some (some (k, v))) := by
  cases r with
  | ok val =>
    cases val with
    | none => exact h.elim
    | some item =>
      have h : item.map Prod.snd = some v := h
      obtain ⟨x, rfl, rfl⟩ := Option.map_eq_some_iff.mp h
      exact ⟨x.1, rfl⟩
  | fail e => exact h.elim

lemma Res.Is.error {e : Pool.Errno} (h : r.Is (.error e)) : r = .fail e := by
  cases r with
  | ok val => cases val <;> exact h.elim
  | fail e' => exact congrArg _ h

end CoopTasks.Queue

namespace CoopTasks.ThreadPool

open CoopTasks.Machine CoopTasks.SizeT

/-- A job queue: the shared one of a pool, or a worker's own. -/
inductive Slot (Q : Type*)
  | jobs (q : Q)
  | localJobs (q : Q) (i : ℕ)
  deriving DecidableEq, Repr

def Slot.pool {Q : Type*} : Slot Q → Q
  | .jobs q | .localJobs q _ => q

/-- The pools, the queues that take the place of their lists, which stay empty, and the queue that
each thread is in a call of. -/
structure Deep (Q B : Type*) where
  base : State Q B
  queues : Slot Q → Queue.QueueState (Job B)
  calls : Tid Q → Option (Slot Q)

variable {Q B : Type*}

/-- The queue whose call is the next step of a thread: `thrdpool_add`'s, where `ctx` says which, or
one of `job_seeking`'s. -/
def State.callee (w : Q → Workers) (s : State Q B) (t : Tid Q) : Option (Slot Q) :=
  match s.pcs t, t with
  | .add _ _ .enqueue, .worker p i => some (.localJobs p i)
  | .add q _ .enqueue, .outside _ => some (.jobs q)
  | .seek .own, .worker q i => some (.localJobs q i)
  | .seek (.steal j), .worker q i =>
    if j < (w q).num ∧ (s.pools q).thr j ≠ (s.pools q).thr i then some (.localJobs q j) else none
  | .seek .global, .worker q _ => some (.jobs q)
  | _, _ => none

/-- The call that it is. -/
def Pc.queueOp : Pc Q B → Queue.Op (Job B)
  | .add _ job _ => .enqueue (some job)
  | _ => .dequeue true

/-- Where a worker stands when a queue has given it a job. -/
def SeekPc.found (job : Job B) : SeekPc B → Pc Q B
  | .global => .leave job
  | _ => .seek (.sub job)

/-- Where a worker stands when a queue has given it none. -/
def SeekPc.missed : SeekPc B → Pc Q B
  | .own => .seek (.steal 0)
  | .steal j => .seek (.steal (j + 1))
  | .global => .wait
  | pc => .seek pc

section Machine

variable [DecidableEq Q] (w : Q → Workers) (num : Tid Q → ℕ)

/-- What a thread does with what its call of a queue has returned. -/
def State.resume (s : State Q B) (t : Tid Q) (r : Queue.Res (Job B)) : Option (State Q B) :=
  match s.pcs t, t, r with
  | .add q job .enqueue, t, .ok _ =>
    some ((s.setPool q { s.pools q with accepted := (s.pools q).accepted ++ [job] }).setPc t
      (.add q job (bif t.isOutside then .broadcast true else .inc)))
  | .add q job .enqueue, t, .fail _ => some (s.setPc t (.add q job (.broadcast false)))
  | .seek pc, .worker q i, .ok (some (some (_, job))) =>
    some ((s.setPool q { s.pools q with taken := (s.pools q).taken ++ [job] }).setPc
      (.worker q i) (pc.found job))
  | .seek pc, .worker q i, .fail _ => some (s.setPc (.worker q i) pc.missed)
  | _, _, _ => none

/-- A thread takes its next step, in a queue if it is in a call of one; the thread `t` is the
thread `num t` of a queue. -/
def Deep.step (d : Deep Q B) (t : Tid Q) (weak : Bool) : Option (Deep Q B) :=
  match d.calls t with
  | some slot =>
    match ((d.queues slot).pcs (num t)).result with
    | some r => (d.base.resume t r).map fun s =>
      { d with base := s, calls := Function.update d.calls t none }
    | none => (Queue.threadStep (d.queues slot) (num t) weak).map fun u =>
      { d with queues := Function.update d.queues slot u }
  | none =>
    match d.base.callee w t with
    | some slot => (Queue.next (d.queues slot) ((d.base.pcs t).queueOp.act (num t))).map fun u =>
      { d with
        queues := Function.update d.queues slot u
        calls := Function.update d.calls t (some slot) }
    | none => (next w d.base (.step t)).map fun s => { d with base := s }

def Deep.next (d : Deep Q B) : Act Q B × Bool → Option (Deep Q B)
  | (.step t, weak) => d.step w num t weak
  | (act, _) => (ThreadPool.next w d.base act).map fun s => { d with base := s }

end Machine

/-- The worker, about to put a job in its own queue, works for the pool that the job is for. -/
def OwnJob (p : Q) : Pc Q B → Prop
  | .add q _ .enqueue => p = q
  | _ => True

/-- No worker adds a job to another pool than its own. -/
def Deep.OwnJobs (d : Deep Q B) : Act Q B × Bool → Prop
  | (.step (.worker p i), _) => OwnJob p (d.base.pcs (.worker p i))
  | _ => True

/-- The steps that a thread has left in its call of a queue, if it runs alone and nothing fails
spuriously: at most so many. -/
def Deep.left (num : Tid Q → ℕ) (d : Deep Q B) (t : Tid Q) : ℕ :=
  match d.calls t with
  | some slot => Queue.rank (d.queues slot) (num t) + 1
  | none => 0

/-- No thread has started, and `queue_create` has made all queues. -/
structure Deep.Created (d : Deep Q B) : Prop where
  base : d.base = initial
  queues : ∀ slot, Queue.Created maxJobs (d.queues slot)
  calls : ∀ t, d.calls t = none

/-! ### Pools with the lists that the queues hold -/

variable {w : Q → Workers} {num : Tid Q → ℕ} {s s' : State Q B} {d d' : Deep Q B} {t u : Tid Q}
  {slot : Slot Q} {l : Slot Q → List (Job B)} {q p : Q} {i j n : ℕ} {P : Pool Q B} {pc : Pc Q B}
  {act : Act Q B}

def Pool.withQueues (P : Pool Q B) (jobs : List (Job B)) (localJobs : ℕ → List (Job B)) :
    Pool Q B :=
  { P with jobs := jobs, localJobs := localJobs }

/-- The pools with these jobs in their queues. -/
def State.withQueues (s : State Q B) (l : Slot Q → List (Job B)) : State Q B :=
  { s with pools := fun q => (s.pools q).withQueues (l (.jobs q)) fun i => l (.localJobs q i) }

@[simp] lemma withQueues_pcs : (s.withQueues l).pcs = s.pcs := rfl

@[simp] lemma withQueues_pools : (s.withQueues l).pools q =
    (s.pools q).withQueues (l (.jobs q)) fun i => l (.localJobs q i) := rfl

@[simp] lemma withQueues_setPc [DecidableEq Q] :
    (s.setPc t pc).withQueues l = (s.withQueues l).setPc t pc := rfl

@[simp] lemma withQueues_wakeAll [DecidableEq Q] :
    (s.wakeAll q).withQueues l = (s.withQueues l).wakeAll q := rfl

@[simp] lemma withQueues_setPool [DecidableEq Q] : (s.setPool q P).withQueues l =
    (s.withQueues l).setPool q (P.withQueues (l (.jobs q)) fun i => l (.localJobs q i)) := by
  unfold State.withQueues State.setPool
  congr 1
  funext p
  by_cases hp : p = q
  · subst hp
    simp
  · simp [hp]

lemma initial_withQueues : (initial : State Q B).withQueues (fun _ => []) = initial := rfl

lemma createStep_withQueues {P' : Pool Q B} {jobs : List (Job B)} {localJobs : ℕ → List (Job B)}
    (hs : createStep n P act = some P') :
    createStep n (P.withQueues jobs localJobs) act = some (P'.withQueues jobs localJobs) := by
  cases act with
  | start q h =>
    simp only [createStep] at hs
    split at hs
    · rename_i hc
      obtain rfl := Option.some.inj hs
      exact if_pos hc
    · simp at hs
  | storeFirst q =>
    obtain ⟨h, hh, rfl⟩ := Option.map_eq_some_iff.mp hs
    exact Option.map_eq_some_iff.mpr ⟨h, hh, rfl⟩
  | create q h =>
    simp only [createStep] at hs
    split at hs
    · rename_i i hi
      split at hs
      · rename_i hc
        obtain rfl := Option.some.inj hs
        have hi : (P.withQueues jobs localJobs).creator = .create i := hi
        simp only [createStep, hi]
        exact if_pos hc
      · simp at hs
    · simp at hs
  | createFail q h =>
    simp only [createStep] at hs
    split at hs
    · rename_i i hi
      split at hs
      · rename_i hc
        obtain rfl := Option.some.inj hs
        have hi : (P.withQueues jobs localJobs).creator = .create i := hi
        simp only [createStep, hi]
        exact if_pos hc
      · simp at hs
    · simp at hs
  | store q =>
    simp only [createStep] at hs
    split at hs
    · simp at hs
    · rename_i i h hi
      obtain rfl := Option.some.inj hs
      have hi : (P.withQueues jobs localJobs).creator = .store i h := hi
      simp only [createStep, hi]
      rfl
  | _ => simp [createStep] at hs

section Steps

variable [DecidableEq Q]

lemma thrdpoolAdd_withQueues {job : Job B} {a : AddPc} (ha : a ≠ .enqueue)
    (hs : thrdpoolAdd s t q job a = some s') :
    thrdpoolAdd (s.withQueues l) t q job a = some (s'.withQueues l) := by
  cases a with
  | enqueue => exact absurd rfl ha
  | lock =>
    simp only [thrdpoolAdd] at hs
    split at hs
    · rename_i hc
      obtain rfl := Option.some.inj hs
      rw [withQueues_setPc, withQueues_setPool]
      exact if_pos hc
    · simp at hs
  | inc =>
    obtain rfl := Option.some.inj hs
    rw [withQueues_setPc, withQueues_setPool]
    rfl
  | broadcast ok =>
    obtain rfl := Option.some.inj hs
    rfl
  | unlock ok =>
    obtain rfl := Option.some.inj hs
    show _ = some { returns := s.returns ++ [(q, job, ok)]
                    __ := ((s.setPool q _).setPc t .rest).withQueues l }
    rw [withQueues_setPc, withQueues_setPool]
    rfl

lemma worker_withQueues (hcallee : s.callee w (.worker q i) = none)
    (hs : worker w s q i (s.pcs (.worker q i)) = some s') :
    worker w (s.withQueues l) q i (s.pcs (.worker q i)) = some (s'.withQueues l) := by
  cases hpc : s.pcs (.worker q i) with
  | rest | add | unborn | waiting => simp [worker, hpc] at hs
  | top | woken =>
    rw [hpc] at hs
    simp only [worker] at hs
    split at hs
    · rename_i hc
      obtain rfl := Option.some.inj hs
      rw [withQueues_setPc, withQueues_setPool]
      exact if_pos hc
    · simp at hs
  | wait | leave =>
    rw [hpc] at hs
    obtain rfl := Option.some.inj hs
    rw [withQueues_setPc, withQueues_setPool]
    rfl
  | seek a =>
    rw [hpc] at hs
    obtain rfl := Option.some.inj hs
    rw [withQueues_setPc, withQueues_setPool]
    cases a with
    | own | global => simp [State.callee, hpc] at hcallee
    | count | sub => rfl
    | steal j =>
      -- the worker passes over itself, or there is no other left
      have hno : ¬ (j < (w q).num ∧ (s.pools q).thr j ≠ (s.pools q).thr i) := fun hc => by
        simp [State.callee, hpc, hc] at hcallee
      have hself : ∀ P : Pool Q B, P.thr = (s.pools q).thr → jobSeeking (w q).num i P (.steal j) =
          (P, .more (if j < (w q).num then .steal (j + 1) else .global)) := fun P hP => by
        by_cases hj : j < (w q).num
        · have hthr : (s.pools q).thr j = (s.pools q).thr i := by
            by_contra hne
            exact hno ⟨hj, hne⟩
          simp [jobSeeking, hj, hP, hthr]
        · simp [jobSeeking, hj]
      have hlists := hself ((s.pools q).withQueues (l (.jobs q)) fun i => l (.localJobs q i)) rfl
      simp only [worker, withQueues_pools, hself _ rfl, hlists]

/-- A step that calls no queue is the same whatever the queues hold. -/
lemma next_withQueues (hcallee : ∀ t, act = .step t → s.callee w t = none)
    (hs : next w s act = some s') : next w (s.withQueues l) act = some (s'.withQueues l) := by
  have hcreate : ∀ q, (createStep (w q).num (s.pools q) act).map (s.setPool q) = some s' →
      (createStep (w q).num ((s.withQueues l).pools q) act).map ((s.withQueues l).setPool q) =
        some (s'.withQueues l) := fun q hs => by
    obtain ⟨P, hP, rfl⟩ := Option.map_eq_some_iff.mp hs
    rw [withQueues_setPool]
    exact Option.map_eq_some_iff.mpr ⟨_, createStep_withQueues hP, rfl⟩
  cases act with
  | start q h | storeFirst q | create q h | createFail q h | store q => exact hcreate q hs
  | enter q i =>
    simp only [next] at hs
    split at hs
    · rename_i hpc
      split at hs
      · rename_i hc
        obtain rfl := Option.some.inj hs
        simp only [next, withQueues_pcs, hpc]
        exact if_pos hc
      · simp at hs
    · simp at hs
  | call t tp job =>
    simp only [next] at hs
    split at hs
    · rename_i q b hpc
      obtain rfl := Option.some.inj hs
      simp only [next, withQueues_pcs, hpc]
      rfl
    · rename_i hpc _
      obtain rfl := Option.some.inj hs
      simp only [next, withQueues_pcs, hpc]
    · simp at hs
  | finish q i | spurious q i =>
    simp only [next] at hs
    split at hs
    · rename_i hpc
      obtain rfl := Option.some.inj hs
      simp only [next, withQueues_pcs, hpc]
      rfl
    · simp at hs
  | step t =>
    have hcallee := hcallee t rfl
    cases hcall : (s.pcs t).call with
    | some x =>
      obtain ⟨q, job, a⟩ := x
      have hpc : s.pcs t = .add q job a := call_eq_some hcall
      rw [next_add hpc] at hs
      rw [next_add (s := s.withQueues l) hpc]
      refine thrdpoolAdd_withQueues (fun ha => ?_) hs
      cases t <;> simp [State.callee, hpc, ha] at hcallee
    | none =>
      cases t with
      | outside k => cases hpc : s.pcs (.outside k) <;> simp_all [next, Pc.call]
      | worker q i =>
        rw [next_worker hcall] at hs
        rw [next_worker (s := s.withQueues l) hcall]
        exact worker_withQueues hcallee hs

/-! ### Calls of a queue -/

lemma withQueues_localJobs {x : List (Job B)} :
    s.withQueues (Function.update l (.localJobs q i) x) =
      (s.withQueues l).setPool q (((s.withQueues l).pools q).setLocal i x) := by
  unfold State.withQueues State.setPool
  congr 1
  funext p
  by_cases hp : p = q
  · subst hp
    simp only [Function.update_self, Pool.withQueues, Pool.setLocal]
    congr 1
    funext j
    by_cases hj : j = i
    · subst hj
      simp
    · simp [hj]
  · simp [hp]

lemma withQueues_jobs {x : List (Job B)} : s.withQueues (Function.update l (.jobs q) x) =
    (s.withQueues l).setPool q { (s.withQueues l).pools q with jobs := x } := by
  unfold State.withQueues State.setPool
  congr 1
  funext p
  by_cases hp : p = q
  · subst hp
    simp [Pool.withQueues]
  · simp [hp]

lemma withQueues_setLocal {x : List (Job B)} :
    ((s.setPool q P).setPc t pc).withQueues (Function.update l (.localJobs q i) x) =
      ((s.withQueues l).setPool q
        ((P.withQueues (l (.jobs q)) fun j => l (.localJobs q j)).setLocal i x)).setPc t pc := by
  rw [withQueues_setPc, withQueues_localJobs, withQueues_setPool, setPool_setPool, setPool_self]

lemma withQueues_setJobs {x : List (Job B)} :
    ((s.setPool q P).setPc t pc).withQueues (Function.update l (.jobs q) x) =
      ((s.withQueues l).setPool q (P.withQueues x fun j => l (.localJobs q j))).setPc t pc := by
  rw [withQueues_setPc, withQueues_jobs, withQueues_setPool, setPool_setPool, setPool_self]
  rfl

/-- Where a thread stands that is in a call of a queue of its pool. -/
inductive CallAt (w : Q → Workers) : Tid Q → Slot Q → Pc Q B → Prop
  | addLocal (q : Q) (i : ℕ) (job : Job B) :
    CallAt w (.worker q i) (.localJobs q i) (.add q job .enqueue)
  | add (q : Q) (k : ℕ) (job : Job B) : CallAt w (.outside k) (.jobs q) (.add q job .enqueue)
  | own (q : Q) (i : ℕ) : CallAt w (.worker q i) (.localJobs q i) (.seek .own)
  | steal (q : Q) (i j : ℕ) (hj : j < (w q).num) (hne : j ≠ i) :
    CallAt w (.worker q i) (.localJobs q j) (.seek (.steal j))
  | global (q : Q) (i : ℕ) : CallAt w (.worker q i) (.jobs q) (.seek .global)

omit [DecidableEq Q] in
lemma callAt_of_callee (h : s.callee w t = some slot)
    (hown : ∀ p i, t = .worker p i → OwnJob p (s.pcs t)) : CallAt w t slot (s.pcs t) := by
  unfold State.callee at h
  split at h
  · rename_i q job p i hpc
    obtain rfl := Option.some.inj h
    have hp := hown p i rfl
    rw [hpc] at hp ⊢
    obtain rfl : p = q := hp
    exact .addLocal p i job
  · rename_i q job k hpc
    obtain rfl := Option.some.inj h
    rw [hpc]
    exact .add q k job
  · rename_i q i hpc
    obtain rfl := Option.some.inj h
    rw [hpc]
    exact .own q i
  · rename_i j q i hpc
    split at h
    · rename_i hc
      obtain rfl := Option.some.inj h
      rw [hpc]
      refine .steal q i j hc.1 ?_
      rintro rfl
      exact hc.2 rfl
    · simp at h
  · rename_i q i hpc
    obtain rfl := Option.some.inj h
    rw [hpc]
    exact .global q i
  · simp at h

omit [DecidableEq Q] in
lemma CallAt.inside (h : CallAt w t slot pc) : pc.inside t = some slot.pool := by
  cases h <;> rfl

/-- **A call of `queue_enqueue` returns** what the FIFO in its place answers, and `thrdpool_add`
goes on as it does there. -/
lemma resume_enqueue {r : Queue.Res (Job B)} {job : Job B} {a : AddPc}
    (hpc : s.pcs t = .add q job a) (hat : CallAt w t slot (.add q job a))
    (hr : r.Is (Queue.fifo maxJobs (l slot) (.enqueue (some job))).1) :
    ∃ s', s.resume t r = some s' ∧ OwnQueue (s.withQueues l) (.step t) ∧
      next w (s.withQueues l) (.step t) = some (s'.withQueues
        (Function.update l slot (Queue.fifo maxJobs (l slot) (.enqueue (some job))).2)) := by
  rw [next_add (s := s.withQueues l) hpc]
  cases hat with
  | addLocal q i job =>
    have hown : OwnQueue (s.withQueues l) (.step (.worker q i)) := by
      show OwnAdd _ q i (s.pcs (.worker q i))
      rw [hpc]
      exact .inl rfl
    by_cases hlen : (l (.localJobs q i)).length < maxJobs
    · have henq : queueEnqueue (((s.withQueues l).pools q).localJobs i) job =
          some (l (.localJobs q i) ++ [job]) := if_pos hlen
      simp only [Queue.fifo, if_pos hlen] at hr ⊢
      obtain rfl := hr.ok
      refine ⟨_, by simp only [State.resume, hpc]; rfl, hown, ?_⟩
      simp only [thrdpoolAdd, henq, withQueues_setLocal, setPool_setPool, setPool_self]
      rfl
    · have henq : queueEnqueue (((s.withQueues l).pools q).localJobs i) job = none := if_neg hlen
      simp only [Queue.fifo, if_neg hlen] at hr ⊢
      obtain rfl := hr.error
      refine ⟨_, by simp only [State.resume, hpc]; rfl, hown, ?_⟩
      simp only [thrdpoolAdd, henq, Function.update_eq_self]
      rfl
  | add q k job =>
    by_cases hlen : (l (.jobs q)).length < maxJobs
    · have henq : queueEnqueue ((s.withQueues l).pools q).jobs job =
          some (l (.jobs q) ++ [job]) := if_pos hlen
      simp only [Queue.fifo, if_pos hlen] at hr ⊢
      obtain rfl := hr.ok
      refine ⟨_, by simp only [State.resume, hpc]; rfl, trivial, ?_⟩
      simp only [thrdpoolAdd, henq, withQueues_setJobs]
      rfl
    · have henq : queueEnqueue ((s.withQueues l).pools q).jobs job = none := if_neg hlen
      simp only [Queue.fifo, if_neg hlen] at hr ⊢
      obtain rfl := hr.error
      refine ⟨_, by simp only [State.resume, hpc]; rfl, trivial, ?_⟩
      simp only [thrdpoolAdd, henq, Function.update_eq_self]
      rfl

/-- **A call of `queue_dequeue` returns** what the FIFO in its place answers, and `job_seeking`
goes on as it does there. -/
lemma resume_dequeue {r : Queue.Res (Job B)} {a : SeekPc B} (hI : Inv w (s.withQueues l))
    (hpc : s.pcs t = .seek a) (hat : CallAt w t slot (.seek a))
    (hr : r.Is (Queue.fifo maxJobs (l slot) (.dequeue true)).1) :
    ∃ s', s.resume t r = some s' ∧ OwnQueue (s.withQueues l) (.step t) ∧
      next w (s.withQueues l) (.step t) = some (s'.withQueues
        (Function.update l slot (Queue.fifo maxJobs (l slot) (.dequeue true)).2)) := by
  obtain ⟨q, i, rfl⟩ : ∃ q i, t = .worker q i := by cases hat <;> exact ⟨_, _, rfl⟩
  have hown : OwnAdd (s.withQueues l) q i (s.pcs (.worker q i)) := by
    rw [hpc]
    trivial
  have hnext : next w (s.withQueues l) (.step (.worker q i)) =
      worker w (s.withQueues l) q i (.seek a) := by
    rw [next_worker (by rw [withQueues_pcs, hpc]; rfl), withQueues_pcs, hpc]
  rw [hnext]
  cases hl : l slot with
  | nil =>
    rw [hl] at hr
    obtain rfl := hr.error
    have hmissed : ∃ res, jobSeeking (w q).num i ((s.withQueues l).pools q) a =
        ((s.withQueues l).pools q, res) ∧ res.pc = (a.missed : Pc Q B) := by
      cases hat with
      | own | global =>
        simp [jobSeeking, Pool.withQueues, hl, queueDequeue, SeekRes.pc, SeekPc.missed]
      | steal q i j hj hne =>
        simp [jobSeeking, Pool.withQueues, hl, queueDequeue, SeekRes.pc, SeekPc.missed, hj]
    obtain ⟨res, hseek, hres⟩ := hmissed
    have hupdate : Function.update l slot [] = l := by rw [← hl, Function.update_eq_self]
    have hsame : (s.withQueues l).setPool q ((s.withQueues l).pools q) = s.withQueues l := by
      simp only [State.setPool, Function.update_eq_self]
    refine ⟨_, by simp only [State.resume, hpc]; rfl, hown, ?_⟩
    simp only [worker, hseek, hres, Queue.fifo, hupdate, withQueues_setPc, hsame]
  | cons job rest =>
    rw [hl] at hr
    obtain ⟨k, rfl⟩ := hr.value
    have hbegun : ∀ j, l (.localJobs q j) ≠ [] → Begun s q j := fun j hj => by
      by_contra hb
      exact hj ((hI.pools q).stock.unused j hb)
    refine ⟨_, by simp only [State.resume, hpc]; rfl, hown, ?_⟩
    cases hat with
    | own =>
      have hdeq : queueDequeue (((s.withQueues l).pools q).localJobs i) = some (job, rest) := by
        simp only [withQueues_pools, Pool.withQueues, hl, queueDequeue]
      simp only [worker, jobSeeking, hdeq, Queue.fifo, withQueues_setLocal]
      rfl
    | steal q i j hj hne =>
      have hdeq : queueDequeue (((s.withQueues l).pools q).localJobs j) = some (job, rest) := by
        simp only [withQueues_pools, Pool.withQueues, hl, queueDequeue]
      have hi : Begun s q i := by
        rw [Begun, hpc]
        simp
      have hthr := (hI.pools q).staff.thr_ne (hbegun j (by simp [hl])) hi hne
      simp only [worker, jobSeeking, if_pos hj, if_pos hthr, hdeq, Queue.fifo,
        withQueues_setLocal]
      rfl
    | global =>
      have hdeq : queueDequeue ((s.withQueues l).pools q).jobs = some (job, rest) := by
        simp only [withQueues_pools, Pool.withQueues, hl, queueDequeue]
      simp only [worker, jobSeeking, hdeq, Queue.fifo, withQueues_setJobs]
      rfl

/-! ### Where the other threads stand -/

/-- A thread that is in a call of a queue does not notice what the others do. -/
lemma next_stays (hat : CallAt w u slot (s.pcs u)) (hu : act ≠ .step u)
    (hs : next w s act = some s') : s'.pcs u = s.pcs u := by
  have hin := hat.inside
  have hset : ∀ {x : State Q B} {v pc}, x.pcs = s.pcs → (s.pcs v).inside v = none →
      (x.setPc v pc).pcs u = s.pcs u := fun {x v pc} hx hv => by
    rw [setPc_ne, hx]
    rintro rfl
    rw [hv] at hin
    cases hin
  cases act with
  | start | storeFirst | create | createFail | store =>
    obtain ⟨P, -, rfl⟩ := Option.map_eq_some_iff.mp hs
    rfl
  | enter q i =>
    simp only [next] at hs
    split at hs
    · rename_i hpc
      split at hs
      · obtain rfl := Option.some.inj hs
        exact hset rfl (by rw [hpc]; rfl)
      · simp at hs
    · simp at hs
  | call t tp job =>
    simp only [next] at hs
    split at hs
    · rename_i hpc
      obtain rfl := Option.some.inj hs
      exact hset rfl (by rw [hpc]; rfl)
    · obtain rfl := Option.some.inj hs
      rfl
    · simp at hs
  | finish q i | spurious q i =>
    simp only [next] at hs
    split at hs
    · rename_i hpc
      obtain rfl := Option.some.inj hs
      exact hset rfl (by rw [hpc]; rfl)
    · simp at hs
  | step t =>
    have hne : u ≠ t := fun heq => hu (by rw [heq])
    cases hcall : (s.pcs t).call with
    | some x =>
      obtain ⟨q, job, a⟩ := x
      rw [next_add (call_eq_some hcall)] at hs
      by_cases ha : ∃ ok, a = .broadcast ok
      · obtain ⟨ok, rfl⟩ := ha
        obtain rfl := Option.some.inj hs
        rw [setPc_ne hne]
        rcases wakeAll_cases s q u with he | ⟨hw, -⟩
        · exact he
        · rw [hw] at hin
          cases hin
      · exact thrdpoolAdd_others (fun ok h => ha ⟨ok, h⟩) hs hne
    | none =>
      cases t with
      | outside k => cases hpc : s.pcs (.outside k) <;> simp_all [next, Pc.call]
      | worker q i =>
        rw [next_worker hcall] at hs
        exact worker_others hs hne

lemma resume_stays {r : Queue.Res (Job B)} (hu : u ≠ t) (hs : s.resume t r = some s') :
    s'.pcs u = s.pcs u := by
  unfold State.resume at hs
  split at hs
  · obtain rfl := Option.some.inj hs
    exact setPc_ne hu
  · obtain rfl := Option.some.inj hs
    exact setPc_ne hu
  · obtain rfl := Option.some.inj hs
    exact setPc_ne hu
  · obtain rfl := Option.some.inj hs
    exact setPc_ne hu
  · simp at hs

/-! ### Every step -/

/-- The queues hold the jobs of `l`, and a thread that is in a call of one is there alone. -/
structure Follows (w : Q → Workers) (num : Tid Q → ℕ) (l : Slot Q → List (Job B)) (d : Deep Q B) :
    Prop where
  inv : Inv w (d.base.withQueues l)
  rest : ∀ slot, (∀ t, d.calls t ≠ some slot) → Queue.AtRest maxJobs (l slot) (d.queues slot)
  place : ∀ t slot, d.calls t = some slot → CallAt w t slot (d.base.pcs t)
  call : ∀ t slot, d.calls t = some slot →
    Queue.InUse maxJobs (num t) (d.base.pcs t).queueOp (l slot) (d.queues slot)

omit [DecidableEq Q] in
lemma Follows.locked (h : Follows w num l d) (ht : d.calls t = some slot) :
    (d.base.pools slot.pool).seekMtx = some t :=
  ((h.inv.pools slot.pool).locked t).mp (h.place t slot ht).inside

omit [DecidableEq Q] in
lemma Follows.alone (h : Follows w num l d) (ht : d.calls t = some slot)
    (hu : d.calls u = some slot) : t = u :=
  Option.some.inj ((h.locked ht).symm.trans (h.locked hu))

lemma Follows.plain (h : Follows w num l d) (hs : next w d.base act = some s')
    (hown : OwnQueue (d.base.withQueues l) act)
    (hcallee : ∀ t, act = .step t → d.base.callee w t = none ∧ d.calls t = none) :
    next w (d.base.withQueues l) act = some (s'.withQueues l) ∧
      Follows w num l { d with base := s' } := by
  have hnext := next_withQueues (l := l) (fun t ht => (hcallee t ht).1) hs
  have hpcs : ∀ t slot, d.calls t = some slot → s'.pcs t = d.base.pcs t := fun t slot ht => by
    refine next_stays (h.place t slot ht) (fun hact => ?_) hs
    rw [(hcallee t hact).2] at ht
    cases ht
  refine ⟨hnext, inv_step h.inv hown hnext, h.rest, fun t slot ht => ?_, fun t slot ht => ?_⟩
  · show CallAt w t slot (s'.pcs t)
    rw [hpcs t slot ht]
    exact h.place t slot ht
  · show Queue.InUse maxJobs (num t) (s'.pcs t).queueOp (l slot) (d.queues slot)
    rw [hpcs t slot ht]
    exact h.call t slot ht

lemma Follows.change {x : Deep Q B} {m : List (Job B)} (h : Follows w num l d)
    (hfree : ∀ v, v ≠ t → d.calls v ≠ some slot)
    (ht : ∀ slot', d.calls t = some slot' → slot' = slot)
    (hinv : Inv w (x.base.withQueues (Function.update l slot m)))
    (hpcs : ∀ v slot', v ≠ t → d.calls v = some slot' → x.base.pcs v = d.base.pcs v)
    (hcalls : ∀ v, v ≠ t → x.calls v = d.calls v)
    (hqueues : ∀ slot', slot' ≠ slot → x.queues slot' = d.queues slot')
    (hnew : x.calls t = none ∧ Queue.AtRest maxJobs m (x.queues slot) ∨
      x.calls t = some slot ∧ CallAt w t slot (x.base.pcs t) ∧
        Queue.InUse maxJobs (num t) (x.base.pcs t).queueOp m (x.queues slot)) :
    Follows w num (Function.update l slot m) x := by
  have hother : ∀ v slot', v ≠ t → x.calls v = some slot' →
      d.calls v = some slot' ∧ slot' ≠ slot := fun v slot' hv hx => by
    rw [hcalls v hv] at hx
    refine ⟨hx, ?_⟩
    rintro rfl
    exact hfree v hv hx
  refine ⟨hinv, fun slot' hrest => ?_, fun v slot' hv => ?_, fun v slot' hv => ?_⟩
  · by_cases hne : slot' = slot
    · subst hne
      rw [Function.update_self]
      rcases hnew with ⟨-, hnew⟩ | ⟨hin, -⟩
      · exact hnew
      · exact absurd hin (hrest t)
    · rw [Function.update_of_ne hne, hqueues slot' hne]
      refine h.rest slot' fun v hv => ?_
      by_cases hvt : v = t
      · subst hvt
        exact hne (ht slot' hv)
      · exact hrest v ((hcalls v hvt).trans hv)
  · by_cases hvt : v = t
    · subst hvt
      rcases hnew with ⟨hout, -⟩ | ⟨hin, hnew, -⟩
      · rw [hout] at hv
        cases hv
      · obtain rfl := Option.some.inj (hin.symm.trans hv)
        exact hnew
    · obtain ⟨hd, -⟩ := hother v slot' hvt hv
      rw [hpcs v slot' hvt hd]
      exact h.place v slot' hd
  · by_cases hvt : v = t
    · subst hvt
      rcases hnew with ⟨hout, -⟩ | ⟨hin, -, hnew⟩
      · rw [hout] at hv
        cases hv
      · obtain rfl := Option.some.inj (hin.symm.trans hv)
        rw [Function.update_self]
        exact hnew
    · obtain ⟨hd, hne⟩ := hother v slot' hvt hv
      rw [Function.update_of_ne hne, hqueues slot' hne, hpcs v slot' hvt hd]
      exact h.call v slot' hd

lemma Follows.begin (h : Follows w num l d) (ht : d.calls t = none)
    (hat : CallAt w t slot (d.base.pcs t)) : ∃ u,
    Queue.next (d.queues slot) ((d.base.pcs t).queueOp.act (num t)) = some u ∧
      Follows w num l { d with
        queues := Function.update d.queues slot u
        calls := Function.update d.calls t (some slot) } := by
  have hfree : ∀ v, d.calls v ≠ some slot := fun v hv => by
    have hlock := ((h.inv.pools slot.pool).locked t).mp hat.inside
    obtain rfl := Option.some.inj (hlock.symm.trans (h.locked hv))
    rw [ht] at hv
    cases hv
  obtain ⟨u, hu, huse⟩ := (h.rest slot hfree).begin (num t) (d.base.pcs t).queueOp
  refine ⟨u, hu, ?_⟩
  have hchange := h.change (x := { d with
      queues := Function.update d.queues slot u
      calls := Function.update d.calls t (some slot) }) (t := t) (m := l slot)
    (fun v _ => hfree v) (by simp [ht]) (by rw [Function.update_eq_self]; exact h.inv)
    (fun _ _ _ _ => rfl) (fun v hv => Function.update_of_ne hv _ _)
    (fun _ hne => Function.update_of_ne hne _ _)
    (.inr ⟨Function.update_self .., hat, by simpa using huse⟩)
  rwa [Function.update_eq_self] at hchange

/-- A thread that is in a call of a queue takes a step, which the list of the queue does not show,
or goes on, as it does when the queue is that list. -/
lemma Follows.go (h : Follows w num l d) (ht : d.calls t = some slot) (weak : Bool) :
    ∃ d' l', d.step w num t weak = some d' ∧ Follows w num l' d' ∧
      (weak = false → d'.left num t < d.left num t) ∧
      (d'.base.withQueues l' = d.base.withQueues l ∨ OwnQueue (d.base.withQueues l) (.step t) ∧
        next w (d.base.withQueues l) (.step t) = some (d'.base.withQueues l')) := by
  have hfree : ∀ v, v ≠ t → d.calls v ≠ some slot := fun v hv hcall => hv (h.alone hcall ht)
  have hsame : ∀ slot', d.calls t = some slot' → slot' = slot := fun slot' hcall =>
    Option.some.inj (hcall.symm.trans ht)
  have hat := h.place t slot ht
  have huse := h.call t slot ht
  cases hres : ((d.queues slot).pcs (num t)).result with
  | none =>
    obtain ⟨u, hu, huse', hrank⟩ := huse.step hres weak
    have hstep : d.step w num t weak =
        some { d with queues := Function.update d.queues slot u } := by
      simp only [Deep.step, ht, hres, hu, Option.map_some]
    have hchange := h.change (x := { d with queues := Function.update d.queues slot u })
      (m := l slot) hfree hsame (by rw [Function.update_eq_self]; exact h.inv)
      (fun _ _ _ _ => rfl) (fun _ _ => rfl) (fun _ hne => Function.update_of_ne hne _ _)
      (.inr ⟨ht, hat, by simpa using huse'⟩)
    rw [Function.update_eq_self] at hchange
    refine ⟨_, l, hstep, hchange, fun hw => ?_, .inl rfl⟩
    simpa [Deep.left, ht] using hrank hw
  | some r =>
    obtain ⟨hanswer, hrest⟩ := huse.returned (Queue.Pc.result_eq_some hres)
    have hresume : ∃ s', d.base.resume t r = some s' ∧
        OwnQueue (d.base.withQueues l) (.step t) ∧ next w (d.base.withQueues l) (.step t) =
          some (s'.withQueues (Function.update l slot
            (Queue.fifo maxJobs (l slot) (d.base.pcs t).queueOp).2)) := by
      cases hpc : d.base.pcs t with
      | add q job a =>
        rw [hpc] at hat hanswer
        exact resume_enqueue hpc hat hanswer
      | seek a =>
        rw [hpc] at hat hanswer
        exact resume_dequeue h.inv hpc hat hanswer
      | _ =>
        rw [hpc] at hat
        cases hat
    obtain ⟨s', hs', hown, hnext⟩ := hresume
    have hstep : d.step w num t weak =
        some { d with base := s', calls := Function.update d.calls t none } := by
      simp only [Deep.step, ht, hres, hs', Option.map_some]
    have hchange := h.change
      (x := { d with base := s', calls := Function.update d.calls t none }) hfree hsame
      (inv_step h.inv hown hnext) (fun v _ hv _ => resume_stays hv hs')
      (fun v hv => Function.update_of_ne hv _ _) (fun _ _ => rfl)
      (.inl ⟨Function.update_self .., hrest⟩)
    refine ⟨_, _, hstep, hchange, fun _ => ?_, .inr ⟨hown, hnext⟩⟩
    simp [Deep.left, ht]

omit [DecidableEq Q] in
lemma ownQueue_of_callee (hcallee : s.callee w t = none) : OwnQueue (s.withQueues l) (.step t) := by
  cases t with
  | outside k => trivial
  | worker p i =>
    show OwnAdd (s.withQueues l) p i (s.pcs (.worker p i))
    cases hpc : s.pcs (.worker p i) with
    | add q job a =>
      cases a with
      | enqueue => simp [State.callee, hpc] at hcallee
      | _ => trivial
    | _ => trivial

lemma follows_step {x : Act Q B × Bool} (h : Follows w num l d) (hown : d.OwnJobs x)
    (hs : d.next w num x = some d') : ∃ l', Follows w num l' d' ∧
      (d'.base.withQueues l' = d.base.withQueues l ∨ OwnQueue (d.base.withQueues l) x.1 ∧
        next w (d.base.withQueues l) x.1 = some (d'.base.withQueues l')) := by
  obtain ⟨act, weak⟩ := x
  cases act with
  | step t =>
    have hs : d.step w num t weak = some d' := hs
    cases ht : d.calls t with
    | some slot =>
      obtain ⟨d'', l', hstep, hfollows, -, hshow⟩ := h.go ht weak
      obtain rfl := Option.some.inj (hs.symm.trans hstep)
      exact ⟨l', hfollows, hshow⟩
    | none =>
      simp only [Deep.step, ht] at hs
      cases hcallee : d.base.callee w t with
      | some slot =>
        rw [hcallee] at hs
        have hat : CallAt w t slot (d.base.pcs t) := callAt_of_callee hcallee fun p i hp => by
          subst hp
          exact hown
        obtain ⟨u, hu, hfollows⟩ := h.begin ht hat
        simp only [hu, Option.map_some] at hs
        obtain rfl := Option.some.inj hs
        exact ⟨l, hfollows, .inl rfl⟩
      | none =>
        rw [hcallee] at hs
        obtain ⟨s', hs', rfl⟩ := Option.map_eq_some_iff.mp hs
        have hown := ownQueue_of_callee (l := l) hcallee
        obtain ⟨hnext, hfollows⟩ := h.plain hs' hown fun v hv => by
          cases hv
          exact ⟨hcallee, ht⟩
        exact ⟨l, hfollows, .inr ⟨hown, hnext⟩⟩
  | _ =>
    obtain ⟨s', hs', rfl⟩ := Option.map_eq_some_iff.mp hs
    obtain ⟨hnext, hfollows⟩ := h.plain hs' trivial fun v hv => by cases hv
    exact ⟨l, hfollows, .inr ⟨trivial, hnext⟩⟩

/-- The steps that a thread has left in a queue are its own: no other thread undoes them. -/
lemma Follows.undisturbed {x : Act Q B × Bool} (h : Follows w num l d) (hown : d.OwnJobs x)
    (ht : d.calls t = some slot) (hx : x.1 ≠ .step t) (hs : d.next w num x = some d') :
    d'.left num t = d.left num t := by
  obtain ⟨act, weak⟩ := x
  cases act with
  | step u =>
    have hne : t ≠ u := fun heq => hx (by rw [heq])
    have hs : d.step w num u weak = some d' := hs
    have hcalls : ∀ {f : Option (Slot Q)}, Function.update d.calls u f t = some slot := by
      intro f
      rw [Function.update_of_ne hne, ht]
    cases hu : d.calls u with
    | some slot' =>
      have hslot : slot ≠ slot' := by
        rintro rfl
        exact hne (h.alone ht hu)
      simp only [Deep.step, hu] at hs
      split at hs
      · obtain ⟨s', -, rfl⟩ := Option.map_eq_some_iff.mp hs
        simp only [Deep.left, hcalls, ht]
      · obtain ⟨x, -, rfl⟩ := Option.map_eq_some_iff.mp hs
        simp only [Deep.left, ht, Function.update_of_ne hslot]
    | none =>
      simp only [Deep.step, hu] at hs
      split at hs
      · rename_i slot' hcallee
        obtain ⟨x, -, rfl⟩ := Option.map_eq_some_iff.mp hs
        have hat : CallAt w u slot' (d.base.pcs u) := callAt_of_callee hcallee fun p i hp => by
          subst hp
          exact hown
        have hslot : slot ≠ slot' := by
          rintro rfl
          have hlock := ((h.inv.pools slot.pool).locked u).mp hat.inside
          exact hne (Option.some.inj ((h.locked ht).symm.trans hlock))
        simp only [Deep.left, hcalls, ht, Function.update_of_ne hslot]
      · obtain ⟨s', -, rfl⟩ := Option.map_eq_some_iff.mp hs
        rfl
  | _ =>
    obtain ⟨s', -, rfl⟩ := Option.map_eq_some_iff.mp hs
    rfl

/-- What holds of the pools' queues, which hold the jobs of `l`: one that nobody is in a call of is
at rest, who is in a call of one has the mutex, and comes to its end, whatever the others do, in a
number of its own steps, but for those that fail spuriously. -/
structure DeepOk (w : Q → Workers) (num : Tid Q → ℕ) (l : Slot Q → List (Job B)) (d : Deep Q B) :
    Prop where
  rest : ∀ slot, (∀ t, d.calls t ≠ some slot) → Queue.Between (d.queues slot) (l slot)
  locked : ∀ t slot, d.calls t = some slot → (d.base.pools slot.pool).seekMtx = some t
  goes : ∀ t slot weak, d.calls t = some slot → ∃ d', d.next w num (.step t, weak) = some d' ∧
    (weak = false → d'.left num t < d.left num t)
  undisturbed : ∀ t slot x d', d.calls t = some slot → x.1 ≠ .step t → d.OwnJobs x →
    d.next w num x = some d' → d'.left num t = d.left num t
  balance : ∀ q, ((d.base.pools q).accepted : Multiset (Job B)) =
    ((d.base.withQueues l).pools q).queued (w q).num + ((d.base.pools q).taken : Multiset (Job B))
  order : ∀ q, (d.base.pools q).accepted.filter Job.outside =
    (d.base.pools q).taken.filter Job.outside ++ l (.jobs q)

lemma Follows.deepOk (h : Follows w num l d) : DeepOk w num l d where
  rest slot hslot := by
    obtain ⟨c₁, c₂, hquiet⟩ := h.rest slot hslot
    exact hquiet.between
  locked t slot ht := h.locked ht
  goes t slot weak ht := by
    obtain ⟨d', -, hs, -, hleft, -⟩ := h.go ht weak
    exact ⟨d', hs, hleft⟩
  undisturbed t slot x d' ht hx hown hs := h.undisturbed hown ht hx hs
  balance q := (h.inv.pools q).stock.balance
  order q := (h.inv.pools q).stock.order

omit [DecidableEq Q] in
lemma created_follows (h : d.Created) : Follows w num (fun _ => []) d where
  inv := by
    rw [h.base, initial_withQueues]
    exact initial_inv
  rest slot _ := Queue.created_atRest (show maxJobs + 2 ≤ SizeT.sizeMax by decide) (h.queues slot)
  place t slot ht := by
    rw [h.calls t] at ht
    cases ht
  call t slot ht := by
    rw [h.calls t] at ht
    cases ht

/-- **The pools over the code of their queues**: each run in which no worker adds a job to another
pool than its own is one of pools whose queues are FIFOs, and the queues hold what these do. -/
theorem thrdpool_over_queues {d₀ : Deep Q B} {ds : List (Deep Q B × Act Q B × Bool)}
    (h₀ : d₀.Created) (h : Trace (Deep.next w num) Deep.OwnJobs d₀ ds d) :
    ∃ ls l, Trace (next w) OwnQueue initial ls (d.base.withQueues l) ∧ DeepOk w num l d := by
  have hfollows : ∃ ls l, Trace (next w) OwnQueue initial ls (d.base.withQueues l) ∧
      Follows w num l d := by
    refine h.inv (I := fun _ d => ∃ ls l,
      Trace (next w) OwnQueue initial ls (d.base.withQueues l) ∧ Follows w num l d) ?_ ?_
    · refine ⟨[], fun _ => [], ?_, created_follows h₀⟩
      rw [h₀.base, initial_withQueues]
      exact .refl
    · rintro ds d x d' ⟨ls, l, htrace, hfollows⟩ hown hs
      obtain ⟨l', hfollows', hsame | ⟨hok, hnext⟩⟩ := follows_step hfollows hown hs
      · exact ⟨ls, l', by rwa [hsame], hfollows'⟩
      · exact ⟨_, l', htrace.step hok hnext, hfollows'⟩
  obtain ⟨ls, l, htrace, hf⟩ := hfollows
  exact ⟨ls, l, htrace, hf.deepOk⟩

lemma ownJobs_unit (d : Deep Unit B) (x : Act Unit B × Bool) : d.OwnJobs x := by
  unfold Deep.OwnJobs
  split
  · unfold OwnJob
    split
    · rfl
    · trivial
  · trivial

/-- One pool of one worker. -/
def lone : Unit → Workers := fun _ => single true

/-- Even numbers for the outside threads, odd ones for the workers. -/
def numbers : Tid Unit → ℕ
  | .outside t => 2 * t
  | .worker _ i => 2 * i + 1

def deepSteps (t : Tid Unit) (k : ℕ) : List (Act Unit ℕ × Bool) :=
  List.replicate k (.step t, false)

/-- The worker has taken a job, and a second one is on its way into the queue. -/
theorem thrdpool_over_queues_lone : ∃ d₀ ds, ∃ d : Deep Unit ℕ, d₀.Created ∧
    Trace (Deep.next lone numbers) Deep.OwnJobs d₀ ds d ∧ (d.base.pools ()).taken.length = 1 ∧
    d.calls (.outside 1) = some (.jobs ()) ∧
    ∃ ls l, Trace (next lone) OwnQueue initial ls (d.base.withQueues l) ∧
      DeepOk lone numbers l d := by
  let deep (u : Queue.QueueState (Job ℕ)) : Deep Unit ℕ := ⟨initial, fun _ => u, fun _ => none⟩
  let schedule : List (Act Unit ℕ × Bool) := List.flatten
    [[(.start () 7, false), (.storeFirst (), false), (.enter () 0, false),
        (.call (.outside 0) (some ()) (some 5), false)],
      deepSteps (.outside 0) 19, deepSteps (.worker () 0) 19,
      (.call (.outside 1) (some ()) (some 6), false) :: deepSteps (.outside 1) 9]
  obtain ⟨u, hu, hp⟩ := exists_reach Queue.next (fun _ a => a.isStep 0 = true)
    (Queue.raw maxJobs) (fun u => decide (u.pcs 0 = .returned (.ok none)) &&
      (run (Deep.next lone numbers) (deep u) schedule).any fun d : Deep Unit ℕ =>
        decide ((d.base.pools ()).taken.length = 1 ∧ d.calls (.outside 1) = some (.jobs ())))
    (Queue.steps 0 276) (by decide +kernel)
  obtain ⟨hret, hrun⟩ := Bool.and_eq_true_iff.mp hp
  obtain ⟨ds, d, h, -, hd⟩ := exists_trace (Deep.next lone numbers) (fun _ _ => True) _ _ _ hrun
  obtain ⟨htaken, hcall⟩ := of_decide_eq_true hd
  have h₀ : (deep u).Created := ⟨rfl, fun _ => ⟨hu, of_decide_eq_true hret⟩, fun _ => rfl⟩
  have hown : Trace (Deep.next lone numbers) Deep.OwnJobs (deep u) ds d :=
    h.mono fun d x _ => ownJobs_unit d x
  exact ⟨deep u, ds, d, h₀, hown, htaken, hcall, thrdpool_over_queues h₀ hown⟩

end Steps

end CoopTasks.ThreadPool
