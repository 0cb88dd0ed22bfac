import CoopTasks.ThreadPoolCreate
import CoopTasks.ThreadPoolDrain

/-!
Destroying a thread pool that is at work.

`thrdpool_destroy` waits until `worker_creator` has created the workers, and then cancels and joins
one after the other. A worker acts on that at the `pthread_testcancel` of its loop, in a job, or in
`pthread_cond_wait`. There it takes the mutex again, and the handler that `lock` has pushed unlocks
it. Meanwhile all other threads go on.
-/

namespace CoopTasks.ThreadPool

open CoopTasks.SizeT CoopTasks.Machine CoopTasks.ThreadPoolCreate

/-- A thread runs; it acts on its cancellation in `pthread_cond_wait` and is about to take the
mutex; it has the mutex, and the handler is about to unlock it; or it has ended. -/
inductive Life
  | runs
  | relocks
  | unlocks
  | ended
  deriving DecidableEq, Repr

/-- Where `thrdpool_destroy` stands: not called, in `future_get_value`, about to cancel the first of
the workers that are left, in `thrd_join`, or returned. -/
inductive DestroyPc
  | idle
  | await
  | cancel (left : List ℕ)
  | join (i : ℕ) (left : List ℕ)
  | returned
  deriving DecidableEq, Repr

/-- The pools and their destruction; `tested` tells whether a worker has passed the
`pthread_testcancel` of its loop. Whoever calls `thrdpool_destroy` runs no worker. -/
structure Closing (Q B : Type*) where
  base : State Q B
  tested : Tid Q → Bool
  cancelled : Tid Q → Bool
  life : Tid Q → Life
  destroy : Q → DestroyPc

/-- What can happen: what happens in pools that nobody destroys; a worker calls
`pthread_testcancel`; it acts on its cancellation in a job or in `pthread_cond_wait`, and goes on
with that; and `thrdpool_destroy` is called, or takes its next step. -/
inductive Move (Q B : Type*)
  | base (act : Act Q B)
  | testcancel (q : Q) (i : ℕ)
  | obey (q : Q) (i : ℕ)
  | unwind (q : Q) (i : ℕ)
  | destroy (q : Q)
  | destroyStep (q : Q)

variable {Q B : Type*}

/-- The worker that comes to the top of its loop. -/
def Act.restarts : Act Q B → Option (Tid Q)
  | .enter q i | .finish q i => some (.worker q i)
  | _ => none

/-- The worker whose thread has the handle. -/
def Pool.thread (n : ℕ) (P : Pool Q B) (h : ℕ) : Option ℕ :=
  (List.range n).find? fun j => P.os j = some h

/-- Whether a thread takes its next step in the code of the pools: at the top of its loop a worker
calls `pthread_testcancel` first. -/
def Closing.goesOn (d : Closing Q B) (t : Tid Q) : Bool :=
  match d.life t, d.base.pcs t with
  | .runs, .top => d.tested t
  | .runs, _ => true
  | _, _ => false

section Machine

variable [DecidableEq Q] (w : Q → Workers)

/-- A worker at the top of its loop has its `pthread_testcancel` before it. -/
def Act.untest (act : Act Q B) (tested : Tid Q → Bool) : Tid Q → Bool :=
  match act.restarts with
  | some t => Function.update tested t false
  | none => tested

/-- The thread ends. -/
def Closing.terminate (d : Closing Q B) (t : Tid Q) : Closing Q B :=
  { d with base := d.base.setPc t .rest, life := Function.update d.life t .ended }

def Closing.setDestroy (d : Closing Q B) (q : Q) (pc : DestroyPc) : Closing Q B :=
  { d with destroy := Function.update d.destroy q pc }

/-- One step of `thrdpool_destroy`. `thrd_cancel` fails if no thread has the handle that stands in
the worker's `thr`, and then there is none to join. -/
def thrdpoolDestroy (d : Closing Q B) (q : Q) : DestroyPc → Option (Closing Q B)
  | .idle | .returned => none
  | .await =>
    if (d.base.pools q).creator.done (w q).num = true then
      some (d.setDestroy q (.cancel (countDown (w q).num)))
    else none
  | .cancel [] => some (d.setDestroy q .returned)
  | .cancel (i :: left) =>
    match (d.base.pools q).thread (w q).num ((d.base.pools q).thr i) with
    | some j =>
      some { d.setDestroy q (.join j left) with
        cancelled := Function.update d.cancelled (.worker q j) true }
    | none => some (d.setDestroy q (.cancel left))
  | .join j left =>
    if d.life (.worker q j) = .ended then some (d.setDestroy q (.cancel left)) else none

def Closing.next (d : Closing Q B) : Move Q B → Option (Closing Q B)
  | .base act =>
    if act.thread.all d.goesOn then (ThreadPool.next w d.base act).map fun s =>
      { d with base := s, tested := act.untest d.tested }
    else none
  | .testcancel q i =>
    match d.life (.worker q i), d.base.pcs (.worker q i), d.tested (.worker q i) with
    | .runs, .top, false =>
      if d.cancelled (.worker q i) = true then some (d.terminate (.worker q i))
      else some { d with tested := Function.update d.tested (.worker q i) true }
    | _, _, _ => none
  | .obey q i =>
    match d.life (.worker q i), d.cancelled (.worker q i), d.base.pcs (.worker q i) with
    | .runs, true, .rest => some (d.terminate (.worker q i))
    | .runs, true, .waiting | .runs, true, .woken =>
      some { d with
        base := d.base.setPc (.worker q i) .woken
        life := Function.update d.life (.worker q i) .relocks }
    | _, _, _ => none
  | .unwind q i =>
    match d.life (.worker q i) with
    | .relocks => (ThreadPool.next w d.base (.step (.worker q i))).map fun s =>
      { d with base := s, life := Function.update d.life (.worker q i) .unlocks }
    | .unlocks =>
      some ({ d with
        base := d.base.setPool q { d.base.pools q with seekMtx := none } }.terminate (.worker q i))
    | _ => none
  | .destroy q => if d.destroy q = .idle then some (d.setDestroy q .await) else none
  | .destroyStep q => thrdpoolDestroy w d q (d.destroy q)

end Machine

/-- No thread has started, and no pool is being destroyed. -/
def Closing.initial : Closing Q B where
  base := ThreadPool.initial
  tested := fun _ => false
  cancelled := fun _ => false
  life := fun _ => .runs
  destroy := fun _ => .idle

/-- Whether the thread is one of the pool's workers. -/
def Tid.WorksFor (q : Q) : Tid Q → Prop
  | .outside _ => False
  | .worker p _ => p = q

/-- Whether the move fits a pool that may be destroyed: its workers can all be created,
`thrdpool_create` returns, which has stored the handle of the first, before `thrdpool_destroy` is
called, and from then on only jobs of its own call `thrdpool_add` for it. -/
def Closing.Keeps (d : Closing Q B) : Act Q B → Prop
  | .createFail _ _ => False
  | .storeFirst q => d.destroy q = .idle
  | .call t (some q) _ => t.WorksFor q ∨ d.destroy q = .idle
  | _ => True

/-- No worker's own queue takes a job for another pool, and no pool is used by others once it is
being destroyed. -/
def Closing.Orderly [DecidableEq Q] (d : Closing Q B) : Move Q B → Prop
  | .base act => OwnQueue d.base act ∧ d.Keeps act
  | .destroy q => (d.base.pools q).os 0 = some ((d.base.pools q).thr 0) ∧
    ∀ t, ¬ t.WorksFor q → ∀ job a, d.base.pcs t ≠ .add q job a
  | _ => True

/-! ### What a move of the pools does to a thread -/

/-- Whether the worker is in its loop, and in no job. -/
def Pc.inLoop : Pc Q B → Bool
  | .top | .seek _ | .wait | .waiting | .woken | .leave _ => true
  | _ => false

/-- What a move of the pools can do to the place of the thread `t`. -/
inductive Goes (t : Tid Q) (act : Act Q B) : Pc Q B → Pc Q B → Prop
  | stay (pc : Pc Q B) (h : act ≠ .step t) (hr : act.restarts ≠ some t) : Goes t act pc pc
  | wake (h : act ≠ .step t) (hr : act.restarts ≠ some t) : Goes t act .waiting .woken
  | restart (pc : Pc Q B) (hpc : pc.inLoop = false) (h : act.restarts = some t) : Goes t act pc .top
  | call (q : Q) (b : B) (job : Job B) (h : act = .call t (some q) (some b)) :
    Goes t act .rest (.add q job .lock)
  | add (q : Q) (job : Job B) (a a' : AddPc) (h : act = .step t) :
    Goes t act (.add q job a) (.add q job a')
  | ret (q : Q) (job : Job B) (a : AddPc) (h : act = .step t) : Goes t act (.add q job a) .rest
  | seek (pc pc' : Pc Q B) (h : act = .step t) (hpc : pc.inLoop = true) (hpc' : pc'.inLoop = true)
    (htop : pc' ≠ .top) (hleave : ∀ job, pc ≠ .leave job) : Goes t act pc pc'
  | leave (job : Job B) (h : act = .step t) : Goes t act (.leave job) .rest

section Moves

variable [DecidableEq Q] {w : Q → Workers} {s s' : State Q B} {q p : Q} {t u : Tid Q}
  {act : Act Q B} {i j n : ℕ} {job : Job B} {a : AddPc}

lemma thrdpoolAdd_self (hs : thrdpoolAdd s t q job a = some s') :
    s'.pcs t = .rest ∨ ∃ a', s'.pcs t = .add q job a' := by
  cases a with
  | lock =>
    simp only [thrdpoolAdd] at hs
    split at hs
    · obtain rfl := Option.some.inj hs
      exact .inr ⟨_, setPc_self⟩
    · simp at hs
  | enqueue =>
    simp only [thrdpoolAdd] at hs
    split at hs <;> split at hs <;> (obtain rfl := Option.some.inj hs; exact .inr ⟨_, setPc_self⟩)
  | inc | broadcast =>
    obtain rfl := Option.some.inj hs
    exact .inr ⟨_, setPc_self⟩
  | unlock =>
    obtain rfl := Option.some.inj hs
    exact .inl setPc_self

lemma worker_self {pc : Pc Q B} (hs : worker w s q i pc = some s') :
    (∃ job, pc = .leave job) ∧ s'.pcs (.worker q i) = .rest ∨
      (∀ job, pc ≠ .leave job) ∧ pc.inLoop = true ∧ (s'.pcs (.worker q i)).inLoop = true ∧
        s'.pcs (.worker q i) ≠ .top := by
  cases pc with
  | top | woken =>
    simp only [worker] at hs
    split at hs
    · obtain rfl := Option.some.inj hs
      refine .inr ⟨by simp, rfl, ?_, ?_⟩ <;> rw [setPc_self]
      · rfl
      · simp
    · simp at hs
  | seek pc =>
    obtain rfl := Option.some.inj hs
    refine .inr ⟨by simp, rfl, ?_, ?_⟩ <;> rw [setPc_self] <;>
      rcases (jobSeeking (w q).num i (s.pools q) pc).2 with _ | _ | _ <;>
      simp [SeekRes.pc, Pc.inLoop]
  | wait =>
    obtain rfl := Option.some.inj hs
    refine .inr ⟨by simp, rfl, ?_, ?_⟩ <;> rw [setPc_self]
    · rfl
    · simp
  | leave job =>
    obtain rfl := Option.some.inj hs
    exact .inl ⟨⟨job, rfl⟩, setPc_self⟩
  | rest | add | unborn | waiting => simp [worker] at hs

/-- **What happens to the place of a thread** in a move of the pools. -/
lemma next_goes (hown : OwnQueue s act) (hs : next w s act = some s') (t : Tid Q) :
    Goes t act (s.pcs t) (s'.pcs t) := by
  have hset : ∀ {x : State Q B} {u pc}, x.pcs = s.pcs → act.restarts = some u → act ≠ .step t →
      (s.pcs u).inLoop = false → pc = .top → Goes t act (s.pcs t) ((x.setPc u pc).pcs t) :=
    fun {x u pc} hx hr hstep hout htop => by
      by_cases ht : t = u
      · subst ht htop
        rw [setPc_self]
        exact .restart _ hout hr
      · rw [setPc_ne ht, hx]
        exact .stay _ hstep fun h => ht (Option.some.inj (h.symm.trans hr))
  cases act with
  | start | storeFirst | create | createFail | store =>
    obtain ⟨P, -, rfl⟩ := Option.map_eq_some_iff.mp hs
    exact .stay _ (by simp) (by simp [Act.restarts])
  | enter q i =>
    simp only [next] at hs
    split at hs
    · rename_i hpc
      split at hs
      · obtain rfl := Option.some.inj hs
        exact hset rfl rfl (by simp) (by rw [hpc]; rfl) rfl
      · simp at hs
    · simp at hs
  | finish q i =>
    simp only [next] at hs
    split at hs
    · rename_i hpc
      obtain rfl := Option.some.inj hs
      exact hset rfl rfl (by simp) (by rw [hpc]; rfl) rfl
    · simp at hs
  | spurious q i =>
    simp only [next] at hs
    split at hs
    · rename_i hpc
      obtain rfl := Option.some.inj hs
      by_cases ht : t = .worker q i
      · subst ht
        rw [setPc_self, hpc]
        exact .wake (by simp) (by simp [Act.restarts])
      · rw [setPc_ne ht]
        exact .stay _ (by simp) (by simp [Act.restarts])
    · simp at hs
  | call u tp b =>
    simp only [next] at hs
    split at hs
    · rename_i q b hpc
      obtain rfl := Option.some.inj hs
      by_cases ht : t = u
      · subst ht
        show Goes t _ (s.pcs t) ((s.setPc t _).pcs t)
        rw [setPc_self, hpc]
        exact .call q b _ rfl
      · show Goes t _ (s.pcs t) ((s.setPc u _).pcs t)
        rw [setPc_ne ht]
        exact .stay _ (by simp) (by simp [Act.restarts])
    · obtain rfl := Option.some.inj hs
      exact .stay _ (by simp) (by simp [Act.restarts])
    · simp at hs
  | step u =>
    have hothers : ∀ {q}, Frame s s' u q → t ≠ u → Goes t (.step u) (s.pcs t) (s'.pcs t) :=
      fun hF ht => by
        rcases hF.others t ht with he | ⟨hw, hwoken, -⟩
        · rw [he]
          exact .stay _ (by simp [Ne.symm ht]) (by simp [Act.restarts])
        · rw [hw, hwoken]
          exact .wake (by simp [Ne.symm ht]) (by simp [Act.restarts])
    cases hcall : (s.pcs u).call with
    | some x =>
      obtain ⟨q, job, a⟩ := x
      have hpc := call_eq_some hcall
      rw [next_add hpc] at hs
      by_cases ht : t = u
      · subst ht
        rw [hpc]
        rcases thrdpoolAdd_self hs with hrest | ⟨a', ha'⟩
        · rw [hrest]
          exact .ret q job a rfl
        · rw [ha']
          exact .add q job a a' rfl
      · exact hothers (thrdpoolAdd_frame hpc hown hs) ht
    | none =>
      cases u with
      | outside k => cases hpc : s.pcs (.outside k) <;> simp_all [next, Pc.call]
      | worker q i =>
        rw [next_worker hcall] at hs
        by_cases ht : t = .worker q i
        · subst ht
          rcases worker_self hs with ⟨⟨job, hpc⟩, hrest⟩ | ⟨hleave, hin, hin', htop⟩
          · rw [hpc, hrest]
            exact .leave job rfl
          · exact .seek _ _ rfl hin hin' htop hleave
        · exact hothers (worker_frame rfl hs) ht

/-! ### The threads of a pool -/

/-- How far a pool's workers are created. -/
def Pool.crew (P : Pool Q B) : Creator × (ℕ → Option ℕ) × (ℕ → ℕ) := (P.creator, P.os, P.thr)

/-- All workers that `worker_creator` has passed have a thread. -/
def Pool.Manned (P : Pool Q B) : Prop := ∀ j, 0 < j → j < P.creator.index → P.os j ≠ none

/-- `thrdpool_create` has stored the handle of the first thread. -/
def Pool.Stored (P : Pool Q B) : Prop := P.os 0 = some (P.thr 0)

/-- What was there once stays. -/
structure Crewed (n : ℕ) (P P' : Pool Q B) : Prop where
  manned : P.Manned → P'.Manned
  stored : P.Stored → P'.Stored
  done : P.creator.done n = true → P'.creator.done n = true

omit [DecidableEq Q] in
lemma crewed_of_eq {P P' : Pool Q B} (h : P'.crew = P.crew) : Crewed n P P' := by
  obtain ⟨hcr, hos, hthr⟩ : P'.creator = P.creator ∧ P'.os = P.os ∧ P'.thr = P.thr := by
    simpa [Pool.crew] using h
  constructor <;> simp [Pool.Manned, Pool.Stored, hcr, hos, hthr]

omit [DecidableEq Q] in
lemma createStep_crewed {P P' : Pool Q B} {begun : ℕ → Prop} (h : Staff n P begun)
    (hact : ∀ q h, act ≠ .createFail q h) (hs : createStep n P act = some P') :
    Crewed n P P' := by
  have hfirst := h.first
  have hat := h.atStore
  cases act with
  | start q k =>
    simp only [createStep] at hs
    split at hs
    · obtain rfl := Option.some.inj hs
      constructor <;> grind [Pool.Manned, Pool.Stored, Function.update_apply]
    · simp at hs
  | storeFirst q =>
    obtain ⟨k, hk, rfl⟩ := by simpa [createStep] using hs
    constructor <;> grind [Pool.Manned, Pool.Stored, Function.update_apply]
  | create q k =>
    simp only [createStep] at hs
    split at hs
    · split at hs
      · obtain rfl := Option.some.inj hs
        constructor <;> grind [Pool.Manned, Pool.Stored, Function.update_apply, Creator.index,
          Creator.done]
      · simp at hs
    · simp at hs
  | createFail q k => exact absurd rfl (hact q k)
  | store q =>
    simp only [createStep] at hs
    split at hs
    · simp at hs
    · obtain rfl := Option.some.inj hs
      constructor <;> grind [Pool.Manned, Pool.Stored, Function.update_apply, Creator.index,
        Creator.done]
  | enter | call | finish | spurious | step => simp [createStep] at hs

lemma crew_setPool {P : Pool Q B} (h : P.crew = (s.pools q).crew) (p : Q) :
    ((s.setPool q P).pools p).crew = (s.pools p).crew := by
  by_cases hp : p = q
  · subst hp
    rw [setPool_self, h]
  · rw [setPool_ne hp]

lemma thrdpoolAdd_crew (hs : thrdpoolAdd s t q job a = some s') (p : Q) :
    (s'.pools p).crew = (s.pools p).crew := by
  cases a with
  | lock =>
    simp only [thrdpoolAdd] at hs
    split at hs
    · obtain rfl := Option.some.inj hs
      exact crew_setPool (by rfl) p
    · simp at hs
  | enqueue =>
    simp only [thrdpoolAdd] at hs
    split at hs
    · split at hs
      · obtain rfl := Option.some.inj hs
        exact (crew_setPool (by rfl) p).trans (crew_setPool (by rfl) p)
      · obtain rfl := Option.some.inj hs
        rfl
    · split at hs
      · obtain rfl := Option.some.inj hs
        exact crew_setPool (by rfl) p
      · obtain rfl := Option.some.inj hs
        rfl
  | inc | unlock =>
    obtain rfl := Option.some.inj hs
    exact crew_setPool (by rfl) p
  | broadcast =>
    obtain rfl := Option.some.inj hs
    rfl

omit [DecidableEq Q] in
lemma jobSeeking_crew (P : Pool Q B) (pc : SeekPc B) : (jobSeeking n i P pc).1.crew = P.crew := by
  cases pc with
  | count | sub => rfl
  | own | global =>
    simp only [jobSeeking]
    split <;> rfl
  | steal j =>
    simp only [jobSeeking]
    split
    · split
      · split <;> rfl
      · rfl
    · rfl

lemma worker_crew {pc : Pc Q B} (hs : worker w s q i pc = some s') (p : Q) :
    (s'.pools p).crew = (s.pools p).crew := by
  cases pc with
  | top | woken =>
    simp only [worker] at hs
    split at hs
    · obtain rfl := Option.some.inj hs
      exact crew_setPool (by rfl) p
    · simp at hs
  | seek pc =>
    obtain rfl := Option.some.inj hs
    exact crew_setPool (jobSeeking_crew _ pc) p
  | wait | leave =>
    obtain rfl := Option.some.inj hs
    exact crew_setPool (by rfl) p
  | rest | add | unborn | waiting => simp [worker] at hs

lemma next_crewed (hI : Inv w s) (hact : ∀ q h, act ≠ .createFail q h)
    (hs : next w s act = some s') (p : Q) : Crewed (w p).num (s.pools p) (s'.pools p) := by
  have hcreate : ∀ q, (createStep (w q).num (s.pools q) act).map (s.setPool q) = some s' →
      Crewed (w p).num (s.pools p) (s'.pools p) := fun q hs => by
    obtain ⟨P, hP, rfl⟩ := Option.map_eq_some_iff.mp hs
    by_cases hp : p = q
    · subst hp
      rw [setPool_self]
      exact createStep_crewed (hI.pools p).staff hact hP
    · rw [setPool_ne hp]
      exact crewed_of_eq rfl
  cases act with
  | start q | storeFirst q | create q | createFail q | store q => exact hcreate q hs
  | enter q i =>
    simp only [next] at hs
    split at hs
    · split at hs
      · obtain rfl := Option.some.inj hs
        exact crewed_of_eq rfl
      · simp at hs
    · simp at hs
  | finish | spurious =>
    simp only [next] at hs
    split at hs
    · obtain rfl := Option.some.inj hs
      exact crewed_of_eq rfl
    · simp at hs
  | call =>
    simp only [next] at hs
    split at hs
    · obtain rfl := Option.some.inj hs
      exact crewed_of_eq rfl
    · obtain rfl := Option.some.inj hs
      exact crewed_of_eq rfl
    · simp at hs
  | step t =>
    cases hcall : (s.pcs t).call with
    | some x =>
      obtain ⟨q, job, a⟩ := x
      rw [next_add (call_eq_some hcall)] at hs
      exact crewed_of_eq (thrdpoolAdd_crew hs p)
    | none =>
      cases t with
      | outside k => cases hpc : s.pcs (.outside k) <;> simp_all [next, Pc.call]
      | worker q i =>
        rw [next_worker hcall] at hs
        exact crewed_of_eq (worker_crew hs p)

end Moves

/-! ### What every move keeps -/

/-- The workers that `thrdpool_destroy` has not joined yet. -/
def DestroyPc.left (n : ℕ) : DestroyPc → List ℕ
  | .idle | .await => List.range n
  | .cancel left => left
  | .join i left => i :: left
  | .returned => []

/-- Whether the promise has been waited for. -/
def DestroyPc.begun : DestroyPc → Bool
  | .idle | .await => false
  | .cancel _ | .join _ _ | .returned => true

/-- Where a thread stands that acts on its cancellation. -/
def LifeOk (pc : Pc Q B) : Life → Prop
  | .runs => True
  | .relocks => pc = .woken
  | .unlocks => pc = .seek .count
  | .ended => pc = .rest

/-- What holds of a pool of `n` workers and of its destruction. -/
structure DestroyOk (n : ℕ) (d : Closing Q B) (q : Q) : Prop where
  manned : (d.base.pools q).Manned
  stored : d.destroy q ≠ .idle → (d.base.pools q).Stored
  strangers : d.destroy q ≠ .idle → ∀ t, ¬ t.WorksFor q → ∀ job a, d.base.pcs t ≠ .add q job a
  done : (d.destroy q).begun = true → (d.base.pools q).creator.done n = true
  left : ∀ i ∈ (d.destroy q).left n, i < n
  gone : ∀ i < n, i ∉ (d.destroy q).left n → d.life (.worker q i) = .ended
  asked : ∀ i, d.cancelled (.worker q i) = true → (d.destroy q).begun = true
  joined : ∀ i left, d.destroy q = .join i left → d.cancelled (.worker q i) = true

structure Closing.Sound (w : Q → Workers) (d : Closing Q B) : Prop where
  base : Inv w d.base
  lives : ∀ t, LifeOk (d.base.pcs t) (d.life t)
  obeys : ∀ t, d.life t ≠ .runs → d.cancelled t = true
  pools : ∀ q, DestroyOk (w q).num d q

section Sound

variable {w : Q → Workers} {d d' : Closing Q B} {s s' : State Q B} {q p : Q} {t u : Tid Q}
  {act : Act Q B} {m : Move Q B} {i j n : ℕ} {job : Job B} {a : AddPc} {pc pc' : Pc Q B}

lemma thread_of_restarts (h : act.restarts = some t) : act.thread = some t := by
  cases act <;> simp_all [Act.restarts, Act.thread]

lemma Goes.others (h : Goes t act pc pc') (ht : act.thread ≠ some t) :
    pc' = pc ∨ pc = .waiting ∧ pc' = .woken := by
  cases h with
  | stay => exact .inl rfl
  | wake => exact .inr ⟨rfl, rfl⟩
  | restart _ _ h => exact absurd (thread_of_restarts h) ht
  | call q b job h | add q job a a' h | ret q job a h | seek _ _ h | leave job h =>
    exact absurd (by rw [h]; rfl) ht

lemma Goes.adds (h : Goes t act pc (.add q job a)) :
    (∃ a', pc = .add q job a') ∨ ∃ b, act = .call t (some q) b := by
  cases h with
  | stay => exact .inl ⟨a, rfl⟩
  | call q b job h => exact .inr ⟨_, h⟩
  | add q job a a' h => exact .inl ⟨a, rfl⟩
  | seek _ _ _ _ hpc' => simp [Pc.inLoop] at hpc'

lemma runs_of_goesOn (h : d.goesOn t = true) : d.life t = .runs := by
  unfold Closing.goesOn at h
  split at h
  · assumption
  · assumption
  · simp at h

lemma LifeOk.runs_of_add (h : LifeOk (.add q job a) (d.life t)) : d.life t = .runs := by
  cases hl : d.life t <;> rw [hl] at h <;> simp [LifeOk] at h ⊢

lemma DestroyOk.keep (h : DestroyOk n d q)
    (hcrew : Crewed n (d.base.pools q) (d'.base.pools q)) (hdestroy : d'.destroy q = d.destroy q)
    (hcancelled : d'.cancelled = d.cancelled)
    (hadd : d.destroy q ≠ .idle → ∀ t, ¬ t.WorksFor q → ∀ job a,
      d'.base.pcs t = .add q job a → ∃ a', d.base.pcs t = .add q job a')
    (hlife : ∀ t, d.life t = .ended → d'.life t = .ended) : DestroyOk n d' q := by
  refine ⟨hcrew.manned h.manned, ?_, ?_, ?_, ?_, ?_, ?_, ?_⟩ <;> rw [hdestroy]
  · exact fun hne => hcrew.stored (h.stored hne)
  · intro hne t ht job a hpc
    obtain ⟨a', ha'⟩ := hadd hne t ht job a hpc
    exact h.strangers hne t ht job a' ha'
  · exact fun hb => hcrew.done (h.done hb)
  · exact h.left
  · exact fun i hi hleft => hlife _ (h.gone i hi hleft)
  · rw [hcancelled]
    exact h.asked
  · rw [hcancelled]
    exact h.joined

variable [DecidableEq Q]

/-- What a move can be, and what it leads to. -/
inductive Closing.Steps (w : Q → Workers) (d : Closing Q B) : Move Q B → Closing Q B → Prop
  | base (act : Act Q B) (s : State Q B) (hgo : act.thread.all d.goesOn = true)
    (hs : ThreadPool.next w d.base act = some s) :
    Steps w d (.base act) { d with base := s, tested := act.untest d.tested }
  | pass (q : Q) (i : ℕ) (hlife : d.life (.worker q i) = .runs)
    (hpc : d.base.pcs (.worker q i) = .top) (htested : d.tested (.worker q i) = false)
    (hc : d.cancelled (.worker q i) = false) :
    Steps w d (.testcancel q i) { d with tested := Function.update d.tested (.worker q i) true }
  | quit (q : Q) (i : ℕ) (hlife : d.life (.worker q i) = .runs)
    (hpc : d.base.pcs (.worker q i) = .top) (htested : d.tested (.worker q i) = false)
    (hc : d.cancelled (.worker q i) = true) :
    Steps w d (.testcancel q i) (d.terminate (.worker q i))
  | drop (q : Q) (i : ℕ) (hlife : d.life (.worker q i) = .runs)
    (hpc : d.base.pcs (.worker q i) = .rest) (hc : d.cancelled (.worker q i) = true) :
    Steps w d (.obey q i) (d.terminate (.worker q i))
  | rouse (q : Q) (i : ℕ) (hlife : d.life (.worker q i) = .runs)
    (hpc : d.base.pcs (.worker q i) = .waiting ∨ d.base.pcs (.worker q i) = .woken)
    (hc : d.cancelled (.worker q i) = true) :
    Steps w d (.obey q i) { d with
      base := d.base.setPc (.worker q i) .woken
      life := Function.update d.life (.worker q i) .relocks }
  | relock (q : Q) (i : ℕ) (s : State Q B) (hlife : d.life (.worker q i) = .relocks)
    (hs : ThreadPool.next w d.base (.step (.worker q i)) = some s) :
    Steps w d (.unwind q i)
      { d with base := s, life := Function.update d.life (.worker q i) .unlocks }
  | unlock (q : Q) (i : ℕ) (hlife : d.life (.worker q i) = .unlocks) :
    Steps w d (.unwind q i) ({ d with
      base := d.base.setPool q { d.base.pools q with seekMtx := none } }.terminate (.worker q i))
  | destroy (q : Q) (hidle : d.destroy q = .idle) :
    Steps w d (.destroy q) (d.setDestroy q .await)
  | destroyStep (q : Q) (d' : Closing Q B) (hs : thrdpoolDestroy w d q (d.destroy q) = some d') :
    Steps w d (.destroyStep q) d'

lemma Closing.steps (hs : d.next w m = some d') : d.Steps w m d' := by
  cases m with
  | base act =>
    simp only [Closing.next] at hs
    split at hs
    · rename_i hgo
      obtain ⟨s, hn, rfl⟩ := Option.map_eq_some_iff.mp hs
      exact .base act s hgo hn
    · simp at hs
  | testcancel q i =>
    simp only [Closing.next] at hs
    split at hs
    · rename_i hlife hpc htested
      split at hs
      · rename_i hc
        obtain rfl := Option.some.inj hs
        exact .quit q i hlife hpc htested hc
      · rename_i hc
        obtain rfl := Option.some.inj hs
        exact .pass q i hlife hpc htested (Bool.eq_false_of_not_eq_true hc)
    · simp at hs
  | obey q i =>
    simp only [Closing.next] at hs
    split at hs
    · rename_i hlife hc hpc
      obtain rfl := Option.some.inj hs
      exact .drop q i hlife hpc hc
    · rename_i hlife hc hpc
      obtain rfl := Option.some.inj hs
      exact .rouse q i hlife (.inl hpc) hc
    · rename_i hlife hc hpc
      obtain rfl := Option.some.inj hs
      exact .rouse q i hlife (.inr hpc) hc
    · simp at hs
  | unwind q i =>
    simp only [Closing.next] at hs
    split at hs
    · rename_i hlife
      obtain ⟨s, hn, rfl⟩ := Option.map_eq_some_iff.mp hs
      exact .relock q i s hlife hn
    · rename_i hlife
      obtain rfl := Option.some.inj hs
      exact .unlock q i hlife
    · simp at hs
  | destroy q =>
    simp only [Closing.next] at hs
    split at hs
    · rename_i hidle
      obtain rfl := Option.some.inj hs
      exact .destroy q hidle
    · simp at hs
  | destroyStep q => exact .destroyStep q d' hs

lemma sound_base (h : d.Sound w) (hok : d.Orderly (.base act))
    (hgo : act.thread.all d.goesOn = true) (hs : next w d.base act = some s) :
    Closing.Sound w { d with base := s, tested := act.untest d.tested } := by
  obtain ⟨hown, hkeeps⟩ := hok
  have hgoes := next_goes hown hs
  refine ⟨inv_step h.base hown hs, fun t => ?_, h.obeys, fun q => ?_⟩
  · -- whoever acts on its cancellation is not moved by anyone
    have hlives := h.lives t
    cases hl : d.life t with
    | runs => trivial
    | _ =>
      have ht : act.thread ≠ some t := fun ht => by
        rw [ht] at hgo
        simp [runs_of_goesOn hgo] at hl
      rw [hl] at hlives
      rcases (hgoes t).others ht with he | ⟨hw, -⟩
      · exact he ▸ hlives
      · simp [LifeOk, hw] at hlives
  · refine (h.pools q).keep (next_crewed h.base (fun q k hact => ?_) hs q) rfl rfl
      (fun hne t ht job a hpc => ?_) fun _ => id
    · rw [hact] at hkeeps
      exact hkeeps
    · have hg := hgoes t
      rw [hpc] at hg
      rcases hg.adds with ha | ⟨b, rfl⟩
      · exact ha
      · exact (hkeeps.elim ht hne).elim

omit [DecidableEq Q] in
lemma Closing.Sound.worker (h : d.Sound w) (t : Tid Q) (hbase : Inv w d'.base)
    (hcrew : ∀ p, (d'.base.pools p).crew = (d.base.pools p).crew)
    (hdestroy : d'.destroy = d.destroy) (hcancelled : d'.cancelled = d.cancelled)
    (hlife : d.life t ≠ .ended) (ht : d.cancelled t = true)
    (hself : LifeOk (d'.base.pcs t) (d'.life t))
    (hadd : ∀ q job a, d'.base.pcs t ≠ .add q job a)
    (hpcs : ∀ u, u ≠ t → d'.base.pcs u = d.base.pcs u)
    (hlives : ∀ u, u ≠ t → d'.life u = d.life u) : d'.Sound w := by
  refine ⟨hbase, fun u => ?_, fun u hu => ?_, fun q => ?_⟩
  · by_cases hut : u = t
    · exact hut ▸ hself
    · rw [hpcs u hut, hlives u hut]
      exact h.lives u
  · rw [hcancelled]
    by_cases hut : u = t
    · exact hut ▸ ht
    · exact h.obeys u (by rwa [hlives u hut] at hu)
  · refine (h.pools q).keep (crewed_of_eq (hcrew q)) (by rw [hdestroy]) hcancelled
      (fun _ u _ job a hpc => ?_) fun u hu => ?_
    · have hut : u ≠ t := by
        rintro rfl
        exact hadd q job a hpc
      exact ⟨a, by rwa [hpcs u hut] at hpc⟩
    · have hut : u ≠ t := by
        rintro rfl
        exact hlife hu
      rw [hlives u hut, hu]

lemma place_inv (h : Inv w s) (hpc : s.pcs t = .rest ∨ s.pcs t = .top ∨ s.pcs t = .waiting ∨
    s.pcs t = .woken) (hpc' : pc' = .rest ∨ pc' = .woken) : Inv w (s.setPc t pc') := by
  have hout : (∀ p, (s.pcs t).inside t ≠ some p) ∧ (s.pcs t).call = none ∧ s.pcs t ≠ .unborn := by
    rcases hpc with hpc | hpc | hpc | hpc <;> simp [hpc, Pc.inside, Pc.call]
  have hout' : (∀ p, pc'.inside t ≠ some p) ∧ pc'.call = none ∧ pc' ≠ .waiting ∧ pc' ≠ .unborn := by
    rcases hpc' with rfl | rfl <;> simp [Pc.inside, Pc.call]
  obtain ⟨hin, hcall, hborn⟩ := hout
  obtain ⟨hin', hcall', hw, hborn'⟩ := hout'
  exact ⟨place_ok pc' h hin hin' hw hborn' hborn, place_ledger h (hcall'.trans hcall.symm)⟩

lemma unlock_inv (h : Inv w s) (hpc : s.pcs (.worker q i) = .seek .count) :
    Inv w ((s.setPool q { s.pools q with seekMtx := none }).setPc (.worker q i) .rest) := by
  set s' := (s.setPool q { s.pools q with seekMtx := none }).setPc (.worker q i) .rest with hs'
  have hself : s'.pcs (.worker q i) = .rest := setPc_self
  have hF : Frame s s' (.worker q i) q := by
    refine ⟨fun p hp => setPool_ne hp, fun u hu => .inl (setPc_ne hu), fun p hp => ?_,
      fun p hp => ?_, ?_, ?_, ?_⟩
    · simpa [hpc, Pc.inside, eq_comm] using hp
    · simp [hself, Pc.inside] at hp
    · simp [hself]
    · simp [hpc]
    · simp [hself]
  refine ⟨fun p => ?_, ?_⟩
  · by_cases hp : p = q
    · subst hp
      have hok := h.pools p
      have hm := (hok.locked (.worker p i)).mp (by rw [hpc]; rfl)
      have hquiet : Quiet (w p).num (s.pools p) (Waits s p) := by
        have hheld := hok.held _ hm
        rw [hpc] at hheld
        exact hheld
      have hpool : s'.pools p = { s.pools p with seekMtx := none } := setPool_self
      refine hok.move s' (.worker p i) (fun u hu => hF.inside hu) (.inr hm)
        (.inr ⟨by simp [hself, Pc.inside], by rw [hpool], ?_⟩) (hF.begun_iff p)
        (by rw [hpool]; exact { hok.stock with }) (by rw [hpool]; exact { hok.staff with })
      rw [hpool]
      exact ⟨hquiet.1, fun hw => hquiet.2 (hF.waits (by simp [hself]) hw)⟩
    · exact hF.other hp (h.pools p)
  · rw [hs', calls_setPc, accepted_setPc, calls_setPool, accepted_setPool, accepted_same rfl,
      calls_same (by rw [hpc]; rfl)]
    exact h.ledger

lemma sound_terminate (h : d.Sound w) (hlife : d.life (.worker q i) = .runs)
    (hpc : d.base.pcs (.worker q i) = .rest ∨ d.base.pcs (.worker q i) = .top)
    (hc : d.cancelled (.worker q i) = true) : (d.terminate (.worker q i)).Sound w := by
  refine h.worker (.worker q i) (place_inv h.base (hpc.imp_right .inl) (.inl rfl)) (fun _ => rfl)
    rfl rfl (by simp [hlife]) hc ?_ ?_ (fun u hu => setPc_ne hu)
    fun u hu => Function.update_of_ne hu ..
  · simp [Closing.terminate, LifeOk]
  · simp [Closing.terminate]

lemma sound_rouse (h : d.Sound w) (hlife : d.life (.worker q i) = .runs)
    (hpc : d.base.pcs (.worker q i) = .waiting ∨ d.base.pcs (.worker q i) = .woken)
    (hc : d.cancelled (.worker q i) = true) :
    Closing.Sound w { d with
      base := d.base.setPc (.worker q i) .woken
      life := Function.update d.life (.worker q i) .relocks } := by
  refine h.worker (.worker q i) (place_inv h.base (.inr (.inr hpc)) (.inr rfl)) (fun _ => rfl)
    rfl rfl (by simp [hlife]) hc ?_ ?_ (fun u hu => setPc_ne hu)
    fun u hu => Function.update_of_ne hu ..
  · simp [LifeOk]
  · simp

lemma Closing.Sound.relocks (h : d.Sound w) (hlife : d.life (.worker q i) = .relocks)
    (hs : ThreadPool.next w d.base (.step (.worker q i)) = some s) :
    d.base.pcs (.worker q i) = .woken ∧ ThreadPool.worker w d.base q i .woken = some s := by
  have hpc : d.base.pcs (.worker q i) = .woken := by
    have hlives := h.lives (.worker q i)
    rwa [hlife] at hlives
  rw [next_worker (by rw [hpc]; rfl), hpc] at hs
  exact ⟨hpc, hs⟩

lemma sound_relock (h : d.Sound w) (hlife : d.life (.worker q i) = .relocks)
    (hs : next w d.base (.step (.worker q i)) = some s) :
    Closing.Sound w
      { d with base := s, life := Function.update d.life (.worker q i) .unlocks } := by
  obtain ⟨hpc, hstep⟩ := h.relocks hlife hs
  have hown : OwnQueue d.base (.step (.worker q i)) := by simp [OwnQueue, OwnAdd, hpc]
  have hself : s.pcs (.worker q i) = .seek .count := by
    simp only [ThreadPool.worker] at hstep
    split at hstep
    · obtain rfl := Option.some.inj hstep
      exact setPc_self
    · simp at hstep
  refine h.worker (.worker q i) (inv_step h.base hown hs) (fun p => worker_crew hstep p) rfl rfl
    (by simp [hlife]) (h.obeys _ (by simp [hlife])) ?_ ?_ (fun u hu => worker_others hstep hu)
    fun u hu => Function.update_of_ne hu ..
  · simp [LifeOk, hself]
  · simp [hself]

lemma sound_unlock (h : d.Sound w) (hlife : d.life (.worker q i) = .unlocks) :
    ({ d with base := d.base.setPool q { d.base.pools q with seekMtx := none } }.terminate
      (.worker q i)).Sound w := by
  have hpc : d.base.pcs (.worker q i) = .seek .count := by
    have hlives := h.lives (.worker q i)
    rwa [hlife] at hlives
  refine h.worker (.worker q i) (unlock_inv h.base hpc) (crew_setPool (by rfl)) rfl rfl
    (by simp [hlife]) (h.obeys _ (by simp [hlife])) ?_ ?_ (fun u hu => setPc_ne hu)
    fun u hu => Function.update_of_ne hu ..
  · simp [Closing.terminate, LifeOk]
  · simp [Closing.terminate]

/-! ### Destroying -/

omit [DecidableEq Q] in
lemma DestroyPc.ne_idle {pc : DestroyPc} (h : pc.begun = true) : pc ≠ .idle := by
  rintro rfl
  cases h

omit [DecidableEq Q] in
/-- Once `worker_creator` is done, the handle of its thread stands in each worker. -/
lemma DestroyOk.os_eq (h : DestroyOk n d q) {begun : ℕ → Prop}
    (hstaff : Staff n (d.base.pools q) begun) (hb : (d.destroy q).begun = true) (hi : i < n) :
    (d.base.pools q).os i = some ((d.base.pools q).thr i) := by
  have hdone := h.done hb
  cases hcr : (d.base.pools q).creator with
  | store => simp [hcr, Creator.done] at hdone
  | create k =>
    rcases Nat.eq_zero_or_pos i with rfl | hpos
    · exact h.stored (DestroyPc.ne_idle hb)
    · have hlt : i < (d.base.pools q).creator.index := by
        rw [hcr] at hdone ⊢
        exact hi.trans_le (of_decide_eq_true hdone)
      obtain ⟨x, hx⟩ := Option.ne_none_iff_exists'.mp (h.manned i hpos hlt)
      rcases hstaff.stored i x hx with hthr | ⟨-, hzero | ⟨x', hst⟩⟩
      · rw [hthr, hx]
      · omega
      · simp [hcr] at hst

omit [DecidableEq Q] in
lemma DestroyOk.thread (h : DestroyOk n d q) {begun : ℕ → Prop}
    (hstaff : Staff n (d.base.pools q) begun) (hb : (d.destroy q).begun = true) (hi : i < n) :
    (d.base.pools q).thread n ((d.base.pools q).thr i) = some i := by
  have hos := h.os_eq hstaff hb hi
  cases hf : (d.base.pools q).thread n ((d.base.pools q).thr i) with
  | none =>
    have habsent := List.find?_eq_none.mp hf i (List.mem_range.mpr hi)
    simp [hos] at habsent
  | some j =>
    have hj : (d.base.pools q).os j = some ((d.base.pools q).thr i) := by
      simpa using List.find?_some hf
    rw [hstaff.inj j i _ hj hos]

lemma sound_destroy (h : d.Sound w) (hok : d.Orderly (.destroy q)) (hidle : d.destroy q = .idle) :
    (d.setDestroy q .await).Sound w := by
  obtain ⟨hstored, hstrangers⟩ := hok
  refine ⟨h.base, h.lives, h.obeys, fun p => ?_⟩
  have hp := h.pools p
  by_cases hpq : p = q
  · subst hpq
    have hnot : ∀ i, d.cancelled (.worker p i) ≠ true := fun i hi => by
      have hb := hp.asked i hi
      simp [hidle, DestroyPc.begun] at hb
    have hself : (d.setDestroy p .await).destroy p = .await := Function.update_self ..
    refine ⟨hp.manned, fun _ => hstored, fun _ => hstrangers, ?_, ?_, ?_, fun i hi => ?_, ?_⟩
    · simp [hself, DestroyPc.begun]
    · simp [hself, DestroyPc.left]
    · intro i hi hleft
      simp [hself, DestroyPc.left, hi] at hleft
    · exact absurd hi (hnot i)
    · simp [hself]
  · have hother : (d.setDestroy q .await).destroy p = d.destroy p := Function.update_of_ne hpq ..
    exact hp.keep (crewed_of_eq rfl) hother rfl (fun _ _ _ _ a ha => ⟨a, ha⟩) fun _ => id

lemma Closing.Sound.destroying (h : d.Sound w) {pc : DestroyPc} (c : Tid Q → Bool)
    (hne : d.destroy q ≠ .idle) (hb : pc.begun = true)
    (hdone : (d.base.pools q).creator.done (w q).num = true)
    (hleft : ∀ i ∈ pc.left (w q).num, i < (w q).num)
    (hgone : ∀ i < (w q).num, i ∉ pc.left (w q).num → d.life (.worker q i) = .ended)
    (hjoined : ∀ i left, pc = .join i left → c (.worker q i) = true)
    (hmono : ∀ t, d.cancelled t = true → c t = true)
    (hothers : ∀ p i, p ≠ q → c (.worker p i) = d.cancelled (.worker p i)) :
    { d.setDestroy q pc with cancelled := c }.Sound w := by
  refine ⟨h.base, h.lives, fun t ht => hmono t (h.obeys t ht), fun p => ?_⟩
  have hp := h.pools p
  by_cases hpq : p = q
  · subst hpq
    have hself : (d.setDestroy p pc).destroy p = pc := Function.update_self ..
    refine ⟨hp.manned, fun _ => hp.stored hne, fun _ => hp.strangers hne, fun _ => hdone, ?_, ?_,
      fun _ _ => ?_, ?_⟩
    · simp only [hself]
      exact hleft
    · simp only [hself]
      exact hgone
    · simp only [hself]
      exact hb
    · simp only [hself]
      exact hjoined
  · have hother : (d.setDestroy q pc).destroy p = d.destroy p := Function.update_of_ne hpq ..
    refine ⟨hp.manned, ?_, ?_, ?_, ?_, ?_, fun i hi => ?_, fun i left hi => ?_⟩
    · simp only [hother]
      exact hp.stored
    · simp only [hother]
      exact hp.strangers
    · simp only [hother]
      exact hp.done
    · simp only [hother]
      exact hp.left
    · simp only [hother]
      exact hp.gone
    · simp only [hothers p i hpq] at hi
      simp only [hother]
      exact hp.asked i hi
    · simp only [hother] at hi
      exact hmono _ (hp.joined i left hi)

lemma sound_destroyStep (hn : (w q).num < 2 ^ 31) (h : d.Sound w)
    (hs : thrdpoolDestroy w d q (d.destroy q) = some d') : d'.Sound w := by
  have hq := h.pools q
  have hdone := hq.done
  have hleft := hq.left
  have hgone := hq.gone
  cases hd : d.destroy q with
  | idle | returned => simp [hd, thrdpoolDestroy] at hs
  | await =>
    simp only [hd, thrdpoolDestroy] at hs
    split at hs
    · rename_i hdone
      obtain rfl := Option.some.inj hs
      refine h.destroying d.cancelled (by simp [hd]) rfl hdone (fun i hi => ?_)
        (fun i hi hout => absurd ?_ hout) (by simp) (fun _ => id) fun _ _ _ => rfl
      · simpa [DestroyPc.left, countDown_eq hn] using hi
      · simpa [DestroyPc.left, countDown_eq hn] using hi
    · simp at hs
  | cancel left =>
    rw [hd] at hdone hleft hgone
    cases left with
    | nil =>
      simp only [hd, thrdpoolDestroy] at hs
      obtain rfl := Option.some.inj hs
      exact h.destroying d.cancelled (by simp [hd]) rfl (hdone rfl) hleft hgone (by simp)
        (fun _ => id) fun _ _ _ => rfl
    | cons i left =>
      have hi := hleft i (List.mem_cons_self ..)
      have hthread := hq.thread (h.base.pools q).staff (by rw [hd]; rfl) hi
      simp only [hd, thrdpoolDestroy, hthread] at hs
      obtain rfl := Option.some.inj hs
      refine h.destroying _ (by simp [hd]) rfl (hdone rfl) hleft hgone (fun j l hj => ?_)
        (fun t ht => ?_) fun p j hp => ?_
      · obtain ⟨rfl, -⟩ := by simpa using hj
        exact Function.update_self ..
      · by_cases hti : t = .worker q i
        · rw [hti]
          exact Function.update_self ..
        · rwa [Function.update_of_ne hti]
      · exact Function.update_of_ne (by simp [hp]) ..
  | join j left =>
    rw [hd] at hdone hleft hgone
    simp only [hd, thrdpoolDestroy] at hs
    split at hs
    · rename_i hended
      obtain rfl := Option.some.inj hs
      refine h.destroying d.cancelled (by simp [hd]) rfl (hdone rfl)
        (fun i hi => hleft i (List.mem_cons_of_mem _ hi)) (fun i hi hout => ?_) (by simp)
        (fun _ => id) fun _ _ _ => rfl
      by_cases hij : i = j
      · rw [hij, hended]
      · exact hgone i hi (by simpa [DestroyPc.left, hij] using hout)
    · simp at hs

lemma sound_step (hn : ∀ q, (w q).num < 2 ^ 31) (h : d.Sound w) (hok : d.Orderly m)
    (hs : d.next w m = some d') : d'.Sound w := by
  cases Closing.steps hs with
  | base act s hgo hstep => exact sound_base h hok hgo hstep
  | pass => exact { h with pools := fun p => { h.pools p with } }
  | quit q i hlife hpc _ hc => exact sound_terminate h hlife (.inr hpc) hc
  | drop q i hlife hpc hc => exact sound_terminate h hlife (.inl hpc) hc
  | rouse q i hlife hpc hc => exact sound_rouse h hlife hpc hc
  | relock q i s hlife hstep => exact sound_relock h hlife hstep
  | unlock q i hlife => exact sound_unlock h hlife
  | destroy q hidle => exact sound_destroy h hok hidle
  | destroyStep q _ hstep => exact sound_destroyStep (hn q) h hstep

omit [DecidableEq Q] in
lemma sound_initial : (Closing.initial : Closing Q B).Sound w := by
  refine ⟨initial_inv, fun t => trivial, fun t ht => absurd rfl ht, fun q => ?_⟩
  have hidle : (Closing.initial : Closing Q B).destroy q = .idle := rfl
  refine ⟨fun j hpos hlt => ?_, fun hne => absurd hidle hne, fun hne => absurd hidle hne, ?_, ?_,
    ?_, ?_, ?_⟩
  · have hone : j < 1 := hlt
    omega
  · simp [hidle, DestroyPc.begun]
  · simp [hidle, DestroyPc.left]
  · intro i hi hout
    simp [hidle, DestroyPc.left, hi] at hout
  · simp [Closing.initial]
  · simp [hidle]

lemma sound_of_trace {ds : List (Closing Q B × Move Q B)} (hn : ∀ q, (w q).num < 2 ^ 31)
    (h : Trace (Closing.next w) Closing.Orderly Closing.initial ds d) : d.Sound w :=
  h.inv (I := fun _ d => d.Sound w) sound_initial fun _ _ _ _ hI hok hs => sound_step hn hI hok hs

end Sound

end CoopTasks.ThreadPool
