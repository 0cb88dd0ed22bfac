import CoopTasks.Placement
import CoopTasks.ThreadPool
import Mathlib.Algebra.Order.BigOperators.Group.Finset
import Mathlib.Tactic.Abel

/-!
What every step of the thread pools keeps: a pool's queues and its counter agree whenever its
mutex is free, and a worker sleeps only while there is nothing to do.
-/

namespace CoopTasks.ThreadPool

open CoopTasks.SizeT CoopTasks.Placement

variable {Q B : Type*} {s s' : State Q B} {q p : Q} {t u : Tid Q} {n : ℕ} {P P' : Pool Q B}
  {pc pc' : Pc Q B} {i j : ℕ} {begun : ℕ → Prop}

/-- How many jobs the workers' own queues hold. -/
def Pool.total (n : ℕ) (P : Pool Q B) : ℕ := ∑ j ∈ Finset.range n, (P.localJobs j).length

/-- The jobs in the shared queue and in the workers' own. -/
def Pool.queued (n : ℕ) (P : Pool Q B) : Multiset (Job B) :=
  (P.jobs : Multiset (Job B)) + ∑ j ∈ Finset.range n, (P.localJobs j : Multiset (Job B))

def Pool.Empty (n : ℕ) (P : Pool Q B) : Prop := P.jobs = [] ∧ ∀ j < n, P.localJobs j = []

/-- The pool whose critical section the thread is in. -/
def Pc.inside (t : Tid Q) : Pc Q B → Option Q
  | .add _ _ .lock => none
  | .add q _ _ => some q
  | .seek _ | .wait | .leave _ =>
    match t with
    | .worker q _ => some q
    | .outside _ => none
  | _ => none

def Waits (s : State Q B) (q : Q) : Prop := ∃ j, s.pcs (.worker q j) = .waiting

def Begun (s : State Q B) (q : Q) (j : ℕ) : Prop := s.pcs (.worker q j) ≠ .unborn

/-- What holds of a pool's queues and counter when nobody is changing them. -/
def Quiet (n : ℕ) (P : Pool Q B) (waits : Prop) : Prop :=
  P.numLocalJobs = P.total n ∧ (waits → P.Empty n)

/-- What holds of them when the thread that has the mutex is at `pc`. -/
def Holder (n : ℕ) (P : Pool Q B) (waits : Prop) (t : Tid Q) : Pc Q B → Prop
  | .add _ _ .inc => P.numLocalJobs + 1 = P.total n
  | .add _ _ (.broadcast _) => P.numLocalJobs = P.total n
  | .add _ _ (.unlock _) => P.numLocalJobs = P.total n ∧ ¬ waits
  | .seek (.sub _) => P.numLocalJobs = P.total n + 1 ∧ (waits → P.Empty n)
  | .seek (.steal k) => Quiet n P waits ∧
    ∀ j < n, (j < k ∨ ∃ p, t = .worker p j) → P.localJobs j = []
  | .seek .global => Quiet n P waits ∧ ∀ j < n, P.localJobs j = []
  | .wait => P.numLocalJobs = P.total n ∧ P.Empty n
  | _ => Quiet n P waits

/-- The jobs of a pool: those accepted and not taken are queued, in the queue they belong to. -/
structure Stock (n : ℕ) (P : Pool Q B) (begun : ℕ → Prop) : Prop where
  room : ∀ j, (P.localJobs j).length ≤ maxJobs
  unused : ∀ j, ¬ begun j → P.localJobs j = []
  balance : (P.accepted : Multiset (Job B)) = P.queued n + (P.taken : Multiset (Job B))
  inside : ∀ j, ∀ job ∈ P.localJobs j, job.outside = false
  order : P.accepted.filter Job.outside = P.taken.filter Job.outside ++ P.jobs

/-- The handles of the workers that have been created. -/
structure Staff (n : ℕ) (P : Pool Q B) (begun : ℕ → Prop) : Prop where
  small : ∀ j, P.os j ≠ none → j < n
  nonzero : ∀ j h, P.os j = some h → h ≠ 0
  inj : ∀ j k h, P.os j = some h → P.os k = some h → j = k
  stored : ∀ j h, P.os j = some h →
    P.thr j = h ∨ P.thr j = 0 ∧ (j = 0 ∨ ∃ h', P.creator = .store j h')
  blank : ∀ j, P.os j = none → P.thr j = 0 ∨ 0 < j ∧ j < P.creator.index
  first : 0 < P.creator.index
  ahead : ∀ j, P.creator.index < j → P.os j = none
  atCreate : ∀ k, P.creator = .create k → P.os k = none
  atStore : ∀ k h, P.creator = .store k h → P.os k = some h
  begun : ∀ j, begun j → P.os j ≠ none ∧ (j = 0 → P.creator.done n = true)

/-- Two workers in their loops never have one handle, stored or not. -/
lemma Staff.thr_ne (h : Staff n P begun) (hi : begun i) (hj : begun j) (hij : i ≠ j) :
    P.thr i ≠ P.thr j := by
  obtain ⟨hi1, hi2⟩ := h.begun i hi
  obtain ⟨hj1, hj2⟩ := h.begun j hj
  obtain ⟨a, ha⟩ := Option.ne_none_iff_exists'.mp hi1
  obtain ⟨b, hb⟩ := Option.ne_none_iff_exists'.mp hj1
  have hne : a ≠ b := by
    rintro rfl
    exact hij (h.inj i j a ha hb)
  have ha0 := h.nonzero i a ha
  have hb0 := h.nonzero j b hb
  -- a handle that is not stored is the first worker's, or the one being created
  rcases h.stored i a ha with hs | ⟨hs, hs'⟩ <;> rcases h.stored j b hb with hs2 | ⟨hs2, hs2'⟩
  · omega
  · omega
  · omega
  · rcases hs' with rfl | ⟨h1, h1'⟩ <;> rcases hs2' with rfl | ⟨h2, h2'⟩
    · exact absurd rfl hij
    · simp [h2', Creator.done] at hi2
    · simp [h1', Creator.done] at hj2
    · rw [h1'] at h2'
      cases h2'
      exact absurd rfl hij

lemma createStep_staff (hn : 0 < n) {a : Act Q B} (h : Staff n P begun)
    (hs : createStep n P a = some P') :
    Staff n P' begun ∧ P' = { P with creator := P'.creator, os := P'.os, thr := P'.thr } := by
  obtain ⟨small, nonzero, inj, stored, blank, first, ahead, atCreate, atStore, hbegun⟩ := h
  cases a with
  | start q k =>
    simp only [createStep] at hs
    split at hs
    · rename_i hc
      obtain rfl := by simpa using hs
      obtain ⟨h0, hk, hf⟩ := hc
      refine ⟨?_, rfl⟩
      constructor <;> grind [Function.update_apply, Creator.index]
    · simp at hs
  | storeFirst q =>
    obtain ⟨k, hk, rfl⟩ := by simpa [createStep] using hs
    refine ⟨?_, rfl⟩
    constructor <;> grind [Function.update_apply, Creator.index]
  | create q k =>
    simp only [createStep] at hs
    split at hs
    · rename_i i hi
      split at hs
      · rename_i hc
        obtain rfl := by simpa using hs
        obtain ⟨h0, hk, hf⟩ := hc
        refine ⟨?_, rfl⟩
        constructor <;> grind [Function.update_apply, Creator.index, Creator.done, Fresh]
      · simp at hs
    · simp at hs
  | createFail q k =>
    simp only [createStep] at hs
    split at hs
    · rename_i i hi
      split at hs
      · rename_i hc
        obtain rfl := by simpa using hs
        refine ⟨?_, rfl⟩
        constructor <;> grind [Function.update_apply, Creator.index, Creator.done]
      · simp at hs
    · simp at hs
  | store q =>
    simp only [createStep] at hs
    split at hs
    · simp at hs
    · rename_i i k hi
      obtain rfl := by simpa using hs
      refine ⟨?_, rfl⟩
      constructor <;> grind [Function.update_apply, Creator.index, Creator.done]
  | enter | call | finish | spurious | step => simp [createStep] at hs

/-! ### Taking and adding jobs -/

variable {job : Job B} {l : List (Job B)}

@[simp] lemma setLocal_jobs : (P.setLocal i l).jobs = P.jobs := rfl
@[simp] lemma setLocal_accepted : (P.setLocal i l).accepted = P.accepted := rfl
@[simp] lemma setLocal_taken : (P.setLocal i l).taken = P.taken := rfl
@[simp] lemma setLocal_seekMtx : (P.setLocal i l).seekMtx = P.seekMtx := rfl
@[simp] lemma setLocal_numLocalJobs : (P.setLocal i l).numLocalJobs = P.numLocalJobs := rfl

lemma dequeue_some {q : List (Job B)} (h : queueDequeue q = some (job, l)) : q = job :: l := by
  cases q with
  | nil => simp [queueDequeue] at h
  | cons x r =>
    obtain ⟨rfl, rfl⟩ : x = job ∧ r = l := by simpa [queueDequeue] using h
    rfl

lemma dequeue_none {q : List (Job B)} (h : queueDequeue q = none) : q = [] := by
  cases q with
  | nil => rfl
  | cons x r => simp [queueDequeue] at h

lemma total_setLocal (hi : i < n) :
    (P.setLocal i l).total n + (P.localJobs i).length = P.total n + l.length :=
  Placement.sum_update (Finset.mem_range.mpr hi) List.length P.localJobs l

lemma queued_setLocal (hi : i < n) :
    (P.setLocal i l).queued n + (P.localJobs i : Multiset (Job B)) = P.queued n + l := by
  have h := Placement.sum_update (Finset.mem_range.mpr hi)
    (fun l : List (Job B) => (l : Multiset (Job B))) P.localJobs l
  simp only [Pool.queued, Pool.setLocal, add_assoc, h]

lemma Stock.pushLocal (h : Stock n P begun) (hi : i < n) (hb : begun i)
    (hq : queueEnqueue (P.localJobs i) job = some l) (hout : job.outside = false) :
    Stock n { P.setLocal i l with accepted := P.accepted ++ [job] } begun := by
  obtain ⟨hlt, rfl⟩ : (P.localJobs i).length < maxJobs ∧ P.localJobs i ++ [job] = l := by
    simpa [queueEnqueue] using hq
  refine ⟨fun j => ?_, fun j hj => ?_, ?_, fun j x hx => ?_, ?_⟩
  · by_cases hij : j = i
    · subst hij; simpa [Pool.setLocal] using Nat.succ_le_of_lt hlt
    · simpa [Pool.setLocal, hij] using h.room j
  · have hij : j ≠ i := by rintro rfl; exact hj hb
    simpa [Pool.setLocal, hij] using h.unused j hj
  · have hq := queued_setLocal (P := P) (l := P.localJobs i ++ [job]) hi
    have hb := h.balance
    have hq' : (P.setLocal i (P.localJobs i ++ [job])).queued n = P.queued n + {job} := by
      rw [← Multiset.coe_add, add_comm (P.localJobs i : Multiset (Job B)), ← add_assoc] at hq
      exact add_right_cancel hq
    show ((P.accepted ++ [job] : List (Job B)) : Multiset (Job B)) =
      (P.setLocal i (P.localJobs i ++ [job])).queued n + P.taken
    rw [hq', ← Multiset.coe_add, hb]
    simp only [Multiset.coe_singleton]
    abel
  · by_cases hij : j = i
    · subst hij
      have hx' : x ∈ P.localJobs j ∨ x = job := by simpa [Pool.setLocal] using hx
      rcases hx' with hx' | rfl
      · exact h.inside j x hx'
      · exact hout
    · exact h.inside j x (by simpa [Pool.setLocal, hij] using hx)
  · simpa [Pool.setLocal, hout] using h.order

lemma Stock.popLocal (h : Stock n P begun) (hi : i < n)
    (hq : queueDequeue (P.localJobs i) = some (job, l)) :
    Stock n { P.setLocal i l with taken := P.taken ++ [job] } begun := by
  have hl := dequeue_some hq
  refine ⟨fun j => ?_, fun j hj => ?_, ?_, fun j x hx => ?_, ?_⟩
  · by_cases hij : j = i
    · subst hij
      have := h.room j
      simp only [hl, List.length_cons, Pool.setLocal, Function.update_self] at this ⊢
      omega
    · simpa [Pool.setLocal, hij] using h.room j
  · have hij : j ≠ i := by
      rintro rfl
      simp [h.unused j hj] at hl
    simpa [Pool.setLocal, hij] using h.unused j hj
  · have hq := queued_setLocal (P := P) (l := l) hi
    have hb := h.balance
    have hq' : P.queued n = (P.setLocal i l).queued n + {job} := by
      rw [hl, ← Multiset.cons_coe, ← Multiset.singleton_add, ← add_assoc] at hq
      exact (add_right_cancel hq).symm
    show (P.accepted : Multiset (Job B)) =
      (P.setLocal i l).queued n + ((P.taken ++ [job] : List (Job B)) : Multiset (Job B))
    rw [hb, hq', ← Multiset.coe_add]
    simp only [Multiset.coe_singleton]
    abel
  · refine h.inside j x ?_
    by_cases hij : j = i
    · subst hij
      rw [hl]
      exact List.mem_cons_of_mem _ (by simpa [Pool.setLocal] using hx)
    · simpa [Pool.setLocal, hij] using hx
  · have hout := h.inside i job (by simp [hl])
    simpa [Pool.setLocal, hout] using h.order

lemma Stock.pushGlobal (h : Stock n P begun) (hq : queueEnqueue P.jobs job = some l)
    (hout : job.outside = true) :
    Stock n { P with jobs := l, accepted := P.accepted ++ [job] } begun := by
  obtain ⟨-, rfl⟩ : P.jobs.length < maxJobs ∧ P.jobs ++ [job] = l := by
    simpa [queueEnqueue] using hq
  refine ⟨h.room, h.unused, ?_, h.inside, ?_⟩
  · have hb := h.balance
    show ((P.accepted ++ [job] : List (Job B)) : Multiset (Job B)) =
      ((P.jobs ++ [job] : List (Job B)) : Multiset (Job B)) + _ + P.taken
    rw [← Multiset.coe_add, ← Multiset.coe_add, hb, Pool.queued]
    abel
  · show List.filter Job.outside (P.accepted ++ [job]) = _ ++ (P.jobs ++ [job])
    simp [hout, h.order]

lemma Stock.popGlobal (h : Stock n P begun) (hq : queueDequeue P.jobs = some (job, l)) :
    Stock n { P with jobs := l, taken := P.taken ++ [job] } begun := by
  have hl := dequeue_some hq
  have hord := h.order
  have hout : job.outside = true := by
    have hmem : job ∈ P.accepted.filter Job.outside := by
      rw [hord, hl]
      simp
    exact (List.mem_filter.mp hmem).2
  refine ⟨h.room, h.unused, ?_, h.inside, ?_⟩
  · have hb := h.balance
    show (P.accepted : Multiset (Job B)) =
      (l : Multiset (Job B)) + _ + ((P.taken ++ [job] : List (Job B)) : Multiset (Job B))
    rw [hb, Pool.queued, hl, ← Multiset.cons_coe, ← Multiset.singleton_add, ← Multiset.coe_add]
    simp only [Multiset.coe_singleton]
    abel
  · show List.filter Job.outside P.accepted = List.filter Job.outside (P.taken ++ [job]) ++ l
    rw [hord, hl, List.filter_append]
    simp [hout]

lemma Stock.total_le (h : Stock n P begun) : P.total n ≤ n * maxJobs := by
  have := Finset.sum_le_card_nsmul (Finset.range n) (fun j => (P.localJobs j).length) maxJobs
    fun j _ => h.room j
  simpa [Pool.total, nsmul_eq_mul] using this

lemma Stock.take (h : Stock n P begun) (hj : j < n)
    (hq : queueDequeue (P.localJobs j) = some (job, l)) :
    Stock n { P.setLocal j l with taken := P.taken ++ [job] } begun ∧
      (P.setLocal j l).total n + 1 = P.total n ∧ ¬ P.Empty n := by
  have hl := dequeue_some hq
  refine ⟨h.popLocal hj hq, ?_, fun he => by simp [he.2 j hj] at hl⟩
  have := total_setLocal (P := P) (l := l) hj
  rw [hl, List.length_cons] at this
  omega

/-- What a step of `job_seeking` does: it goes on with what it has learnt, or has taken a job,
or has found every queue empty. -/
lemma jobSeeking_ok (h : Stock n P begun) (hst : Staff n P begun) (hi : begun i) {waits : Prop}
    {pc : SeekPc B} (hh : Holder n P waits (.worker q i) (.seek pc)) :
    Stock n (jobSeeking n i P pc).1 begun ∧ Staff n (jobSeeking n i P pc).1 begun ∧
      (jobSeeking n i P pc).1.seekMtx = P.seekMtx ∧
      Holder n (jobSeeking n i P pc).1 waits (.worker q i) (jobSeeking n i P pc).2.pc := by
  have hin := hst.small i (hst.begun i hi).1
  cases pc with
  | count =>
    have hq : Quiet n P waits := hh
    refine ⟨h, hst, rfl, ?_⟩
    by_cases h0 : 0 < P.numLocalJobs
    · simp only [jobSeeking, if_pos h0]
      exact hq
    · simp only [jobSeeking, if_neg h0]
      refine ⟨hq, fun j hj => ?_⟩
      have h0 : P.total n = 0 := by have := hq.1; omega
      exact List.length_eq_zero_iff.mp (Finset.sum_eq_zero_iff.mp h0 j (Finset.mem_range.mpr hj))
  | own =>
    have hq : Quiet n P waits := hh
    simp only [jobSeeking]
    split
    · rename_i job l hdq
      obtain ⟨h1, h2, h3⟩ := h.take hin hdq
      refine ⟨h1, { hst with }, rfl, ?_, fun hw => absurd (hq.2 hw) h3⟩
      show P.numLocalJobs = (P.setLocal i l).total n + 1
      rw [hq.1, h2]
    · rename_i hdq
      refine ⟨h, hst, rfl, hq, fun j _ hj => ?_⟩
      rcases hj with hj | ⟨p, hj⟩
      · omega
      · obtain ⟨-, rfl⟩ : q = p ∧ i = j := by simpa using hj
        exact dequeue_none hdq
  | steal k =>
    obtain ⟨hq, hempty⟩ := hh
    -- a queue that is passed over is the worker's own, or one that no worker uses yet
    have hpast : P.localJobs k = [] → Holder n P waits (.worker q i) (.seek (.steal (k + 1))) := by
      refine fun hk => ⟨hq, fun j hj hor => ?_⟩
      by_cases hjk : j = k
      · exact hjk ▸ hk
      · exact hempty j hj (hor.imp (fun h => by omega) id)
    simp only [jobSeeking]
    split
    · rename_i hk
      split
      · split
        · rename_i job l hdq
          obtain ⟨h1, h2, h3⟩ := h.take hk hdq
          refine ⟨h1, { hst with }, rfl, ?_, fun hw => absurd (hq.2 hw) h3⟩
          show P.numLocalJobs = (P.setLocal k l).total n + 1
          rw [hq.1, h2]
        · rename_i hdq
          exact ⟨h, hst, rfl, hpast (dequeue_none hdq)⟩
      · rename_i hthr
        refine ⟨h, hst, rfl, hpast ?_⟩
        by_cases hki : k = i
        · exact hempty k hk (.inr ⟨q, by rw [hki]⟩)
        · by_cases hb : begun k
          · exact absurd (hst.thr_ne hb hi hki) hthr
          · exact h.unused k hb
    · rename_i hk
      exact ⟨h, hst, rfl, hq, fun j hj => hempty j hj (.inl (by omega))⟩
  | sub job =>
    obtain ⟨hnum, he⟩ : P.numLocalJobs = P.total n + 1 ∧ (waits → P.Empty n) := hh
    refine ⟨{ h with }, { hst with }, rfl, ?_, he⟩
    show sizeSub P.numLocalJobs 1 = P.total n
    rw [hnum, sizeSub_eq (by omega)]
    omega
  | global =>
    obtain ⟨hq, hempty⟩ := hh
    simp only [jobSeeking]
    split
    · rename_i job l hdq
      refine ⟨h.popGlobal hdq, { hst with }, rfl, hq.1, fun hw => ?_⟩
      have := (hq.2 hw).1
      simp [dequeue_some hdq] at this
    · rename_i hdq
      exact ⟨h, hst, rfl, hq.1, dequeue_none hdq, hempty⟩

/-! ### A pool among the others -/

/-- Everything that holds of the pool `q` after every step. -/
structure PoolOk (n : ℕ) (s : State Q B) (q : Q) : Prop where
  locked : ∀ t, (s.pcs t).inside t = some q ↔ (s.pools q).seekMtx = some t
  free : (s.pools q).seekMtx = none → Quiet n (s.pools q) (Waits s q)
  held : ∀ t, (s.pools q).seekMtx = some t → Holder n (s.pools q) (Waits s q) t (s.pcs t)
  stock : Stock n (s.pools q) (Begun s q)
  staff : Staff n (s.pools q) (Begun s q)

lemma Quiet.anti {a b : Prop} (hab : b → a) (h : Quiet n P a) : Quiet n P b :=
  ⟨h.1, fun hb => h.2 (hab hb)⟩

lemma Holder.anti {a b : Prop} (hab : b → a) (h : Holder n P a t pc) : Holder n P b t pc := by
  unfold Holder at h ⊢
  split at h
  · exact h
  · exact h
  · exact ⟨h.1, fun hb => h.2 (hab hb)⟩
  · exact ⟨h.1, fun hb => h.2 (hab hb)⟩
  · exact ⟨h.1.anti hab, h.2⟩
  · exact ⟨h.1.anti hab, h.2⟩
  · exact h
  · exact h.anti hab

lemma Holder.congr {waits : Prop} (h : Holder n P waits t pc)
    (hnum : P'.numLocalJobs = P.numLocalJobs) (hjobs : P'.jobs = P.jobs)
    (hlocal : P'.localJobs = P.localJobs) : Holder n P' waits t pc := by
  unfold Holder Quiet Pool.total Pool.Empty at h ⊢
  rw [hnum, hjobs, hlocal]
  exact h

lemma PoolOk.frame (h : PoolOk n s q) (hpool : s'.pools q = s.pools q)
    (hin : ∀ u, (s'.pcs u).inside u = some q ↔ (s.pcs u).inside u = some q)
    (hheld : ∀ u, (s.pcs u).inside u = some q → s'.pcs u = s.pcs u)
    (hwaits : Waits s' q → Waits s q) (hbegun : ∀ j, Begun s' q j ↔ Begun s q j) :
    PoolOk n s' q := by
  have hb : Begun s' q = Begun s q := funext fun j => propext (hbegun j)
  refine ⟨fun u => ?_, fun hm => ?_, fun u hm => ?_, ?_, ?_⟩
  · rw [hin, hpool]
    exact h.locked u
  · rw [hpool] at hm ⊢
    exact (h.free hm).anti hwaits
  · rw [hpool] at hm ⊢
    rw [hheld u ((h.locked u).mpr hm)]
    exact (h.held u hm).anti hwaits
  · rw [hpool, hb]; exact h.stock
  · rw [hpool, hb]; exact h.staff

/-- What a step of the thread `t` in or at the door of the pool `q` has to show: the thread is
in the critical section and its place is right, or it is outside and the pool is quiet. -/
lemma PoolOk.move (h : PoolOk n s q) (s' : State Q B) (t : Tid Q)
    (hin : ∀ u, u ≠ t → (s'.pcs u).inside u = (s.pcs u).inside u)
    (hbefore : (s.pools q).seekMtx = none ∨ (s.pools q).seekMtx = some t)
    (hafter : (s'.pcs t).inside t = some q ∧ (s'.pools q).seekMtx = some t ∧
        Holder n (s'.pools q) (Waits s' q) t (s'.pcs t) ∨
      (s'.pcs t).inside t ≠ some q ∧ (s'.pools q).seekMtx = none ∧
        Quiet n (s'.pools q) (Waits s' q))
    (hbegun : ∀ j, Begun s' q j ↔ Begun s q j)
    (hstock : Stock n (s'.pools q) (Begun s q))
    (hstaff : Staff n (s'.pools q) (Begun s q)) : PoolOk n s' q := by
  have hb : Begun s' q = Begun s q := funext fun j => propext (hbegun j)
  refine ⟨fun u => ?_, fun hm => ?_, fun u hm => ?_, hb ▸ hstock, hb ▸ hstaff⟩
  · by_cases hu : u = t
    · subst hu
      rcases hafter with ⟨h1, h2, -⟩ | ⟨h1, h2, -⟩ <;> simp [h1, h2]
    · rw [hin u hu, h.locked u]
      have hut : ∀ m : Option (Tid Q), m = none ∨ m = some t → m ≠ some u := by
        rintro m (rfl | rfl) <;> simp [Ne.symm hu]
      have h2 : (s'.pools q).seekMtx = none ∨ (s'.pools q).seekMtx = some t :=
        hafter.elim (fun h => .inr h.2.1) fun h => .inl h.2.1
      exact ⟨fun e => absurd e (hut _ hbefore), fun e => absurd e (hut _ h2)⟩
  · rcases hafter with ⟨-, h2, -⟩ | ⟨-, -, h3⟩
    · simp [h2] at hm
    · exact h3
  · rcases hafter with ⟨-, h2, h3⟩ | ⟨-, h2, -⟩
    · obtain rfl : t = u := by simpa [h2] using hm
      exact h3
    · simp [h2] at hm

/-! ### Steps -/

/-- What a step of the thread `t` in the pool `q` leaves alone. -/
structure Frame (s s' : State Q B) (t : Tid Q) (q : Q) : Prop where
  pools : ∀ p, p ≠ q → s'.pools p = s.pools p
  others : ∀ u, u ≠ t → s'.pcs u = s.pcs u ∨
    s.pcs u = .waiting ∧ s'.pcs u = .woken ∧ ∃ j, u = .worker q j
  before : ∀ p, (s.pcs t).inside t = some p → p = q
  after : ∀ p, (s'.pcs t).inside t = some p → p = q
  sleeps : s'.pcs t = .waiting → ∃ j, t = .worker q j
  born : s.pcs t ≠ .unborn ∧ s'.pcs t ≠ .unborn

lemma Frame.inside (h : Frame s s' t q) (hu : u ≠ t) :
    (s'.pcs u).inside u = (s.pcs u).inside u := by
  rcases h.others u hu with he | ⟨h1, h2, -⟩
  · rw [he]
  · rw [h1, h2]; rfl

lemma Frame.begun_iff (h : Frame s s' t q) (p : Q) (j : ℕ) : Begun s' p j ↔ Begun s p j := by
  by_cases hu : .worker p j = t
  · subst hu
    exact iff_of_true h.born.2 h.born.1
  · rcases h.others _ hu with he | ⟨h1, h2, -⟩
    · simp [Begun, he]
    · simp [Begun, h1, h2]

lemma Frame.waits (h : Frame s s' t q) (hpc : s'.pcs t ≠ .waiting) (hw : Waits s' p) :
    Waits s p := by
  obtain ⟨j, hj⟩ := hw
  by_cases hu : .worker p j = t
  · subst hu
    exact absurd hj hpc
  · rcases h.others _ hu with he | ⟨h1, h2, -⟩
    · exact ⟨j, he ▸ hj⟩
    · simp [h2] at hj

lemma Frame.other (h : Frame s s' t q) (hp : p ≠ q) (hok : PoolOk n s p) : PoolOk n s' p := by
  refine hok.frame (h.pools p hp) (fun u => ?_) (fun u hu => ?_) ?_ (h.begun_iff p)
  · by_cases hu : u = t
    · subst hu
      exact ⟨fun e => absurd (h.after p e) hp, fun e => absurd (h.before p e) hp⟩
    · rw [h.inside hu]
  · by_cases hut : u = t
    · subst hut
      exact absurd (h.before p hu) hp
    · rcases h.others u hut with he | ⟨h1, -⟩
      · exact he
      · simp [h1, Pc.inside] at hu
  · rintro ⟨j, hj⟩
    by_cases hut : .worker p j = t
    · subst hut
      obtain ⟨k, hk⟩ := h.sleeps hj
      obtain ⟨rfl, -⟩ : p = q ∧ j = k := by simpa using hk
      exact absurd rfl hp
    · rcases h.others _ hut with he | ⟨-, h2, -⟩
      · exact ⟨j, he ▸ hj⟩
      · simp [h2] at hj

section Steps

variable [DecidableEq Q] {w : Q → Workers}

@[simp] lemma setPool_pcs : (s.setPool q P).pcs = s.pcs := rfl
@[simp] lemma setPc_pools : (s.setPc t pc).pools = s.pools := rfl
@[simp] lemma wakeAll_pools : (s.wakeAll q).pools = s.pools := rfl
@[simp] lemma setPool_self : (s.setPool q P).pools q = P := by simp [State.setPool]
@[simp] lemma setPc_self : (s.setPc t pc).pcs t = pc := by simp [State.setPc]

@[simp] lemma setPool_setPool : (s.setPool q P).setPool q P' = s.setPool q P' := by
  simp [State.setPool]

lemma setPool_ne (h : p ≠ q) : (s.setPool q P).pools p = s.pools p := by
  simp [State.setPool, h]

lemma setPc_ne (h : u ≠ t) : (s.setPc t pc).pcs u = s.pcs u := by simp [State.setPc, h]

lemma wakeAll_cases (s : State Q B) (q : Q) (u : Tid Q) :
    (s.wakeAll q).pcs u = s.pcs u ∨
      s.pcs u = .waiting ∧ (s.wakeAll q).pcs u = .woken ∧ ∃ j, u = .worker q j := by
  cases u with
  | outside k => exact .inl rfl
  | worker p j =>
    cases hpc : s.pcs (.worker p j) with
    | waiting =>
      by_cases hp : p = q
      · subst hp
        exact .inr ⟨rfl, by simp [State.wakeAll, hpc], j, rfl⟩
      · exact .inl (by simp [State.wakeAll, hpc, hp])
    | _ => exact .inl (by simp [State.wakeAll, hpc])

lemma wakeAll_waits : ¬ Waits (s.wakeAll q) q := by
  rintro ⟨j, hj⟩
  cases hpc : s.pcs (.worker q j) <;> simp [State.wakeAll, hpc] at hj

/-- Whether the worker `i` of the pool `p`, about to put a job of `q` in its own queue, works for
`q` or has its queue full. -/
def OwnAdd (s : State Q B) (p : Q) (i : ℕ) : Pc Q B → Prop
  | .add q _ .enqueue => p = q ∨ maxJobs ≤ ((s.pools p).localJobs i).length
  | _ => True

/-- No worker's own queue takes a job for another pool. -/
def OwnQueue (s : State Q B) : Act Q B → Prop
  | .step (.worker p i) => OwnAdd s p i (s.pcs (.worker p i))
  | _ => True

instance (s : State Q B) (p : Q) (i : ℕ) : (pc : Pc Q B) → Decidable (OwnAdd s p i pc)
  | .add q _ .enqueue =>
    inferInstanceAs (Decidable (p = q ∨ maxJobs ≤ ((s.pools p).localJobs i).length))
  | .add _ _ .lock | .add _ _ .inc | .add _ _ (.broadcast _) | .add _ _ (.unlock _) | .rest
  | .unborn | .top | .seek _ | .wait | .waiting | .woken | .leave _ =>
    inferInstanceAs (Decidable True)

instance (s : State Q B) : (act : Act Q B) → Decidable (OwnQueue s act)
  | .step (.worker p i) => inferInstanceAs (Decidable (OwnAdd s p i (s.pcs (.worker p i))))
  | .step (.outside _) | .start _ _ | .storeFirst _ | .create _ _ | .createFail _ _ | .store _
  | .enter _ _ | .call _ _ _ | .finish _ _ | .spurious _ _ => inferInstanceAs (Decidable True)

variable {job : Job B} {a : AddPc}

lemma thrdpoolAdd_frame (hpc : s.pcs t = .add q job a) (hown : OwnQueue s (.step t))
    (h : thrdpoolAdd s t q job a = some s') : Frame s s' t q := by
  have hin : ∀ p, (s.pcs t).inside t = some p → p = q := by
    intro p hp
    rw [hpc] at hp
    cases a <;> simp [Pc.inside] at hp <;> exact hp.symm
  -- every step but the broadcast changes one pool and the thread's own place
  have key : ∀ (P : Pool Q B) (a' : AddPc) (pc' : Pc Q B), pc' = .add q job a' ∨ pc' = .rest →
      Frame s ((s.setPool q P).setPc t pc') t q := by
    intro P a' pc' hpc'
    refine ⟨fun p hp => by simp [setPool_ne hp], fun u hu => .inl (by simp [setPc_ne hu]), hin,
      fun p hp => ?_, ?_, ?_⟩
    · rw [setPc_self] at hp
      rcases hpc' with rfl | rfl
      · cases a' <;> simp [Pc.inside] at hp <;> exact hp.symm
      · simp [Pc.inside] at hp
    · rcases hpc' with rfl | rfl <;> simp
    · rcases hpc' with rfl | rfl <;> simp [hpc]
  have hsame : s.setPool q (s.pools q) = s := by simp [State.setPool]
  cases a with
  | lock =>
    simp only [thrdpoolAdd] at h
    split at h
    · obtain rfl := by simpa using h
      exact key _ .enqueue _ (.inl rfl)
    · simp at h
  | enqueue =>
    simp only [thrdpoolAdd] at h
    split at h
    · rename_i p i
      split at h
      · rename_i l hl
        have hpq : p = q := by
          simp only [OwnQueue, OwnAdd, hpc] at hown
          rcases hown with hown | hown
          · exact hown
          · simp [queueEnqueue] at hl
            omega
        subst hpq
        obtain rfl := by simpa using h
        exact key _ .inc _ (.inl rfl)
      · obtain rfl := by simpa using h
        simpa only [hsame] using key (s.pools q) (.broadcast false) _ (.inl rfl)
    · split at h
      · obtain rfl := by simpa using h
        exact key _ (.broadcast true) _ (.inl rfl)
      · obtain rfl := by simpa using h
        simpa only [hsame] using key (s.pools q) (.broadcast false) _ (.inl rfl)
  | inc =>
    obtain rfl := by simpa [thrdpoolAdd] using h
    exact key _ (.broadcast true) _ (.inl rfl)
  | broadcast ok =>
    obtain rfl := by simpa [thrdpoolAdd] using h
    refine ⟨fun p hp => rfl, fun u hu => ?_, hin, fun p hp => ?_, by simp, by simp [hpc]⟩
    · rw [setPc_ne hu]
      exact wakeAll_cases s q u
    · simpa [Pc.inside, eq_comm] using hp
  | unlock ok =>
    obtain rfl := by simpa [thrdpoolAdd] using h
    exact { key _ .lock _ (.inr rfl) with }

lemma thrdpoolAdd_ok (h : PoolOk (w q).num s q) (hpc : s.pcs t = .add q job a)
    (hjob : job.outside = t.isOutside) (hown : OwnQueue s (.step t))
    (hs : thrdpoolAdd s t q job a = some s') : PoolOk (w q).num s' q := by
  have hF := thrdpoolAdd_frame hpc hown hs
  have hfits := (w q).fits
  have hmove := fun hb ha hst hsf =>
    h.move s' t (fun u hu => hF.inside hu) hb ha (hF.begun_iff q) hst hsf
  have hin := h.locked t
  rw [hpc] at hin
  -- inside the critical section the mutex is the thread's
  have hmine : a ≠ .lock → (s.pools q).seekMtx = some t := by
    intro ha
    apply hin.mp
    cases a <;> simp_all [Pc.inside]
  have hheld := fun ha => hpc ▸ h.held t (hmine ha)
  cases a with
  | lock =>
    simp only [thrdpoolAdd] at hs
    split at hs
    · rename_i hm
      obtain rfl := by simpa using hs
      have hquiet := (h.free hm).anti (hF.waits (p := q) (by simp))
      refine hmove (.inl hm) (.inl ⟨by simp [Pc.inside], by simp, ?_⟩)
        (by simpa using { h.stock with }) (by simpa using { h.staff with })
      simp only [setPc_pools, setPool_self, setPc_self, Holder]
      exact ⟨hquiet.1, hquiet.2⟩
    · simp at hs
  | enqueue =>
    have hm := hmine (by simp)
    have hquiet : Quiet (w q).num (s.pools q) (Waits s q) := hheld (by simp)
    have hfail : s' = s.setPc t (.add q job (.broadcast false)) → PoolOk (w q).num s' q := by
      rintro rfl
      exact hmove (.inr hm) (.inl ⟨by simp [Pc.inside], hm, by simpa [Holder] using hquiet.1⟩)
        h.stock h.staff
    simp only [thrdpoolAdd] at hs
    split at hs
    · rename_i p i
      split at hs
      · rename_i l hl
        have hpq : p = q := by
          simp only [OwnQueue, OwnAdd, hpc] at hown
          rcases hown with hown | hown
          · exact hown
          · simp [queueEnqueue] at hl
            omega
        subst hpq
        obtain rfl := by simpa using hs
        have hbegun : Begun s p i := by simp [Begun, hpc]
        have hi := h.staff.small i (h.staff.begun i hbegun).1
        have hlen : l.length = ((s.pools p).localJobs i).length + 1 := by
          obtain ⟨-, rfl⟩ : _ ∧ (s.pools p).localJobs i ++ [job] = l := by
            simpa [queueEnqueue] using hl
          simp
        have htot := total_setLocal (P := s.pools p) (l := l) hi
        have hnum := hquiet.1
        refine hmove (.inr hm) (.inl ⟨by simp [Pc.inside], by simpa using hm, ?_⟩) ?_ ?_
        · simp only [setPc_pools, setPool_self, setPc_self, Holder]
          show (s.pools p).numLocalJobs + 1 = ((s.pools p).setLocal i l).total (w p).num
          omega
        · simpa using h.stock.pushLocal hi hbegun hl hjob
        · simpa using { h.staff with }
      · obtain rfl := by simpa using hs
        exact hfail rfl
    · split at hs
      · rename_i l hl
        obtain rfl := by simpa using hs
        refine hmove (.inr hm) (.inl ⟨by simp [Pc.inside], by simpa using hm, ?_⟩) ?_ ?_
        · simp only [setPc_pools, setPool_self, setPc_self, Holder]
          exact hquiet.1
        · simpa using h.stock.pushGlobal hl hjob
        · simpa using { h.staff with }
      · obtain rfl := by simpa using hs
        exact hfail rfl
  | inc =>
    have hm := hmine (by simp)
    have hnum : (s.pools q).numLocalJobs + 1 = (s.pools q).total (w q).num := hheld (by simp)
    have hle := h.stock.total_le
    obtain rfl := by simpa [thrdpoolAdd] using hs
    refine hmove (.inr hm) (.inl ⟨by simp [Pc.inside], by simpa using hm, ?_⟩)
      (by simpa using { h.stock with }) (by simpa using { h.staff with })
    simp only [setPc_pools, setPool_self, setPc_self, Holder]
    rw [sizeAdd_eq (by omega)]
    exact hnum
  | broadcast ok =>
    have hm := hmine (by simp)
    have hnum : (s.pools q).numLocalJobs = (s.pools q).total (w q).num := hheld (by simp)
    obtain rfl := by simpa [thrdpoolAdd] using hs
    refine hmove (.inr hm) (.inl ⟨by simp [Pc.inside], hm, ?_⟩) h.stock h.staff
    simp only [setPc_self, Holder]
    refine ⟨hnum, ?_⟩
    rintro ⟨j, hj⟩
    refine wakeAll_waits (s := s) (q := q) ⟨j, ?_⟩
    by_cases ht : .worker q j = t
    · subst ht; simp at hj
    · rwa [setPc_ne ht] at hj
  | unlock ok =>
    have hm := hmine (by simp)
    obtain ⟨hnum, hnw⟩ : (s.pools q).numLocalJobs = (s.pools q).total (w q).num ∧ ¬ Waits s q :=
      hheld (by simp)
    have hwaits := hF.waits (p := q)
    obtain rfl := by simpa [thrdpoolAdd] using hs
    refine hmove (.inr hm) (.inr ⟨by simp [Pc.inside], by simp, ?_⟩)
      (by simpa using { h.stock with }) (by simpa using { h.staff with })
    simp only [setPool_self]
    exact ⟨hnum, fun hw => absurd (hwaits (by simp) hw) hnw⟩

omit [DecidableEq Q] in
lemma seekRes_pc (q : Q) (i : ℕ) (r : SeekRes B) : (r.pc : Pc Q B).inside (.worker q i) = some q ∧
    (r.pc : Pc Q B) ≠ .unborn ∧ (r.pc : Pc Q B) ≠ .waiting := by
  rcases r with pc | - | job <;> simp [SeekRes.pc, Pc.inside]

lemma worker_frame (hpc : s.pcs (.worker q i) = pc) (h : worker w s q i pc = some s') :
    Frame s s' (.worker q i) q := by
  have key : ∀ (P : Pool Q B) (pc' : Pc Q B), s.pcs (.worker q i) ≠ .unborn →
      (∀ p, (s.pcs (.worker q i)).inside (.worker q i) = some p → p = q) →
      (∀ p, pc'.inside (.worker q i) = some p → p = q) → pc' ≠ .unborn →
      Frame s ((s.setPool q P).setPc (.worker q i) pc') (.worker q i) q := by
    intro P pc' h1 h2 h3 h4
    exact ⟨fun p hp => by simp [setPool_ne hp], fun u hu => .inl (by simp [setPc_ne hu]), h2,
      fun p hp => h3 p (by simpa using hp), fun _ => ⟨i, rfl⟩, h1, by simpa using h4⟩
  subst hpc
  unfold worker at h
  split at h
  · rename_i hpc
    split at h
    · obtain rfl := by simpa using h
      exact key _ _ (by simp [hpc]) (by simp [hpc, Pc.inside]) (by simp [Pc.inside, eq_comm])
        (by simp)
    · simp at h
  · rename_i hpc
    split at h
    · obtain rfl := by simpa using h
      exact key _ _ (by simp [hpc]) (by simp [hpc, Pc.inside]) (by simp [Pc.inside, eq_comm])
        (by simp)
    · simp at h
  · rename_i a hpc
    obtain rfl := by simpa using h
    refine key _ _ (by simp [hpc]) (by simp [hpc, Pc.inside, eq_comm]) ?_ (seekRes_pc q i _).2.1
    intro p hp
    rw [(seekRes_pc q i _).1] at hp
    simpa [eq_comm] using hp
  · rename_i hpc
    obtain rfl := by simpa using h
    exact key _ _ (by simp [hpc]) (by simp [hpc, Pc.inside, eq_comm]) (by simp [Pc.inside])
      (by simp)
  · rename_i hpc
    obtain rfl := by simpa using h
    exact key _ _ (by simp [hpc]) (by simp [hpc, Pc.inside, eq_comm]) (by simp [Pc.inside])
      (by simp)
  · simp at h

lemma worker_ok (h : PoolOk (w q).num s q) (hpc : s.pcs (.worker q i) = pc)
    (hs : worker w s q i pc = some s') : PoolOk (w q).num s' q := by
  have hF := worker_frame hpc hs
  have hmove := fun hb ha hst hsf =>
    h.move s' (.worker q i) (fun u hu => hF.inside hu) hb ha (hF.begun_iff q) hst hsf
  have hwaits := hF.waits (p := q)
  have hmine : pc.inside (.worker q i) = some q → (s.pools q).seekMtx = some (.worker q i) :=
    fun e => (h.locked _).mp (hpc ▸ e)
  have hbegun : pc ≠ .unborn → Begun s q i := fun e => by rwa [Begun, hpc]
  have hheld : pc.inside (.worker q i) = some q →
      Holder (w q).num (s.pools q) (Waits s q) (.worker q i) pc := fun e =>
    hpc ▸ h.held _ (hmine e)
  -- the mutex is taken at the top of the loop and after a wait
  have hlock : (s.pools q).seekMtx = none →
      s' = (s.setPool q { s.pools q with seekMtx := some (.worker q i) }).setPc (.worker q i)
        (.seek .count) → PoolOk (w q).num s' q := by
    rintro hm rfl
    have hquiet := (h.free hm).anti (hwaits (by simp))
    refine hmove (.inl hm) (.inl ⟨by simp [Pc.inside], by simp, ?_⟩)
      (by simpa using { h.stock with }) (by simpa using { h.staff with })
    simp only [setPc_pools, setPool_self, setPc_self, Holder]
    exact ⟨hquiet.1, hquiet.2⟩
  cases pc with
  | top | woken =>
    simp only [worker] at hs
    split at hs
    · rename_i hm
      exact hlock hm (by simpa using hs.symm)
    · simp at hs
  | seek a =>
    have hm := hmine rfl
    obtain ⟨h1, h2, h3, h4⟩ := jobSeeking_ok h.stock h.staff (hbegun (by simp))
      (hheld rfl)
    obtain rfl := by simpa [worker] using hs
    refine hmove (.inr hm) (.inl ⟨?_, by simpa using h3.trans hm, ?_⟩) (by simpa using h1)
      (by simpa using h2)
    · simpa using (seekRes_pc q i _).1
    · refine Holder.anti (hwaits ?_) (by simpa using h4)
      simpa using (seekRes_pc q i _).2.2
  | wait =>
    have hm := hmine rfl
    obtain ⟨hnum, hempty⟩ :
        (s.pools q).numLocalJobs = (s.pools q).total (w q).num ∧ (s.pools q).Empty (w q).num :=
      hheld rfl
    obtain rfl := by simpa [worker] using hs
    refine hmove (.inr hm) (.inr ⟨by simp [Pc.inside], by simp, ?_⟩)
      (by simpa using { h.stock with }) (by simpa using { h.staff with })
    simp only [setPc_pools, setPool_self]
    exact ⟨hnum, fun _ => hempty⟩
  | leave job =>
    have hm := hmine rfl
    have hquiet : Quiet (w q).num (s.pools q) (Waits s q) := hheld rfl
    obtain rfl := by simpa [worker] using hs
    refine hmove (.inr hm) (.inr ⟨by simp [Pc.inside], by simp, ?_⟩)
      (by simpa using { h.stock with }) (by simpa using { h.staff with })
    simp only [setPc_pools, setPool_self]
    exact ⟨hquiet.1, fun hw => hquiet.2 (hwaits (by simp) hw)⟩
  | rest | add | unborn | waiting => simp [worker] at hs

end Steps

end CoopTasks.ThreadPool
