import CoopTasks.Progress
import CoopTasks.ThreadPoolJobs
import Mathlib.Algebra.BigOperators.Group.Finset.Piecewise
import Mathlib.Tactic.Ring

/-!
The thread pools come to rest: their threads move only so often for each call of `thrdpool_add`,
and when none can move any more every job has been taken and every worker sleeps.

A worker goes through its loop once for each job and once for each time that it is woken, and
only a `thrdpool_add` brings a job and wakes workers. So each call has to pay for its own steps,
for its job, and for all workers of its pool.
-/

namespace CoopTasks.ThreadPool

open CoopTasks.SizeT CoopTasks.Machine CoopTasks.Progress

variable {Q B : Type*} {s s' s₀ : State Q B} {q p : Q} {t u : Tid Q} {w : Q → Workers}
  {n m i k : ℕ} {P P' : Pool Q B} {act : Act Q B} {job : Job B} {a : AddPc}
  {ls : List (State Q B × Act Q B)}

/-! ### What is left to do -/

/-- The steps of `job_seeking` and of the loop around it that are left, if it takes no job that
it does not have yet; pools have at most `n` workers. -/
def SeekPc.left (n : ℕ) : SeekPc B → ℕ
  | .count => n + 5
  | .own => n + 4
  | .steal j => n - j + 3
  | .global => 2
  | .sub _ => n + 9

/-- The steps of `thrdpool_add` that are left, with those of the workers it will wake and of the
one that will take its job. -/
def AddPc.left (n : ℕ) : AddPc → ℕ
  | .lock => n * (n + 6) + (n + 7) + 5
  | .enqueue => n * (n + 6) + (n + 7) + 4
  | .inc => n * (n + 6) + 3
  | .broadcast _ => n * (n + 6) + 2
  | .unlock _ => 1

/-- The steps a thread has left before it sleeps or rests; `home` are those of a worker whose job
returns. -/
def Pc.left (n home : ℕ) : Pc Q B → ℕ
  | .rest => home
  | .add _ _ a => a.left n + home
  | .unborn => n + 7
  | .top | .woken => n + 6
  | .seek pc => pc.left n
  | .wait => 1
  | .waiting => 0
  | .leave _ => n + 8

def Tid.home (n : ℕ) : Tid Q → ℕ
  | .outside _ => 0
  | .worker _ _ => n + 7

def State.left (n : ℕ) (s : State Q B) (t : Tid Q) : ℕ := (s.pcs t).left n (t.home n)

/-- The steps of `worker_creator` that are left. -/
def Creator.left (n : ℕ) : Creator → ℕ
  | .create i => 2 * (n - i)
  | .store i _ => 2 * (n - i) - 1

/-- What the jobs of a pool that are still queued will cost, and the creation of its workers. -/
def Pool.due (n m : ℕ) (P : Pool Q B) : ℕ :=
  (n + 7) * (P.jobs.length + P.total m) + P.creator.left n

/-- Whether a thread moves by itself: it takes a step, its job returns, or a worker is created or
starts. -/
def Act.drives : Act Q B → Bool
  | .start _ _ | .storeFirst _ | .call _ _ _ | .spurious _ _ => false
  | _ => true

/-- Whether this is a call of `thrdpool_add`, or a worker wakes up without having been woken. -/
def Act.rouses : Act Q B → Bool
  | .call _ _ _ | .spurious _ _ => true
  | _ => false

/-- Whose move this is, if it is one of the threads'. -/
def Act.thread : Act Q B → Option (Tid Q)
  | .enter q i | .finish q i | .spurious q i => some (.worker q i)
  | .call t _ _ | .step t => some t
  | _ => none

/-- Whether the move is made by a worker or by one of the first `k` outside threads. -/
def Act.within (k : ℕ) : Act Q B → Bool
  | .call (.outside t) _ _ | .step (.outside t) => decide (t < k)
  | _ => true

/-! ### One step of a thread -/

section Steps

variable [DecidableEq Q]

omit [DecidableEq Q] in
lemma due_setLocal {j : ℕ} {l : List (Job B)} (hj : j < m)
    (hdq : queueDequeue (P.localJobs j) = some (job, l)) :
    (n + 7) + (P.setLocal j l).due n m = P.due n m := by
  have htotal := total_setLocal (P := P) (l := l) hj
  rw [dequeue_some hdq, List.length_cons] at htotal
  have heq : P.jobs.length + P.total m =
      ((P.setLocal j l).jobs.length + (P.setLocal j l).total m) + 1 := by
    show P.jobs.length + P.total m = (P.jobs.length + (P.setLocal j l).total m) + 1
    omega
  unfold Pool.due
  rw [heq, Nat.mul_succ]
  show (n + 7) + (_ + P.creator.left n) = _
  omega

omit [DecidableEq Q] in
lemma jobSeeking_pays (hm : m ≤ n) (hi : i < m) (pc : SeekPc B) :
    1 + ((jobSeeking m i P pc).2.pc : Pc Q B).left n (n + 7) + (jobSeeking m i P pc).1.due n m ≤
      pc.left n + P.due n m := by
  cases pc with
  | count =>
    simp only [jobSeeking]
    split <;> simp only [SeekRes.pc, Pc.left, SeekPc.left] <;> omega
  | own =>
    simp only [jobSeeking]
    split
    · rename_i job l hdq
      have hpay := due_setLocal (n := n) hi hdq
      show 1 + (n + 9) + (P.setLocal i l).due n m ≤ n + 4 + P.due n m
      omega
    · simp only [SeekRes.pc, Pc.left, SeekPc.left]
      omega
  | steal j =>
    have hnext : j < m → 1 + (n - (j + 1) + 3) + P.due n m ≤ n - j + 3 + P.due n m :=
      fun hj => by omega
    simp only [jobSeeking]
    split
    · rename_i hj
      split
      · split
        · rename_i job l hdq
          have hpay := due_setLocal (n := n) hj hdq
          show 1 + (n + 9) + (P.setLocal j l).due n m ≤ n - j + 3 + P.due n m
          omega
        · exact hnext hj
      · exact hnext hj
    · simp only [SeekRes.pc, Pc.left, SeekPc.left]
      omega
  | sub job =>
    show 1 + (n + 8) + P.due n m ≤ n + 9 + P.due n m
    omega
  | global =>
    simp only [jobSeeking]
    split
    · rename_i job l hdq
      show 1 + (n + 8) + ((n + 7) * (l.length + P.total m) + P.creator.left n) ≤
        2 + ((n + 7) * (P.jobs.length + P.total m) + P.creator.left n)
      have heq : P.jobs.length + P.total m = (l.length + P.total m) + 1 := by
        rw [dequeue_some hdq, List.length_cons]
        omega
      rw [heq, Nat.mul_succ]
      omega
    · show 1 + 1 + P.due n m ≤ 2 + P.due n m
      omega

lemma worker_pays {pc : Pc Q B} (hn : (w q).num ≤ n) (hi : i < (w q).num)
    (hpc : s.pcs (.worker q i) = pc) (hs : worker w s q i pc = some s') :
    1 + s'.left n (.worker q i) + (s'.pools q).due n (w q).num ≤
      s.left n (.worker q i) + (s.pools q).due n (w q).num := by
  unfold State.left
  rw [hpc]
  cases pc with
  | top | woken =>
    simp only [worker] at hs
    split at hs
    · obtain rfl := Option.some.inj hs
      simp only [setPc_self, setPc_pools, setPool_self]
      show 1 + (n + 5) + (s.pools q).due n (w q).num ≤ n + 6 + (s.pools q).due n (w q).num
      omega
    · simp at hs
  | seek pc =>
    obtain rfl := Option.some.inj hs
    simp only [setPc_self, setPc_pools, setPool_self]
    exact jobSeeking_pays hn hi pc
  | wait =>
    obtain rfl := Option.some.inj hs
    simp only [setPc_self, setPc_pools, setPool_self]
    exact le_of_eq rfl
  | leave job =>
    obtain rfl := Option.some.inj hs
    simp only [setPc_self, setPc_pools, setPool_self]
    show 1 + (n + 7) + (s.pools q).due n (w q).num ≤ n + 8 + (s.pools q).due n (w q).num
    omega
  | rest | add | unborn | waiting => simp [worker] at hs

lemma thrdpoolAdd_pays (hi : ∀ p i, t = .worker p i → i < (w p).num)
    (hpc : s.pcs t = .add q job a) (hown : OwnQueue s (.step t)) (ha : ∀ ok, a ≠ .broadcast ok)
    (hs : thrdpoolAdd s t q job a = some s') :
    1 + s'.left n t + (s'.pools q).due n (w q).num ≤
      s.left n t + (s.pools q).due n (w q).num := by
  unfold State.left
  rw [hpc]
  simp only [Pc.left]
  cases a with
  | lock =>
    simp only [thrdpoolAdd] at hs
    split at hs
    · obtain rfl := Option.some.inj hs
      simp only [setPc_self, setPc_pools, setPool_self, AddPc.left]
      show 1 + _ + (s.pools q).due n (w q).num ≤ _
      omega
    · simp at hs
  | enqueue =>
    have hfail : s' = s.setPc t (.add q job (.broadcast false)) →
        1 + (s'.pcs t).left n (t.home n) + (s'.pools q).due n (w q).num ≤
          AddPc.enqueue.left n + t.home n + (s.pools q).due n (w q).num := by
      rintro rfl
      simp only [setPc_self, setPc_pools, Pc.left, AddPc.left]
      omega
    -- the job that joins a queue costs what was kept for it
    have hput : ∀ {P' : Pool Q B}, P'.jobs.length + P'.total (w q).num =
        (s.pools q).jobs.length + (s.pools q).total (w q).num + 1 →
        P'.creator = (s.pools q).creator →
        P'.due n (w q).num = (n + 7) + (s.pools q).due n (w q).num := fun {P'} hlen hcr => by
      unfold Pool.due
      rw [hlen, hcr, Nat.mul_succ]
      omega
    simp only [thrdpoolAdd] at hs
    split at hs
    · rename_i p i
      split at hs
      · rename_i l hl
        obtain ⟨hlt, rfl⟩ := by simpa [queueEnqueue] using hl
        have hpq : p = q := by
          simp only [OwnQueue, OwnAdd, hpc] at hown
          exact hown.resolve_right (Nat.not_le.mpr hlt)
        subst hpq
        have hs' := Option.some.inj hs
        have htotal := total_setLocal (P := s.pools p) (l := (s.pools p).localJobs i ++ [job])
          (hi p i rfl)
        rw [List.length_append, List.length_singleton] at htotal
        have hcr : (s'.pools p).creator = (s.pools p).creator := by
          rw [← hs']
          simp [Pool.setLocal]
        have hlen : (s'.pools p).jobs.length + (s'.pools p).total (w p).num =
            (s.pools p).jobs.length + (s.pools p).total (w p).num + 1 := by
          rw [← hs']
          simp only [setPc_pools, setPool_self]
          show (s.pools p).jobs.length + ((s.pools p).setLocal i _).total (w p).num = _
          omega
        have hafter : s'.pcs (.worker p i) = .add p job .inc := by
          rw [← hs']
          exact setPc_self
        rw [hafter, hput hlen hcr]
        simp only [AddPc.left]
        omega
      · exact hfail (Option.some.inj hs).symm
    · rename_i j
      split at hs
      · rename_i l hl
        obtain ⟨-, rfl⟩ := by simpa [queueEnqueue] using hl
        have hs' := Option.some.inj hs
        have hcr : (s'.pools q).creator = (s.pools q).creator := by
          rw [← hs']
          simp
        have hlen : (s'.pools q).jobs.length + (s'.pools q).total (w q).num =
            (s.pools q).jobs.length + (s.pools q).total (w q).num + 1 := by
          rw [← hs']
          simp only [setPc_pools, setPool_self]
          show ((s.pools q).jobs ++ [job]).length + (s.pools q).total (w q).num = _
          rw [List.length_append, List.length_singleton]
          omega
        have hafter : s'.pcs (.outside j) = .add q job (.broadcast true) := by
          rw [← hs']
          exact setPc_self
        rw [hafter, hput hlen hcr]
        simp only [AddPc.left]
        omega
      · exact hfail (Option.some.inj hs).symm
  | inc =>
    obtain rfl := Option.some.inj hs
    simp only [setPc_self, setPc_pools, setPool_self, AddPc.left]
    show 1 + _ + (s.pools q).due n (w q).num ≤ _
    omega
  | broadcast ok => exact absurd rfl (ha ok)
  | unlock ok =>
    obtain rfl := Option.some.inj hs
    have hrest : ((s.setPool q { s.pools q with seekMtx := none }).setPc t .rest).pcs t = .rest :=
      setPc_self
    have hpool : ((s.setPool q { s.pools q with seekMtx := none }).setPc t .rest).pools q =
        { s.pools q with seekMtx := none } := setPool_self
    show 1 + (((s.setPool q _).setPc t .rest).pcs t).left n (t.home n) +
      (((s.setPool q _).setPc t .rest).pools q).due n (w q).num ≤ _
    rw [hrest, hpool]
    exact le_of_eq rfl

lemma worker_others {pc : Pc Q B} (hs : worker w s q i pc = some s') (hu : u ≠ .worker q i) :
    s'.pcs u = s.pcs u := by
  cases pc with
  | top | woken =>
    simp only [worker] at hs
    split at hs
    · obtain rfl := Option.some.inj hs
      exact setPc_ne hu
    · simp at hs
  | seek | wait | leave =>
    obtain rfl := Option.some.inj hs
    exact setPc_ne hu
  | rest | add | unborn | waiting => simp [worker] at hs

lemma thrdpoolAdd_others (ha : ∀ ok, a ≠ .broadcast ok) (hs : thrdpoolAdd s t q job a = some s')
    (hu : u ≠ t) : s'.pcs u = s.pcs u := by
  cases a with
  | lock =>
    simp only [thrdpoolAdd] at hs
    split at hs
    · obtain rfl := Option.some.inj hs
      exact setPc_ne hu
    · simp at hs
  | enqueue =>
    simp only [thrdpoolAdd] at hs
    split at hs <;> split at hs <;> (obtain rfl := Option.some.inj hs; exact setPc_ne hu)
  | inc | unlock =>
    obtain rfl := Option.some.inj hs
    exact setPc_ne hu
  | broadcast ok => exact absurd rfl (ha ok)

omit [DecidableEq Q] in
lemma createStep_pays {n : ℕ} {begun : ℕ → Prop} (hm : 0 < m) (hn : m ≤ n) (h : Staff m P begun)
    (hs : createStep m P act = some P') : act.rouses = false ∧
      act.drives.toNat + P'.due n m ≤ P.due n m := by
  obtain ⟨-, heq⟩ := createStep_staff hm h hs
  have hdue : act.drives.toNat + P'.creator.left n ≤ P.creator.left n →
      act.drives.toNat + P'.due n m ≤ P.due n m := fun hle => by
    rw [heq]
    show _ + ((n + 7) * (P.jobs.length + P.total m) + P'.creator.left n) ≤
      (n + 7) * (P.jobs.length + P.total m) + P.creator.left n
    omega
  cases act with
  | start q h' =>
    simp only [createStep] at hs
    split at hs
    · obtain rfl := Option.some.inj hs
      exact ⟨rfl, hdue (Nat.zero_add _).le⟩
    · simp at hs
  | storeFirst q =>
    obtain ⟨h', -, rfl⟩ := by simpa [createStep] using hs
    exact ⟨rfl, hdue (Nat.zero_add _).le⟩
  | create q h' =>
    simp only [createStep] at hs
    split at hs
    · rename_i j hj
      split at hs
      · rename_i hg
        obtain rfl := Option.some.inj hs
        refine ⟨rfl, hdue ?_⟩
        rw [hj]
        show 1 + (2 * (n - j) - 1) ≤ 2 * (n - j)
        omega
      · simp at hs
    · simp at hs
  | createFail q h' =>
    simp only [createStep] at hs
    split at hs
    · rename_i j hj
      split at hs
      · rename_i hg
        obtain rfl := Option.some.inj hs
        refine ⟨rfl, hdue ?_⟩
        rw [hj]
        show 1 + 2 * (n - (j + 1)) ≤ 2 * (n - j)
        omega
      · simp at hs
    · simp at hs
  | store q =>
    simp only [createStep] at hs
    split at hs
    · simp at hs
    · rename_i j h' hj
      have hlt : j < m := h.small j (by simp [h.atStore j h' hj])
      obtain rfl := Option.some.inj hs
      refine ⟨rfl, hdue ?_⟩
      rw [hj]
      show 1 + 2 * (n - (j + 1)) ≤ 2 * (n - j) - 1
      omega
  | enter | call | finish | spurious | step => simp [createStep] at hs

/-! ### All threads -/

variable [Fintype Q]

/-- The workers, and the first `k` outside threads. -/
def parties (w : Q → Workers) (k : ℕ) : Finset (Tid Q) :=
  (Finset.range k).image .outside ∪
    Finset.univ.biUnion fun q => (Finset.range (w q).num).image (.worker q)

/-- What is left to do. -/
def State.fund (w : Q → Workers) (n k : ℕ) (s : State Q B) : ℕ :=
  ∑ t ∈ parties w k, s.left n t + ∑ q, (s.pools q).due n (w q).num

@[simp] lemma outside_mem_parties {j : ℕ} : .outside j ∈ parties w k ↔ j < k := by
  simp [parties]

@[simp] lemma worker_mem_parties : .worker q i ∈ parties w k ↔ i < (w q).num := by
  simp [parties]

lemma fund_step (ht : t ∈ parties w k) (hpools : ∀ p, p ≠ q → s'.pools p = s.pools p)
    (hpcs : ∀ u, u ≠ t → s'.pcs u = s.pcs u)
    (h : 1 + s'.left n t + (s'.pools q).due n (w q).num ≤
      s.left n t + (s.pools q).due n (w q).num) :
    1 + s'.fund w n k ≤ s.fund w n k := by
  have hleft := sum_one (s.left n) (s'.left n) ht fun u hu => by
    unfold State.left
    rw [hpcs u hu]
  have hdue := sum_one (fun q => (s.pools q).due n (w q).num)
    (fun q => (s'.pools q).due n (w q).num) (Finset.mem_univ q) fun p hp => by rw [hpools p hp]
  unfold State.fund
  omega

lemma fund_broadcast (hn : (w q).num ≤ n) (ht : t ∈ parties w k) {ok : Bool}
    (hpc : s.pcs t = .add q job (.broadcast ok)) :
    1 + ((s.wakeAll q).setPc t (.add q job (.unlock ok))).fund w n k ≤ s.fund w n k := by
  set s' := (s.wakeAll q).setPc t (.add q job (.unlock ok)) with hs'
  let staff := (Finset.range (w q).num).image (Tid.worker q)
  have hself : s'.left n t + (n * (n + 6) + 1) = s.left n t := by
    have hafter : s'.pcs t = .add q job (.unlock ok) := setPc_self
    unfold State.left
    rw [hafter, hpc]
    simp only [Pc.left, AddPc.left]
    omega
  have hone : ∀ u ∈ (parties w k).erase t,
      s'.left n u ≤ s.left n u + if u ∈ staff then n + 6 else 0 := fun u hu => by
    obtain ⟨hut, hmem⟩ := Finset.mem_erase.mp hu
    have hpcs : s'.pcs u = (s.wakeAll q).pcs u := setPc_ne hut
    unfold State.left
    rw [hpcs]
    rcases wakeAll_cases s q u with he | ⟨hw, hwoken, j, rfl⟩
    · rw [he]
      exact Nat.le_add_right ..
    · have hj : j < (w q).num := worker_mem_parties.mp hmem
      have hstaff : Tid.worker q j ∈ staff :=
        Finset.mem_image_of_mem _ (Finset.mem_range.mpr hj)
      rw [hw, hwoken, if_pos hstaff]
      exact Nat.le_add_left ..
  have hgain : ∑ u ∈ (parties w k).erase t, (if u ∈ staff then n + 6 else 0) ≤ n * (n + 6) := by
    rw [Finset.sum_ite_mem, Finset.sum_const_nat fun _ _ => rfl]
    refine Nat.mul_le_mul_right _ ?_
    calc ((parties w k).erase t ∩ staff).card
        ≤ staff.card := Finset.card_le_card Finset.inter_subset_right
      _ ≤ (Finset.range (w q).num).card := Finset.card_image_le
      _ ≤ n := by rwa [Finset.card_range]
  have hsum := Finset.sum_le_sum hone
  rw [Finset.sum_add_distrib] at hsum
  have hafter := Finset.add_sum_erase _ (s'.left n) ht
  have hbefore := Finset.add_sum_erase _ (s.left n) ht
  have hdue : ∑ q, (s'.pools q).due n (w q).num = ∑ q, (s.pools q).due n (w q).num := rfl
  unfold State.fund
  omega

lemma fund_rise {c : ℕ} (ht : t ∈ parties w k) (hpools : s'.pools = s.pools)
    (hpcs : ∀ u, u ≠ t → s'.pcs u = s.pcs u) (h : s'.left n t ≤ s.left n t + c) :
    s'.fund w n k ≤ s.fund w n k + c := by
  have hleft := sum_one (s.left n) (s'.left n) ht fun u hu => by
    unfold State.left
    rw [hpcs u hu]
  unfold State.fund
  rw [hpools]
  omega

/-! ### One move -/

omit [Fintype Q] [DecidableEq Q] in
lemma begun_lt (hI : Inv w s) (h : s.pcs (.worker q i) ≠ .unborn) : i < (w q).num :=
  (hI.pools q).staff.small i ((hI.pools q).staff.begun i h).1

lemma move_pays (hn : ∀ q, (w q).num ≤ n) (hI : Inv w s) (hown : OwnQueue s act)
    (hin : act.within k = true) (hs : next w s act = some s') :
    act.drives.toNat + s'.fund w n k ≤
      (n + 3) * (n + 4) * act.rouses.toNat + s.fund w n k := by
  have hcreate : ∀ {q}, (createStep (w q).num (s.pools q) act).map (s.setPool q) = some s' →
      act.drives.toNat + s'.fund w n k ≤
        (n + 3) * (n + 4) * act.rouses.toNat + s.fund w n k := fun {q} hs => by
    obtain ⟨P, hP, rfl⟩ := Option.map_eq_some_iff.mp hs
    obtain ⟨hrouses, hpay⟩ := createStep_pays (w q).pos (hn q) (hI.pools q).staff hP
    have hdue := sum_one (fun q => (s.pools q).due n (w q).num)
      (fun p => ((s.setPool q P).pools p).due n (w p).num) (Finset.mem_univ q) fun p hp => by
        rw [setPool_ne hp]
    rw [setPool_self] at hdue
    have hleft : ∑ t ∈ parties w k, (s.setPool q P).left n t =
        ∑ t ∈ parties w k, s.left n t := rfl
    unfold State.fund
    rw [hrouses]
    omega
  cases act with
  | start | storeFirst | create | createFail | store => exact hcreate hs
  | enter q i =>
    simp only [next] at hs
    split at hs
    · rename_i hpc
      split at hs
      · rename_i hg
        obtain rfl := Option.some.inj hs
        have hpay : 1 + (s.setPc (.worker q i) .top).fund w n k ≤ s.fund w n k := by
          refine fund_step (q := q) (worker_mem_parties.mpr hg.1) (fun _ _ => rfl)
            (fun _ => setPc_ne) ?_
          unfold State.left
          rw [setPc_self, hpc]
          show 1 + (n + 6) + (s.pools q).due n (w q).num ≤ n + 7 + (s.pools q).due n (w q).num
          omega
        exact hpay.trans (Nat.le_add_left ..)
      · simp at hs
    · simp at hs
  | finish q i =>
    simp only [next] at hs
    split at hs
    · rename_i hpc
      obtain rfl := Option.some.inj hs
      have hi := begun_lt hI (q := q) (i := i) (by simp [hpc])
      have hpay : 1 + (s.setPc (.worker q i) .top).fund w n k ≤ s.fund w n k := by
        refine fund_step (q := q) (worker_mem_parties.mpr hi) (fun _ _ => rfl)
          (fun _ => setPc_ne) ?_
        unfold State.left
        rw [setPc_self, hpc]
        show 1 + (n + 6) + (s.pools q).due n (w q).num ≤ n + 7 + (s.pools q).due n (w q).num
        omega
      exact hpay.trans (Nat.le_add_left ..)
    · simp at hs
  | spurious q i =>
    simp only [next] at hs
    split at hs
    · rename_i hpc
      obtain rfl := Option.some.inj hs
      have hi := begun_lt hI (q := q) (i := i) (by simp [hpc])
      have hrise : (s.setPc (.worker q i) .woken).fund w n k ≤
          s.fund w n k + (n + 3) * (n + 4) := by
        refine fund_rise (worker_mem_parties.mpr hi) rfl (fun _ => setPc_ne) ?_
        unfold State.left
        rw [setPc_self, hpc]
        show n + 6 ≤ 0 + (n + 3) * (n + 4)
        have hmul := Nat.mul_le_mul_right (n + 4) (Nat.le_add_left 3 n)
        omega
      show 0 + _ ≤ (n + 3) * (n + 4) * 1 + _
      omega
    · simp at hs
  | call t tp job =>
    simp only [next] at hs
    split at hs
    · rename_i q b hpc
      obtain rfl := Option.some.inj hs
      have ht : t ∈ parties w k := by
        cases t with
        | outside t => exact outside_mem_parties.mpr (by simpa [Act.within] using hin)
        | worker p i => exact worker_mem_parties.mpr (begun_lt hI (by simp [hpc]))
      have hrise : (s.setPc t (.add q ⟨s.juid, b, t.isOutside⟩ .lock)).fund w n k ≤
          s.fund w n k + (n + 3) * (n + 4) := by
        refine fund_rise ht rfl (fun _ => setPc_ne) ?_
        unfold State.left
        rw [setPc_self, hpc]
        show n * (n + 6) + (n + 7) + 5 + t.home n ≤ t.home n + (n + 3) * (n + 4)
        have hmul : (n + 3) * (n + 4) = n * (n + 6) + n + 12 := by ring
        omega
      show 0 + (s.setPc t (.add q ⟨s.juid, b, t.isOutside⟩ .lock)).fund w n k ≤
        (n + 3) * (n + 4) * 1 + _
      omega
    · obtain rfl := Option.some.inj hs
      show 0 + _ ≤ _
      omega
    · simp at hs
  | step t =>
    have hpay : 1 + s'.fund w n k ≤ s.fund w n k := by
      simp only [next] at hs
      split at hs
      · rename_i t _ _ q job a hpc
        have ht : t ∈ parties w k := by
          cases t with
          | outside t => exact outside_mem_parties.mpr (by simpa [Act.within] using hin)
          | worker p i => exact worker_mem_parties.mpr (begun_lt hI (by simp [hpc]))
        have hF := thrdpoolAdd_frame hpc hown hs
        have hi : ∀ p i, t = .worker p i → i < (w p).num := by
          rintro p i rfl
          exact worker_mem_parties.mp ht
        by_cases ha : ∃ ok, a = .broadcast ok
        · obtain ⟨ok, rfl⟩ := ha
          obtain rfl := Option.some.inj hs
          exact fund_broadcast (hn q) ht hpc
        · have ha' : ∀ ok, a ≠ .broadcast ok := fun ok hok => ha ⟨ok, hok⟩
          exact fund_step ht hF.pools (fun u => thrdpoolAdd_others ha' hs)
            (thrdpoolAdd_pays hi hpc hown ha' hs)
      · rename_i pc _ q i hpc
        have hF := worker_frame rfl hs
        have hi := begun_lt hI hF.born.1
        exact fund_step (worker_mem_parties.mpr hi) hF.pools (fun u => worker_others hs)
          (worker_pays (hn q) hi rfl hs)
      · simp at hs
    exact hpay.trans (Nat.le_add_left ..)

lemma sum_workers_le {c : ℕ} (f : Tid Q → ℕ) (hn : ∀ q, (w q).num ≤ n)
    (hout : ∀ j, f (.outside j) = 0) (hle : ∀ q i, f (.worker q i) ≤ c) :
    ∑ t ∈ parties w k, f t ≤ Fintype.card Q * n * c := by
  let staff : Finset (Tid Q) :=
    Finset.univ.biUnion fun q => (Finset.range (w q).num).image (.worker q)
  have hstaff : staff.card ≤ Fintype.card Q * n := by
    refine Finset.card_biUnion_le_card_mul _ _ n fun q _ => ?_
    exact Finset.card_image_le.trans (by rw [Finset.card_range]; exact hn q)
  have hone : ∀ t ∈ parties w k, f t ≤ if t ∈ staff then c else 0 := fun t ht => by
    cases t with
    | outside t =>
      rw [hout]
      exact Nat.zero_le _
    | worker q i =>
      have hmem : Tid.worker q i ∈ staff := by simpa [staff] using ht
      rw [if_pos hmem]
      exact hle q i
  refine (Finset.sum_le_sum hone).trans ?_
  rw [Finset.sum_ite_mem, Finset.sum_const_nat fun _ _ => rfl]
  exact Nat.mul_le_mul_right _ ((Finset.card_le_card Finset.inter_subset_right).trans hstaff)

lemma fund_initial (hn : ∀ q, (w q).num ≤ n) :
    (initial : State Q B).fund w n k ≤ Fintype.card Q * (n * (n + 9)) := by
  have hleft : ∑ t ∈ parties w k, (initial : State Q B).left n t ≤
      Fintype.card Q * n * (n + 7) :=
    sum_workers_le _ hn (fun _ => rfl) fun _ _ => le_of_eq rfl
  have hdue : ∑ q, ((initial : State Q B).pools q).due n (w q).num ≤ Fintype.card Q * (2 * n) := by
    refine (Finset.sum_le_card_nsmul _ _ (2 * n) fun q _ => ?_).trans (le_of_eq rfl)
    simp [Pool.due, initial, newPool, Pool.total, Creator.left]
  have hring : Fintype.card Q * (n * (n + 9)) =
      Fintype.card Q * n * (n + 7) + Fintype.card Q * (2 * n) := by ring
  unfold State.fund
  omega

end Steps

/-! ### At rest -/

section Rest

variable [DecidableEq Q]

/-- No thread moves by itself. -/
def Stuck (w : Q → Workers) (s : State Q B) : Prop :=
  ∀ act : Act Q B, act.drives = true → next w s act = none

/-- A pool has done its work: its jobs have all been taken, and its workers sleep. -/
structure Drained (n : ℕ) (s : State Q B) (q : Q) : Prop where
  free : (s.pools q).seekMtx = none
  empty : (s.pools q).Empty n
  taken : ((s.pools q).accepted : Multiset (Job B)) = (s.pools q).taken
  asleep : ∀ i, (s.pools q).os i ≠ none → s.pcs (.worker q i) = .waiting

lemma thrdpoolAdd_steps (ha : a ≠ .lock) : thrdpoolAdd s t q job a ≠ none := by
  cases a with
  | lock => exact absurd rfl ha
  | enqueue =>
    simp only [thrdpoolAdd]
    split <;> split <;> simp
  | inc | broadcast | unlock => simp [thrdpoolAdd]

lemma next_add (hpc : s.pcs t = .add q job a) :
    next w s (.step t) = thrdpoolAdd s t q job a := by
  cases t <;> simp only [next, hpc]

omit [DecidableEq Q] in
lemma call_eq_some {pc : Pc Q B} (h : pc.call = some (q, job, a)) :
    pc = .add q job a := by
  cases pc with
  | add =>
    cases h
    rfl
  | _ => cases h

lemma next_worker (hpc : (s.pcs (.worker q i)).call = none) :
    next w s (.step (.worker q i)) = worker w s q i (s.pcs (.worker q i)) := by
  simp only [next]
  split
  · rename_i hadd
    simp [hadd, Pc.call] at hpc
  · rename_i heq _
    cases heq
    rfl
  · rename_i heq _
    cases heq

lemma holder_goes (hI : Inv w s) (hm : (s.pools q).seekMtx = some t) :
    next w s (.step t) ≠ none := by
  have hin := ((hI.pools q).locked t).mpr hm
  cases hpc : s.pcs t with
  | add p job a =>
    rw [next_add hpc]
    refine thrdpoolAdd_steps ?_
    rintro rfl
    simp [hpc, Pc.inside] at hin
  | seek | wait | leave =>
    cases t with
    | outside t => simp [hpc, Pc.inside] at hin
    | worker p i => simp [next, hpc, worker]
  | _ => simp [hpc, Pc.inside] at hin

lemma call_goes (hm : (s.pools q).seekMtx = none) (hpc : s.pcs t = .add q job a) :
    next w s (.step t) ≠ none := by
  rw [next_add hpc]
  by_cases ha : a = .lock
  · subst ha
    simp [thrdpoolAdd, hm]
  · exact thrdpoolAdd_steps ha

lemma worker_goes (hI : Inv w s) (hm : ∀ p, (s.pools p).seekMtx = none)
    (hos : (s.pools q).os i ≠ none)
    (hdone : i = 0 → (s.pools q).creator.done (w q).num = true) :
    s.pcs (.worker q i) = .waiting ∨ ∃ act : Act Q B, act.drives = true ∧
      act.thread = some (.worker q i) ∧ next w s act ≠ none := by
  have hi := (hI.pools q).staff.small i hos
  cases hpc : s.pcs (.worker q i) with
  | waiting => exact .inl rfl
  | rest => exact .inr ⟨.finish q i, rfl, rfl, by simp [next, hpc]⟩
  | add p job a => exact .inr ⟨.step _, rfl, rfl, call_goes (hm p) hpc⟩
  | unborn =>
    have hguard : i < (w q).num ∧ (s.pools q).os i ≠ none ∧
        (i = 0 → (s.pools q).creator.done (w q).num = true) := ⟨hi, hos, hdone⟩
    refine .inr ⟨.enter q i, rfl, rfl, ?_⟩
    simp only [next, hpc, if_pos hguard]
    simp
  | top | woken => exact .inr ⟨.step _, rfl, rfl, by simp [next, hpc, worker, hm q]⟩
  | seek | wait | leave => exact .inr ⟨.step _, rfl, rfl, by simp [next, hpc, worker]⟩

lemma creator_goes (hos : (s.pools q).os 0 ≠ none)
    (hdone : ¬ (s.pools q).creator.done (w q).num = true) :
    ∃ act : Act Q B, act.drives = true ∧ act.thread = none ∧ next w s act ≠ none := by
  cases hcr : (s.pools q).creator with
  | create i =>
    have hi : i < (w q).num := by simpa [hcr, Creator.done] using hdone
    exact ⟨.createFail q 0, rfl, rfl, by simp [next, createStep, hcr, hos, hi]⟩
  | store i h => exact ⟨.store q, rfl, rfl, by simp [next, createStep, hcr]⟩

omit [DecidableEq Q] in
/-- A pool whose workers sleep has done its work. -/
lemma drained_of_asleep (hI : Inv w s) (hm : (s.pools q).seekMtx = none)
    (hos : (s.pools q).os 0 ≠ none)
    (hasleep : ∀ i, (s.pools q).os i ≠ none → s.pcs (.worker q i) = .waiting) :
    Drained (w q).num s q := by
  have hempty := ((hI.pools q).free hm).2 ⟨0, hasleep 0 hos⟩
  refine ⟨hm, hempty, ?_, hasleep⟩
  have hlocal : ∑ j ∈ Finset.range (w q).num, ((s.pools q).localJobs j : Multiset (Job B)) = 0 :=
    Finset.sum_eq_zero fun j hj => by rw [hempty.2 j (Finset.mem_range.mp hj)]; rfl
  rw [(hI.pools q).stock.balance, Pool.queued, hempty.1, hlocal]
  simp

lemma Stuck.free (h : Stuck w s) (hI : Inv w s) (q : Q) : (s.pools q).seekMtx = none := by
  cases hm : (s.pools q).seekMtx with
  | none => rfl
  | some t => exact absurd (h (.step t) rfl) (holder_goes hI hm)

lemma Stuck.returned (h : Stuck w s) (hI : Inv w s) : s.pcs t ≠ .add q job a := fun hpc =>
  call_goes (h.free hI q) hpc (h (.step t) rfl)

/-- **Nothing is left behind**: where no thread of a process moves by itself, the pools whose first
thread has started have done all their work. -/
lemma Stuck.drained (h : Stuck w s) (hI : Inv w s) (hos : (s.pools q).os 0 ≠ none) :
    Drained (w q).num s q := by
  have hcreated : (s.pools q).creator.done (w q).num = true := by
    by_contra hdone
    obtain ⟨act, hact, -, hgoes⟩ := creator_goes hos hdone
    exact hgoes (h act hact)
  refine drained_of_asleep hI (h.free hI q) hos fun i hi => ?_
  rcases worker_goes hI (h.free hI) hi fun _ => hcreated with hpc | ⟨act, hact, -, hgoes⟩
  · exact hpc
  · exact absurd (h act hact) hgoes

lemma stuck_of_asleep (hI : Inv w s) (hout : ∀ j, s.pcs (.outside j) = .rest)
    (hwork : ∀ q, ∀ i < (w q).num, s.pcs (.worker q i) = .waiting ∨
      s.pcs (.worker q i) = .unborn ∧ (s.pools q).os i = none)
    (hcr : ∀ q, (s.pools q).creator = .create (w q).num) : Stuck w s := by
  have hplace : ∀ q i, s.pcs (.worker q i) = .waiting ∨
      s.pcs (.worker q i) = .unborn ∧ (i < (w q).num → (s.pools q).os i = none) := fun q i => by
    by_cases hi : i < (w q).num
    · exact (hwork q i hi).imp_right fun h => ⟨h.1, fun _ => h.2⟩
    · exact .inr ⟨by_contra fun h => hi (begun_lt hI h), fun h => absurd h hi⟩
  rintro act hact
  cases act with
  | start | storeFirst | call | spurious => simp [Act.drives] at hact
  | create q h | createFail q h => simp [next, createStep, hcr q]
  | store q => simp [next, createStep, hcr q]
  | enter q i =>
    rcases hplace q i with hpc | ⟨hpc, hos⟩
    · simp [next, hpc]
    · simp only [next, hpc]
      exact if_neg fun hg => hg.2.1 (hos hg.1)
  | finish q i => rcases hplace q i with hpc | ⟨hpc, -⟩ <;> simp [next, hpc]
  | step t =>
    cases t with
    | outside j => simp [next, hout j]
    | worker q i => rcases hplace q i with hpc | ⟨hpc, -⟩ <;> simp [next, hpc, worker]

/-! ### Runs -/

omit [DecidableEq Q] in
lemma within_mono {j : ℕ} (hjk : j ≤ k) (h : act.within j = true) : act.within k = true := by
  unfold Act.within at h ⊢
  split at h
  · exact decide_eq_true ((of_decide_eq_true h).trans_le hjk)
  · exact decide_eq_true ((of_decide_eq_true h).trans_le hjk)
  · rfl

omit [DecidableEq Q] in
lemma exists_within (act : Act Q B) : ∃ k, act.within k = true := by
  cases act with
  | call t | step t =>
    cases t with
    | outside t => exact ⟨t + 1, by simp [Act.within]⟩
    | worker => exact ⟨0, rfl⟩
  | _ => exact ⟨0, rfl⟩

lemma inv_of_trace (h : Trace (next w) OwnQueue (initial : State Q B) ls s) : Inv w s :=
  h.inv (I := fun _ s => Inv w s) initial_inv fun _ _ _ _ hI hown hs => inv_step hI hown hs

lemma outside_stays {j : ℕ} (hown : OwnQueue s act) (hin : act.within j = true)
    (h : s.pcs (.outside j) = .rest) (hs : next w s act = some s') :
    s'.pcs (.outside j) = .rest := by
  have hframe : ∀ {t q}, Frame s s' t q → .outside j ≠ t → s'.pcs (.outside j) = .rest :=
    fun hF ht => by
      rcases hF.others _ ht with he | ⟨hw, -⟩
      · rw [he, h]
      · simp [h] at hw
  cases act with
  | start | storeFirst | create | createFail | store =>
    obtain ⟨P, -, rfl⟩ := Option.map_eq_some_iff.mp hs
    exact h
  | enter q i =>
    simp only [next] at hs
    split at hs
    · split at hs
      · obtain rfl := Option.some.inj hs
        exact (setPc_ne (by simp)).trans h
      · simp at hs
    · simp at hs
  | finish q i | spurious q i =>
    simp only [next] at hs
    split at hs
    · obtain rfl := Option.some.inj hs
      exact (setPc_ne (by simp)).trans h
    · simp at hs
  | call t tp b =>
    have hne : Tid.outside j ≠ t := by
      rintro rfl
      simp [Act.within] at hin
    simp only [next] at hs
    split at hs
    · obtain rfl := Option.some.inj hs
      exact (setPc_ne hne).trans h
    · obtain rfl := Option.some.inj hs
      exact h
    · simp at hs
  | step t =>
    have hne : Tid.outside j ≠ t := by
      rintro rfl
      simp [Act.within] at hin
    simp only [next] at hs
    split at hs
    · rename_i hpc
      exact hframe (thrdpoolAdd_frame hpc hown hs) hne
    · exact hframe (worker_frame rfl hs) hne
    · simp at hs

/-- **The pools come to rest**: in every run in which no worker's own queue takes a job for another
pool, of pools of at most `n` workers, the threads make at most `(n + 3) (n + 4)` moves for each
call of `thrdpool_add` and each worker that wakes up without having been woken, and `n (n + 9)`
for each pool; and where no thread can move by itself, all calls have returned, and the workers
of each pool that has started sleep and have taken all its jobs. -/
theorem thrdpool_drains [Fintype Q] (hn : ∀ q, (w q).num ≤ n)
    (h : Trace (next w) OwnQueue (initial : State Q B) ls s) :
    ls.countP (fun x => x.2.drives) ≤ (n + 3) * (n + 4) * ls.countP (fun x => x.2.rouses) +
      Fintype.card Q * (n * (n + 9)) ∧
    (Stuck w s → (∀ t q job a, s.pcs t ≠ .add q job a) ∧
      ∀ q, (s.pools q).os 0 ≠ none → Drained (w q).num s q) := by
  refine ⟨?_, fun hstuck => ⟨fun t q job a => hstuck.returned (inv_of_trace h), fun q hos =>
    hstuck.drained (inv_of_trace h) hos⟩⟩
  obtain ⟨k, hk⟩ := exists_forall_mem (p := fun k x => x.2.within k = true)
    (fun hjk hx => within_mono hjk hx) (fun x => exists_within x.2) ls
  have hpays := trace_pays ((n + 3) * (n + 4)) (fun x => x.2.drives.toNat)
    (fun x => x.2.rouses.toNat) (fun _ s => s.fund w n k)
    (fun ls s act s' htrace hok hs => move_pays hn
      (inv_of_trace (htrace.mono fun _ _ => And.left)) hok.1 hok.2 hs) (h.and hk)
  have hfund := fund_initial (Q := Q) (B := B) (k := k) hn
  rw [sum_toNat, sum_toNat] at hpays
  omega

/-- A job from outside adds another; then the only worker sleeps again. -/
theorem thrdpool_drains_one : ∃ ls, ∃ s : State Bool ℕ,
    Trace (next single) OwnQueue initial ls s ∧ Stuck single s ∧
    ls.countP (fun x => x.2.drives) = 29 ∧
    ls.countP (fun x => x.2.drives) ≤ (1 + 3) * (1 + 4) * ls.countP (fun x => x.2.rouses) +
      Fintype.card Bool * (1 * (1 + 9)) ∧
    (s.pools true).taken.length = 2 ∧ Drained 1 s true := by
  obtain ⟨ls, s, htrace, hp⟩ := exists_moves (next single)
    (fun s act => OwnQueue s act ∧ act.within 1 = true) (initial : State Bool ℕ)
    (fun ls s => decide (ls.countP (fun x => x.2.drives) = 29 ∧
      (s.pools true).taken.length = 2 ∧ (s.pools true).os 0 ≠ none ∧
      s.pcs (.outside 0) = .rest ∧ s.pcs (.worker true 0) = .waiting ∧
      s.pcs (.worker false 0) = .unborn ∧ (s.pools false).os 0 = none ∧
      ∀ q, (s.pools q).creator = .create 1))
    (List.flatten [[.start true 7, .storeFirst true, .enter true 0],
      List.replicate 4 (.step (.worker true 0)),
      .call (.outside 0) (some true) (some 5) :: List.replicate 4 (.step (.outside 0)),
      List.replicate 4 (.step (.worker true 0)),
      .call (.worker true 0) (some true) (some 6) :: List.replicate 5 (.step (.worker true 0)),
      .finish true 0 :: List.replicate 5 (.step (.worker true 0)),
      .finish true 0 :: List.replicate 4 (.step (.worker true 0))])
    (by decide +kernel)
  obtain ⟨hcount, htaken, hos, hout, hworker, hunborn, hnone, hcr⟩ := of_decide_eq_true hp
  have hrun : Trace (next single) OwnQueue initial ls s := htrace.mono fun _ _ => And.left
  have hrest : ∀ j, s.pcs (.outside j) = .rest := fun j => by
    rcases Nat.eq_zero_or_pos j with rfl | hj
    · exact hout
    · exact htrace.inv (I := fun _ s => s.pcs (.outside j) = .rest) rfl
        fun _ _ _ _ hpc hok hs => outside_stays hok.1 (within_mono hj hok.2) hpc hs
  have hstuck : Stuck single s := by
    refine stuck_of_asleep (inv_of_trace hrun) hrest (fun q i hi => ?_) hcr
    obtain rfl : i = 0 := Nat.lt_one_iff.mp hi
    cases q with
    | true => exact .inl hworker
    | false => exact .inr ⟨hunborn, hnone⟩
  obtain ⟨hle, hdrained⟩ := thrdpool_drains (n := 1) (fun _ => le_rfl) hrun
  exact ⟨ls, s, hrun, hstuck, hcount, hle, htaken, (hdrained hstuck).2 true hos⟩

end Rest

end CoopTasks.ThreadPool
