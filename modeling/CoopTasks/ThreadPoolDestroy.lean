import CoopTasks.ThreadPoolCreate
import Mathlib.Data.List.Count
import Mathlib.Data.List.Nodup
import Mathlib.Logic.Function.Basic

/-!
Tearing a pool down when some of its workers have no thread.

`worker_creator` puts `FAIL` into the status of a worker whose thread it could not create, and
goes on. `thrdpool_destroy` waits for it, and then hands what stands in the `thr` of each worker
to `thrd_cancel`: it does not look at the status. Left out is what the threads themselves store
in the status of their workers, which neither function reads.
-/

namespace CoopTasks.ThreadPoolDestroy

open CoopTasks.ThreadPoolCreate

/-- `enum worker_state`. -/
inductive WorkerState
  | init
  | idle
  | working
  | fail
  deriving DecidableEq, Repr

/-- `struct worker`, as far as its thread goes. -/
structure Worker where
  thr : ℕ
  status : WorkerState
  deriving DecidableEq, Repr

/-- `WORKER_MAKER`, which leaves `thr` zero. -/
def workerMaker : Worker := ⟨0, .init⟩

/-- How a call of `thrd_create` ends. One that fails may have stored a handle: that of a thread
that could not register, or whatever `pthread_create` leaves there when it fails. -/
inductive Created
  | ok (thr : ℕ)
  | fail (thr : Option ℕ)
  deriving DecidableEq, Repr

def Created.failed : Created → Bool
  | .ok _ => false
  | .fail _ => true

/-- What becomes of a worker. -/
def Worker.create (w : Worker) : Created → Worker
  | .ok thr => { w with thr := thr }
  | .fail thr => ⟨thr.getD w.thr, .fail⟩

/-- The loop of `worker_creator`, from the worker `i` on. -/
def createWorkers (creates : ℕ → Created) (i : ℕ) : ℕ → (ℕ → Worker) → ℕ → Worker
  | 0, workers => workers
  | left + 1, workers =>
    createWorkers creates (i + 1) left
      (Function.update workers i ((workers i).create (creates i)))

/-- `worker_creator` up to its own work: the workers, and that the promise is set. -/
def workerCreator (creates : ℕ → Created) (numWorkers : ℕ) (workers : ℕ → Worker) :
    (ℕ → Worker) × Bool :=
  (createWorkers creates 1 (numWorkers - 1) workers, true)

/-- The workers when `thrdpool_create` has created the thread of the first. -/
def madeWorkers (creates : ℕ → Created) : ℕ → Worker :=
  Function.update (fun _ => workerMaker) 0 (workerMaker.create (creates 0))

/-- `thrd_cancel`, by what `pthread_cancel` returns. -/
def thrdCancel (err : ℤ) : ℤ := if err ≠ 0 then -1 else 0

/-- The life of a pool from there: `errs i` is what `pthread_cancel` returns for worker `i`. -/
def tearDown (creates : ℕ → Created) (errs : ℕ → ℤ) (numWorkers : ℕ) : (ℕ → Worker) × Call :=
  let (workers, done) := workerCreator creates numWorkers (madeWorkers creates)
  (workers, thrdpoolDestroy done (fun i => decide (thrdCancel (errs i) = 0)) numWorkers)

/-- A call on a thread, by its handle. -/
inductive ThreadCall
  | cancel (thr : ℕ)
  | join (thr : ℕ)
  deriving DecidableEq, Repr

def ThreadCall.thr : ThreadCall → ℕ
  | .cancel thr | .join thr => thr

/-- The worker's handle stands for the worker. -/
def threadCall (workers : ℕ → Worker) : Event → Option ThreadCall
  | .cancel i => some (.cancel (workers i).thr)
  | .join i => some (.join (workers i).thr)
  | _ => none

/-- The calls on the thread `thr`, in order. -/
def callsOn (thr : ℕ) (workers : ℕ → Worker) (events : List Event) : List ThreadCall :=
  (events.filterMap (threadCall workers)).filter fun c => c.thr = thr

/-- Whether `thr` is the handle of a thread that runs for the pool. -/
def Started (creates : ℕ → Created) (numWorkers thr : ℕ) : Prop :=
  ∃ i < numWorkers, creates i = .ok thr

/-- What a pool of `numWorkers` workers has allocated. -/
def Memory.Of (numWorkers : ℕ) : Memory → Prop
  | .localJobs i => i < numWorkers
  | .jobs | .pool => True

/-- The call returns; it cancels each thread of the pool and then joins it, once, and touches no
other handle; and it releases all of the pool's memory once. -/
structure TornDown (creates : ℕ → Created) (numWorkers : ℕ) (workers : ℕ → Worker) (c : Call) :
    Prop where
  returns : c.outcome = .null
  started : ∀ thr, Started creates numWorkers thr →
    callsOn thr workers c.events = [.cancel thr, .join thr]
  others : ∀ thr, ¬ Started creates numWorkers thr → callsOn thr workers c.events = []
  memory : ∀ b, Memory.Of numWorkers b → c.events.count (.free b) = 1

variable {creates : ℕ → Created} {errs : ℕ → ℤ} {workers : ℕ → Worker} {cancelled : ℕ → Bool}
  {i j n left thr : ℕ}

/-! ### What stands in the workers -/

lemma createWorkers_eq :
    createWorkers creates i left workers j =
      if i ≤ j ∧ j < i + left then (workers j).create (creates j) else workers j := by
  induction left generalizing i workers with
  | zero =>
    unfold createWorkers
    rw [if_neg (by omega)]
  | succ left ih =>
    unfold createWorkers
    rw [ih]
    by_cases hj : j = i
    · subst hj
      rw [if_neg (by omega), if_pos (by omega), Function.update_self]
    · rw [Function.update_of_ne hj]
      exact if_congr (by omega) rfl rfl

lemma workers_eq (hi : i < n) :
    (tearDown creates errs n).1 i = workerMaker.create (creates i) := by
  show createWorkers creates 1 (n - 1) (madeWorkers creates) i = _
  rw [createWorkers_eq, madeWorkers]
  by_cases h0 : i = 0
  · subst h0
    rw [if_neg (by omega), Function.update_self]
  · rw [if_pos (by omega), Function.update_of_ne h0]

/-! ### The loops of the tear-down -/

lemma countDown_lt (h : i ∈ countDown n) : i < n % 2 ^ 32 ∧ n % 2 ^ 32 < 2 ^ 31 := by
  unfold countDown at h
  split at h
  · rename_i hlt
    exact ⟨by simpa using h, hlt⟩
  · simp at h

lemma countDown_nodup : (countDown n).Nodup := by
  unfold countDown
  split
  · exact List.nodup_reverse.mpr List.nodup_range
  · exact List.nodup_nil

lemma callsOn_destroy : callsOn thr workers (thrdpoolDestroy true cancelled n).events =
    (countDown n).flatMap fun i =>
      if (workers i).thr = thr then
        .cancel thr :: if cancelled i then [.join thr] else []
      else [] := by
  have hone : ∀ i, callsOn thr workers
        (.cancel i :: if cancelled i then [.join i] else []) =
      if (workers i).thr = thr then
        .cancel thr :: if cancelled i then [.join thr] else []
      else [] := fun i => by
    by_cases hi : (workers i).thr = thr <;> cases cancelled i <;>
      simp [callsOn, threadCall, ThreadCall.thr, hi]
  have hfree : ((countDown n).map fun i => Event.free (.localJobs i)).filterMap
      (threadCall workers) = [] := by
    simp [List.filterMap_eq_nil_iff, threadCall]
  unfold thrdpoolDestroy callsOn
  rw [if_pos rfl]
  simp only [List.cons_append, List.filterMap_cons, List.filterMap_append, hfree,
    List.filterMap_flatMap, List.append_nil, threadCall, List.filterMap_nil]
  rw [List.filter_flatMap]
  exact congrArg (List.flatMap · _) (funext hone)

lemma flatMap_single {α β : Type*} {l : List α} {g : α → List β} {a : α} (hl : l.Nodup)
    (ha : a ∈ l) (h : ∀ b ∈ l, b ≠ a → g b = []) : l.flatMap g = g a := by
  induction l with
  | nil => simp at ha
  | cons b l ih =>
    obtain ⟨hb, hl⟩ := List.nodup_cons.mp hl
    rw [List.flatMap_cons]
    rcases List.mem_cons.mp ha with rfl | ha
    · rw [List.flatMap_eq_nil_iff.mpr fun c hc =>
        h c (List.mem_cons_of_mem _ hc) (by rintro rfl; exact hb hc), List.append_nil]
    · rw [h b List.mem_cons_self (by rintro rfl; exact hb ha), List.nil_append,
        ih hl ha fun c hc => h c (List.mem_cons_of_mem _ hc)]

lemma cancel_mem (workers : ℕ → Worker) (cancelled : ℕ → Bool) (hi : i ∈ countDown n) :
    .cancel (workers i).thr ∈
      callsOn (workers i).thr workers (thrdpoolDestroy true cancelled n).events := by
  rw [callsOn_destroy, List.mem_flatMap]
  exact ⟨i, hi, by simp⟩

/-- Two workers with one handle are both cancelled. -/
lemma two_cancels (cancelled : ℕ → Bool) (hi : i ∈ countDown n) (hj : j ∈ countDown n)
    (hij : i ≠ j) (hti : (workers i).thr = thr) (htj : (workers j).thr = thr) :
    2 ≤ (callsOn thr workers (thrdpoolDestroy true cancelled n).events).count (.cancel thr) := by
  have hj' : j ∈ (countDown n).erase i := (List.mem_erase_of_ne hij.symm).mpr hj
  have hperm := (List.perm_cons_erase hi).trans ((List.perm_cons_erase hj').cons i)
  rw [callsOn_destroy, (hperm.flatMap_right _).count_eq]
  simp only [List.flatMap_cons, hti, htj, if_pos, List.count_append, List.count_cons_self]
  omega

lemma count_calls {b : Memory} : ((countDown n).flatMap fun i =>
    Event.cancel i :: if cancelled i then [.join i] else []).count (.free b) = 0 := by
  rw [List.count_eq_zero, List.mem_flatMap]
  rintro ⟨i, -, hi⟩
  cases hc : cancelled i <;> simp [hc] at hi

lemma count_localJobs : (thrdpoolDestroy true cancelled n).events.count
    (.free (.localJobs i)) = (countDown n).count i := by
  have hfree : ((countDown n).map fun i => Event.free (.localJobs i)).count
      (.free (.localJobs i)) = (countDown n).count i :=
    List.count_map_of_injective (countDown n) (fun i => Event.free (.localJobs i))
      (fun a b hab => by simpa using hab) i
  unfold thrdpoolDestroy
  rw [if_pos rfl]
  simp [List.count_append, count_calls, hfree]

lemma count_shared {b : Memory} (hb : ∀ i, b ≠ .localJobs i) :
    (thrdpoolDestroy true cancelled n).events.count (.free b) = 1 := by
  have hfree : ((countDown n).map fun i => Event.free (.localJobs i)).count (.free b) = 0 := by
    rw [List.count_eq_zero, List.mem_map]
    rintro ⟨i, -, hi⟩
    exact hb i (by simpa using hi.symm)
  unfold thrdpoolDestroy
  rw [if_pos rfl]
  cases b with
  | localJobs i => exact absurd rfl (hb i)
  | jobs | pool => simp [List.count_append, count_calls, hfree]

/-! ### The tear-down -/

lemma tornDown (hn : n < 2 ^ 31) (hok : ∀ i < n, (creates i).failed = false)
    (hdistinct : ∀ i < n, ∀ j < n, ∀ thr, creates i = .ok thr → creates j = .ok thr → i = j)
    (hcancel : ∀ i < n, (creates i).failed = false → errs i = 0) :
    TornDown creates n (tearDown creates errs n).1 (tearDown creates errs n).2 := by
  have hlist := countDown_eq hn
  have hmem : ∀ i, i ∈ countDown n ↔ i < n := fun i => by simp [hlist]
  have hthr : ∀ i < n, creates i = .ok ((tearDown creates errs n).1 i).thr := fun i hi => by
    rw [workers_eq hi]
    have := hok i hi
    cases hc : creates i with
    | ok thr => rfl
    | fail thr => simp [hc, Created.failed] at this
  refine ⟨rfl, fun thr hs => ?_, fun thr hs => ?_, fun b hb => ?_⟩
  · obtain ⟨i, hi, hthr'⟩ := hs
    have hti : ((tearDown creates errs n).1 i).thr = thr := by
      simpa [hthr'] using (hthr i hi).symm
    refine callsOn_destroy.trans ((flatMap_single countDown_nodup ((hmem i).mpr hi) ?_).trans ?_)
    · intro j hj hji
      have hj := (hmem j).mp hj
      refine if_neg fun htj => hji ?_
      exact hdistinct j hj i hi thr (htj ▸ hthr j hj) hthr'
    · simp [hti, hcancel i hi (hok i hi), thrdCancel]
  · refine callsOn_destroy.trans (List.flatMap_eq_nil_iff.mpr fun i hi => if_neg fun hti => ?_)
    exact hs ⟨i, (hmem i).mp hi, hti ▸ hthr i ((hmem i).mp hi)⟩
  · cases b with
    | localJobs i =>
      refine count_localJobs.trans (List.count_eq_one_of_mem countDown_nodup ?_)
      exact (hmem i).mpr hb
    | jobs | pool => exact count_shared (by simp)

/-- **Tear-down**: when the first worker has its thread, `thrdpool_destroy` cancels and joins the
threads that were started, and nothing else, exactly if no other worker failed and the number of
workers fits an `int`. -/
theorem thrdpool_destroy_iff (hpos : 0 < n) (h0 : (creates 0).failed = false)
    (hdistinct : ∀ i < n, ∀ j < n, ∀ thr, creates i = .ok thr → creates j = .ok thr → i = j)
    (hcancel : ∀ i < n, (creates i).failed = false → errs i = 0) :
    TornDown creates n (tearDown creates errs n).1 (tearDown creates errs n).2 ↔
      n < 2 ^ 31 ∧ ∀ i, 0 < i → i < n → (creates i).failed = false := by
  constructor
  · intro h
    -- the queue of the last worker is released
    have hlast := count_localJobs.symm.trans (h.memory (.localJobs (n - 1)) (by
      show n - 1 < n
      omega))
    have hn : n < 2 ^ 31 := by
      have hmem := countDown_lt (List.count_pos_iff.mp (by rw [hlast]; exact Nat.one_pos))
      omega
    have hmem : ∀ i, i < n → i ∈ countDown n := fun i hi => by simp [countDown_eq hn, hi]
    refine ⟨hn, fun i _ hi => ?_⟩
    by_contra hfail
    by_cases hs : Started creates n ((tearDown creates errs n).1 i).thr
    · -- the handle is that of another worker, and is cancelled for both
      have hcalls := h.started _ hs
      obtain ⟨j, hj, hthr⟩ := hs
      have htj : ((tearDown creates errs n).1 j).thr = ((tearDown creates errs n).1 i).thr := by
        rw [workers_eq hj, hthr]
        rfl
      have htwo := two_cancels (fun i => decide (thrdCancel (errs i) = 0))
        (hmem i hi) (hmem j hj) (by rintro rfl; simp [hthr, Created.failed] at hfail) rfl htj
      rw [show callsOn _ _ (thrdpoolDestroy true _ n).events = _ from hcalls] at htwo
      simp at htwo
    · have hone := cancel_mem (tearDown creates errs n).1
        (fun i => decide (thrdCancel (errs i) = 0)) (hmem i hi)
      rw [show callsOn _ _ (thrdpoolDestroy true _ n).events = _ from h.others _ hs] at hone
      simp at hone
  · rintro ⟨hn, hok⟩
    refine tornDown hn (fun i hi => ?_) hdistinct hcancel
    rcases Nat.eq_zero_or_pos i with rfl | hpos
    · exact h0
    · exact hok i hpos hi

/-- A pool of three whose threads all start. -/
theorem thrdpool_destroy_iff_three :
    TornDown (fun i => .ok (100 + i)) 3 (tearDown (fun i => .ok (100 + i)) (fun _ => 0) 3).1
      (tearDown (fun i => .ok (100 + i)) (fun _ => 0) 3).2 ↔
    3 < 2 ^ 31 ∧ ∀ i, 0 < i → i < 3 → (Created.ok (100 + i)).failed = false :=
  thrdpool_destroy_iff (by decide) rfl
    (fun i _ j _ thr hi hj => by
      have hi : 100 + i = thr := by simpa using hi
      have hj : 100 + j = thr := by simpa using hj
      omega)
    (fun _ _ _ => rfl)

/-- The first worker of two has its thread; for the second, there was no start block left. -/
def secondFails : ℕ → Created
  | 0 => .ok 100
  | _ => .fail none

/-- The thread of the second worker of two was never created: the pool cancels the handle zero
that stands there. -/
theorem thrdpool_destroy_touches : ¬ ∀ (creates : ℕ → Created) (errs : ℕ → ℤ) (n : ℕ), 0 < n →
    (creates 0).failed = false →
    (∀ i < n, ∀ j < n, ∀ thr, creates i = .ok thr → creates j = .ok thr → i = j) →
    (∀ i < n, (creates i).failed = false → errs i = 0) →
    TornDown creates n (tearDown creates errs n).1 (tearDown creates errs n).2 := by
  intro hall
  have hok : ∀ i, (secondFails i).failed = false → i = 0 := fun i hi => by
    cases i with
    | zero => rfl
    | succ i => simp [secondFails, Created.failed] at hi
  have hzero : ∀ i thr, secondFails i = .ok thr → i = 0 := fun i thr hi =>
    hok i (by rw [hi]; rfl)
  have h := hall secondFails (fun i => if i = 0 then 0 else 3) 2 (by decide) rfl
    (fun i _ j _ thr hi hj => (hzero i thr hi).trans (hzero j thr hj).symm)
    (fun i _ hi => if_pos (hok i hi))
  have hcalls := h.others 0 fun ⟨i, _, hi⟩ => by
    obtain rfl := hzero i 0 hi
    simp [secondFails] at hi
  exact absurd hcalls (by decide)

end CoopTasks.ThreadPoolDestroy
