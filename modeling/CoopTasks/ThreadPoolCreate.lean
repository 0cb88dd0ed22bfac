import CoopTasks.SizeT
import Mathlib.Data.List.Range

/-!
How `thrdpool_create` undoes its work when it fails.

A call is what it does, in order, for every choice of what fails. `queue_create` allocates
nothing when it fails. When `thrd_create` fails, `worker_creator` does not run, and nobody else
sets the promise of the pool. The size of the block may wrap around, and a call that writes behind
the block is not followed any further.
-/

namespace CoopTasks.ThreadPoolCreate

open CoopTasks.SizeT

/-- Where `thrdpool_create` can fail. -/
inductive Place
  | malloc
  | jobs
  | localJobs (i : ℕ)
  | thread
  deriving DecidableEq, Repr

/-- What it allocates: the pool object, and the memory pools of its queues. -/
inductive Memory
  | pool
  | jobs
  | localJobs (i : ℕ)
  deriving DecidableEq, Repr

/-- What it does; `await` is the `future_get_value` of `thrdpool_destroy`. -/
inductive Event
  | alloc (b : Memory)
  | free (b : Memory)
  | await
  | cancel (i : ℕ)
  | join (i : ℕ)
  deriving DecidableEq, Repr

/-- It returns the pool or a null pointer, waits for ever, or writes behind its block. -/
inductive Outcome
  | pool
  | null
  | waits
  | overruns
  deriving DecidableEq, Repr

structure Call where
  events : List Event
  outcome : Outcome
  deriving DecidableEq, Repr

def Call.after (events : List Event) (c : Call) : Call := ⟨events ++ c.events, c.outcome⟩

/-- The workers in the order of the loops of `thrdpool_destroy`, which count down from
`(int)self->num_workers - 1`. -/
def countDown (numWorkers : ℕ) : List ℕ :=
  if numWorkers % 2 ^ 32 < 2 ^ 31 then (List.range (numWorkers % 2 ^ 32)).reverse else []

/-- `thrdpool_destroy`, where `done` tells whether the promise is ever set and `created` which
workers there are to cancel. -/
def thrdpoolDestroy (done : Bool) (created : ℕ → Bool) (numWorkers : ℕ) : Call :=
  if done then
    ⟨.await :: (countDown numWorkers).flatMap
        (fun i => .cancel i :: if created i then [.join i] else []) ++
      (countDown numWorkers).map (fun i => .free (.localJobs i)) ++
      [.free .jobs, .free .pool], .null⟩
  else ⟨[.await], .waits⟩

/-- How much memory the call asks `malloc` for, with the sizes of `struct thread_pool` and of
`struct worker`. -/
def thrdpoolBytes (poolBytes workerBytes numWorkers : ℕ) : ℕ :=
  sizeAdd poolBytes (sizeMul workerBytes (sizeAdd numWorkers 1))

/-- Write the first `bytes` bytes of a block of the size `block`, and go on. -/
def Call.fill (block bytes : ℕ) (c : Call) : Call :=
  if bytes ≤ block then c else ⟨[], .overruns⟩

/-- The loop that makes the local queues, from the worker `i` on. -/
def createLocalJobs (block poolBytes workerBytes : ℕ) (fails : Place → Bool) (rest : Call)
    (i : ℕ) : ℕ → Call
  | 0 => rest
  | left + 1 =>
    .fill block (poolBytes + workerBytes * (i + 1)) <|
      if fails (.localJobs i) then ⟨[.free .jobs, .free .pool], .null⟩
      else .after [.alloc (.localJobs i)]
        (createLocalJobs block poolBytes workerBytes fails rest (i + 1) left)

def thrdpoolCreate (poolBytes workerBytes : ℕ) (fails : Place → Bool) (numWorkers : ℕ) : Call :=
  let block := thrdpoolBytes poolBytes workerBytes numWorkers
  if numWorkers = 0 then ⟨[], .null⟩
  else if fails .malloc then ⟨[], .null⟩
  else .after [.alloc .pool] <| .fill block poolBytes <|
    if fails .jobs then ⟨[.free .pool], .null⟩
    else .after [.alloc .jobs] <|
      createLocalJobs block poolBytes workerBytes fails
        (.fill block (poolBytes + workerBytes * (numWorkers + 1)) <|
          if fails .thread then thrdpoolDestroy false (fun _ => false) numWorkers
          else ⟨[], .pool⟩) 0 numWorkers

/-- The places in the order in which the call gets to them. -/
def places (numWorkers : ℕ) : List Place :=
  if numWorkers = 0 then []
  else .malloc :: .jobs :: ((List.range numWorkers).map .localJobs ++ [.thread])

/-- The call returns a null pointer, has released all it allocated exactly once, and has neither
waited for the promise nor touched a thread. -/
structure Clean (c : Call) : Prop where
  null : c.outcome = .null
  once : ∀ b, c.events.count (.alloc b) = c.events.count (.free b) ∧
    c.events.count (.free b) ≤ 1
  await : .await ∉ c.events
  thread : ∀ i, .cancel i ∉ c.events ∧ .join i ∉ c.events

variable {fails : Place → Bool} {rest c : Call} {i j left n block bytes poolBytes workerBytes : ℕ}
  {p : Place} {es : List Event}

lemma countDown_eq (h : n < 2 ^ 31) : countDown n = (List.range n).reverse := by
  unfold countDown
  rw [Nat.mod_eq_of_lt (by omega), if_pos h]

@[simp] lemma after_outcome : (Call.after es c).outcome = c.outcome := rfl

lemma fill_of_le (h : bytes ≤ block) : Call.fill block bytes c = c := if_pos h

lemma fill_of_null (h : (Call.fill block bytes c).outcome = .null) :
    bytes ≤ block ∧ c.outcome = .null := by
  unfold Call.fill at h
  split at h
  · exact ⟨‹_›, h⟩
  · cases h

/-- A loop that returns a null pointer has failed at the first worker whose queue cannot be made,
and leaves the queues before it behind. -/
lemma createLocalJobs_fails (hj : i ≤ j) (hl : j < i + left) (hf : fails (.localJobs j) = true)
    (hok : ∀ k, i ≤ k → k < j → fails (.localJobs k) = false)
    (hnull : (createLocalJobs block poolBytes workerBytes fails rest i left).outcome = .null) :
    createLocalJobs block poolBytes workerBytes fails rest i left =
      ⟨(List.range' i (j - i)).map (fun k => .alloc (.localJobs k)) ++
        [.free .jobs, .free .pool], .null⟩ := by
  induction left generalizing i with
  | zero => omega
  | succ left ih =>
    unfold createLocalJobs at hnull ⊢
    obtain ⟨hfits, hnull⟩ := fill_of_null hnull
    rw [fill_of_le hfits]
    by_cases hij : i = j
    · subst hij
      rw [if_pos hf, Nat.sub_self]
      rfl
    · rw [if_neg (by simp [hok i le_rfl (by omega)])] at hnull ⊢
      rw [ih (by omega) (by omega) (fun k hk hkj => hok k (by omega) hkj) hnull]
      obtain ⟨d, hd⟩ : ∃ d, j - i = d + 1 := ⟨j - i - 1, by omega⟩
      rw [hd, List.range'_succ, show j - (i + 1) = d by omega]
      rfl

lemma createLocalJobs_goes (hok : ∀ k, i ≤ k → k < i + left → fails (.localJobs k) = false)
    (hnull : (createLocalJobs block poolBytes workerBytes fails rest i left).outcome = .null) :
    rest.outcome = .null := by
  induction left generalizing i with
  | zero => exact hnull
  | succ left ih =>
    unfold createLocalJobs at hnull
    obtain ⟨-, hnull⟩ := fill_of_null hnull
    rw [if_neg (by simp [hok i le_rfl (by omega)])] at hnull
    exact ih (fun k hk hkl => hok k (by omega) (by omega)) hnull

/-- Where the loop has made the queue of worker 0 before it fails, nobody releases that queue. -/
lemma leaks_first (hc : c.events = .alloc .pool :: .alloc .jobs ::
    ((List.range (j + 1)).map (fun k => .alloc (.localJobs k)) ++ [.free .jobs, .free .pool])) :
    ¬ Clean c := by
  intro hclean
  have hcount := (hclean.once (.localJobs 0)).1
  have hfree : Event.free (.localJobs 0) ∉ c.events := by simp [hc]
  have hzero := hcount.trans (List.count_eq_zero_of_not_mem hfree)
  exact absurd (List.count_eq_zero.mp hzero) (by simp [hc])

lemma first_cases (h : (places n).find? fails = some p) : 0 < n ∧ fails p = true ∧
    (p ≠ .malloc → fails .malloc = false) ∧
    (p ≠ .malloc → p ≠ .jobs → fails .jobs = false) ∧
    (∀ j, p = .localJobs j → j < n ∧ ∀ k < j, fails (.localJobs k) = false) ∧
    (p = .thread → ∀ k < n, fails (.localJobs k) = false) := by
  have hp := List.find?_some h
  unfold places at h
  split at h
  · simp at h
  · rename_i hn
    rw [List.find?_cons] at h
    split at h
    · rename_i hm
      obtain rfl := by simpa using h
      exact ⟨by omega, hp, by simp, by simp, by simp, by simp⟩
    · rename_i hm
      rw [List.find?_cons] at h
      split at h
      · obtain rfl := by simpa using h
        exact ⟨by omega, hp, fun _ => hm, by simp, by simp, by simp⟩
      · rename_i hq
        rw [List.find?_append, List.find?_map] at h
        cases hr : (List.range n).find? (fails ∘ .localJobs) with
        | some j =>
          rw [hr, Option.map_some, Option.some_or] at h
          obtain rfl := Option.some.inj h
          obtain ⟨-, hj, hbefore⟩ := List.find?_range_eq_some.mp hr
          refine ⟨by omega, hp, fun _ => hm, fun _ _ => hq, ?_, by simp⟩
          intro j' hjj'
          obtain rfl : j = j' := by simpa using hjj'
          exact ⟨List.mem_range.mp hj, fun k hk => by simpa using hbefore k hk⟩
        | none =>
          rw [hr, Option.map_none, Option.none_or] at h
          obtain rfl := List.mem_singleton.mp (List.mem_of_find?_eq_some h)
          refine ⟨by omega, hp, fun _ => hm, fun _ _ => hq, by simp, fun _ k hk => ?_⟩
          simpa using List.find?_eq_none.mp hr k (List.mem_range.mpr hk)

/-- **Clean failure**: a call that fails undoes its work exactly when what fails first is
`malloc`, or the shared queue or the queue of the first worker after a block was given that is not
too small for what has been written by then. -/
theorem thrdpool_create_clean_iff (h : (places n).find? fails = some p) :
    Clean (thrdpoolCreate poolBytes workerBytes fails n) ↔ p = .malloc ∨
      p = .jobs ∧ poolBytes ≤ thrdpoolBytes poolBytes workerBytes n ∨
      p = .localJobs 0 ∧ poolBytes + workerBytes ≤ thrdpoolBytes poolBytes workerBytes n := by
  obtain ⟨hn, hp, hm, hq, hlocal, hthread⟩ := first_cases h
  unfold thrdpoolCreate
  rw [if_neg (by omega)]
  generalize thrdpoolBytes poolBytes workerBytes n = block
  constructor
  · intro hclean
    have hnull := hclean.null
    cases p with
    | malloc => exact .inl rfl
    | jobs =>
      rw [if_neg (by simp [hm])] at hnull
      exact .inr (.inl ⟨rfl, (fill_of_null hnull).1⟩)
    | localJobs j =>
      obtain ⟨hj, hbefore⟩ := hlocal j rfl
      rw [if_neg (by simp [hm])] at hnull hclean
      obtain ⟨hfits, hnull⟩ := fill_of_null hnull
      rw [fill_of_le hfits, if_neg (by simp [hq])] at hclean
      rw [if_neg (by simp [hq])] at hnull
      have hloop := createLocalJobs_fails (Nat.zero_le j) (by omega) hp
        (fun k _ hk => hbefore k hk) hnull
      rw [hloop, Nat.sub_zero, ← List.range_eq_range'] at hclean
      rcases j with - | j
      · obtain ⟨left, rfl⟩ : ∃ left, n = left + 1 := ⟨n - 1, by omega⟩
        obtain ⟨hfirst, -⟩ := fill_of_null hnull
        exact .inr (.inr ⟨rfl, by simpa using hfirst⟩)
      · exact absurd hclean (leaks_first rfl)
    | thread =>
      rw [if_neg (by simp [hm])] at hnull
      obtain ⟨-, hnull⟩ := fill_of_null hnull
      rw [if_neg (by simp [hq])] at hnull
      have hrest := createLocalJobs_goes (fun k _ hk => hthread rfl k (by omega)) hnull
      obtain ⟨-, hwaits⟩ := fill_of_null hrest
      rw [if_pos hp] at hwaits
      cases hwaits
  · rintro (rfl | ⟨rfl, hfits⟩ | ⟨rfl, hfits⟩)
    · rw [if_pos hp]
      exact ⟨rfl, by simp, by simp, by simp⟩
    · rw [if_neg (by simp [hm]), fill_of_le hfits, if_pos hp]
      refine ⟨rfl, fun b => ?_, by simp [Call.after], by simp [Call.after]⟩
      cases b <;> simp [Call.after]
    · obtain ⟨left, rfl⟩ : ∃ left, n = left + 1 := ⟨n - 1, by omega⟩
      unfold createLocalJobs
      rw [if_neg (by simp [hm]), fill_of_le (by omega), if_neg (by simp [hq]),
        fill_of_le (by omega), if_pos hp]
      refine ⟨rfl, fun b => ?_, by simp [Call.after], by simp [Call.after]⟩
      cases b <;> simp [Call.after]

/-- A pool of three whose shared queue cannot be made. -/
theorem thrdpool_create_clean_three :
    Clean (thrdpoolCreate 384 256 (fun p => decide (p = .jobs)) 3) ↔ Place.jobs = .malloc ∨
      Place.jobs = .jobs ∧ 384 ≤ thrdpoolBytes 384 256 3 ∨
      Place.jobs = .localJobs 0 ∧ 384 + 256 ≤ thrdpoolBytes 384 256 3 :=
  thrdpool_create_clean_iff rfl

/-- When the queue of worker 1 cannot be made, the one of worker 0 is left behind. -/
theorem thrdpool_create_unclean : ¬ ∀ (fails : Place → Bool) (n : ℕ) (p : Place),
    (places n).find? fails = some p → Clean (thrdpoolCreate 384 256 fails n) := by
  intro hall
  have hleak := (hall (fun p => decide (p = .localJobs 1)) 2 (.localJobs 1) rfl).once
    (.localJobs 0)
  exact absurd hleak.1 (by decide)

end CoopTasks.ThreadPoolCreate
