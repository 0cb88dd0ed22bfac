import CoopTasks.ThreadsRegistry
import Mathlib.Data.Finset.Dedup
import Mathlib.Data.Fintype.EquivFin
import Mathlib.Data.List.Perm.Subperm

/-!
What a call of `thrd_create` leaves behind when it fails.

The block that carries the start data is the caller's until `pthread_create` succeeds, and the
thread's after that; the thread then takes a semaphore. A call that fails where it asks a pool
for one of these leaves nothing behind. Where `pthread_create` fails nobody gives the block back,
and where `sem_init` or `list_insert` fails nobody gives the semaphore back.
-/

namespace CoopTasks.Threads

open CoopTasks.Placement CoopTasks.Machine

variable {F A : Type*} {s s₁ s' u v : State F A} {t c b key : ℕ} {ok : Bool} {f f' : F} {a a' : A}
  {l : List ℕ} {act : Act F A}

/-- Whether the action is one of the call `c` or of the thread that it starts. -/
def Act.of (c : ℕ) : Act F A → Bool
  | .create d | .start d _ | .startFail d => d == c
  | .step t _ _ | .exit t => t == c
  | .call _ _ => false

/-- Whether the call has returned -1. -/
def CreatePc.failed : CreatePc → Bool
  | .ret r => decide (r < 0)
  | .lost _ => true
  | _ => false

/-- The pools have as many free fragments as before, and the registry is the same. -/
structure Unleaked (s s' : State F A) : Prop where
  buckets : s'.buckets.length = s.buckets.length
  suspends : s'.suspends.length = s.suspends.length
  tcbs : s'.tcbs = s.tcbs

/-- If something fails at this step, it is a `mempool_alloc`. -/
def AllocOnly (s : State F A) : Act F A → Prop
  | .startFail _ => False
  | .step t _ ok =>
    match s.threads t with
    | .initSem => ok = true
    | .insert =>
      (listInsert s.tcbs ⟨(s.block (s.tcb t)).thr, (s.block (s.tcb t)).suspend, t⟩).isSome = true
    | _ => True
  | .call _ _ | .create _ | .start _ _ | .exit _ => True

instance [DecidableEq F] [DecidableEq A] (s : State F A) : (act : Act F A) →
    Decidable (AllocOnly s act)
  | .startFail _ => inferInstanceAs (Decidable False)
  | .step t key ok =>
    decidable_of_iff ((s.threads t = .initSem → ok = true) ∧ (s.threads t = .insert →
        (listInsert s.tcbs ⟨(s.block (s.tcb t)).thr, (s.block (s.tcb t)).suspend, t⟩).isSome))
      (by cases h : s.threads t <;> simp [AllocOnly, h])
  | .call _ _ | .create _ | .start _ _ | .exit _ => inferInstanceAs (Decidable True)

/-! ### Promises -/

/-- The call whose promise the thread is about to set. -/
def EntryPc.promise : EntryPc F A → Option ℕ
  | .setPrms p | .failSet p => p
  | _ => none

/-- Nothing knows of the promise of a call that has not begun. -/
structure Unanswered (s : State F A) : Prop where
  promise : ∀ p, s.count ≤ p → s.promise p = none
  block : ∀ b p, (s.block b).prms = some p → p < s.count
  thread : ∀ t p, (s.threads t).promise = some p → p < s.count

lemma Unanswered.go (h : Unanswered s) {x : State F A} {pc : EntryPc F A}
    (hcount : x.count = s.count) (hthreads : x.threads = s.threads)
    (hpromise : x.promise = s.promise)
    (hblock : ∀ b p, (x.block b).prms = some p → (s.block b).prms = some p)
    (hpc : ∀ p, pc.promise = some p → p < s.count) : Unanswered (x.go t pc) where
  promise p hp := by
    rw [show (x.go t pc).promise = s.promise from hpromise]
    exact h.promise p (hcount ▸ hp)
  block b p hp := by
    rw [show (x.go t pc).count = s.count from hcount]
    exact h.block b p (hblock b p hp)
  thread u p hp := by
    rw [show (x.go t pc).count = s.count from hcount]
    by_cases hu : u = t
    · rw [hu, go_threads] at hp
      exact hpc p hp
    · rw [go_threads_ne hu, hthreads] at hp
      exact h.thread u p hp

lemma setTcb_prms {d : Tcb F A} (hd : d.prms = (s.block b).prms ∨ d.prms = none) (b' p : ℕ)
    (h : ((s.setTcb b d).block b').prms = some p) : (s.block b').prms = some p := by
  by_cases hb : b' = b
  · subst hb
    have h : d.prms = some p := by simpa [State.setTcb] using h
    rcases hd with he | he <;> simp_all
  · simpa [State.setTcb, hb] using h

lemma internalEntry_unanswered (h : Unanswered s) (hs : internalEntry s t key ok = some s') :
    Unanswered s' := by
  have hset : ∀ (x : State F A) (p : Option ℕ) (w : ℤ) (pc : EntryPc F A), pc.promise = none →
      (s.threads t).promise = p → x = promiseSetValue s t w p → Unanswered (x.go t pc) := by
    rintro x p w pc hpc hp rfl
    cases p with
    | none => exact h.go rfl rfl rfl (fun _ _ hb => hb) (by simp [hpc])
    | some p =>
      refine ⟨fun q hq => ?_, h.block, fun u q hq => ?_⟩
      · have hlt := h.thread t p hp
        have hq : s.count ≤ q := hq
        have hne : q ≠ p := by omega
        simpa [State.go, promiseSetValue, hne] using h.promise q hq
      · by_cases hu : u = t
        · rw [hu, go_threads, hpc] at hq
          simp at hq
        · rw [go_threads_ne hu] at hq
          exact h.thread u q hq
  cases hpc : s.threads t with
  | unborn | running | finished => simp [internalEntry, hpc] at hs
  | setThr =>
    obtain rfl := by simpa [internalEntry, hpc] using hs
    exact h.go rfl rfl rfl (setTcb_prms (.inl rfl)) (by simp [EntryPc.promise])
  | allocSuspend =>
    simp only [internalEntry, hpc] at hs
    split at hs <;> obtain rfl := Option.some.inj hs <;>
      exact h.go rfl rfl rfl (setTcb_prms (.inl rfl)) (by simp [EntryPc.promise])
  | initSem | insert | keyCreate | setSpecific | destructors =>
    simp only [internalEntry, hpc] at hs
    split at hs <;> first
      | (obtain rfl := Option.some.inj hs
         exact h.go rfl rfl rfl (fun _ _ hb => hb) (by simp [EntryPc.promise]))
      | simp at hs
  | freeBucket | readSuspend | readFunc | readArg | call | failFree | keyDelete =>
    obtain rfl := by simpa [internalEntry, hpc] using hs
    exact h.go rfl rfl rfl (fun _ _ hb => hb) (by simp [EntryPc.promise])
  | readPrms | failRead =>
    obtain rfl := by simpa [internalEntry, hpc] using hs
    exact h.go rfl rfl rfl (fun _ _ hb => hb) fun p hp => h.block _ p hp
  | setPrms p | failSet p =>
    obtain rfl := by simpa [internalEntry, hpc] using hs
    exact hset _ p _ _ rfl (by rw [hpc]; rfl) rfl
  | clearPrms =>
    obtain rfl := by simpa [internalEntry, hpc] using hs
    exact h.go rfl rfl rfl (setTcb_prms (.inr rfl)) (by simp [EntryPc.promise])
  | listDelete =>
    simp only [internalEntry, hpc] at hs
    obtain ⟨e, -, rfl⟩ := Option.map_eq_some_iff.mp hs
    exact h.go rfl rfl rfl (fun _ _ hb => hb) (by simp [EntryPc.promise])
  | freeSuspend m =>
    simp only [internalEntry, hpc] at hs
    obtain ⟨a, -, rfl⟩ := Option.map_eq_some_iff.mp hs
    exact h.go rfl rfl rfl (fun _ _ hb => hb) (by simp [EntryPc.promise])

lemma unanswered_step (h : Unanswered s) (hI : Inv s) (hs : next s act = some s') :
    Unanswered s' := by
  cases act with
  | call f a =>
    cases f with
    | none =>
      obtain rfl := Option.some.inj hs
      exact h
    | some f =>
      obtain rfl := Option.some.inj hs
      exact ⟨fun p hp => h.promise p (Nat.le_of_succ_le hp),
        fun b p hp => Nat.lt_succ_of_lt (h.block b p hp),
        fun t p hp => Nat.lt_succ_of_lt (h.thread t p hp)⟩
  | create c =>
    simp only [next, thrdCreate] at hs
    split at hs
    · split at hs <;> obtain rfl := Option.some.inj hs <;> exact ⟨h.promise, h.block, h.thread⟩
    · rename_i b hpc
      obtain rfl := Option.some.inj hs
      refine ⟨h.promise, fun b' p hp => ?_, h.thread⟩
      by_cases hb : b' = b
      · subst hb
        obtain rfl : c = p := by simpa [State.setTcb] using hp
        exact hI.lt_count (by simp [hpc])
      · exact h.block b' p (by simpa [State.setTcb, hb] using hp)
    · obtain ⟨w, -, rfl⟩ := Option.map_eq_some_iff.mp hs
      exact ⟨h.promise, h.block, h.thread⟩
    · simp at hs
  | start c k =>
    simp only [next] at hs
    split at hs
    · split at hs
      · obtain rfl := Option.some.inj hs
        refine ⟨h.promise, h.block, fun t p hp => ?_⟩
        by_cases ht : t = c
        · simp [ht, EntryPc.promise] at hp
        · exact h.thread t p (by simpa [ht] using hp)
      · simp at hs
    · simp at hs
  | startFail c =>
    simp only [next] at hs
    split at hs
    · obtain rfl := Option.some.inj hs
      exact ⟨h.promise, h.block, h.thread⟩
    · simp at hs
  | step t key ok => exact internalEntry_unanswered h hs
  | exit t =>
    simp only [next] at hs
    split at hs
    · obtain rfl := Option.some.inj hs
      exact h.go rfl rfl rfl (fun _ _ hb => hb) (by simp [EntryPc.promise])
    · simp at hs

lemma unanswered_of_reach {ok : State F A → Act F A → Prop}
    (h : Reach next ok (initial f a) s) : Inv s ∧ Unanswered s := by
  apply h.inv (I := fun s => Inv s ∧ Unanswered s)
  · exact ⟨initial_inv f a, fun _ _ => rfl, by simp [initial], by simp [initial, EntryPc.promise]⟩
  · rintro u l v ⟨hI, hu⟩ - hs
    exact ⟨inv_step hI hs, unanswered_step hu hI hs⟩

/-! ### A call on its own -/

/-- What is out of the pools for the thread of the call, and the registry, as the thread `c` of
the block `b` goes on; `l` are the free blocks that were left to it. -/
def PoolsAt (s u : State F A) (c b : ℕ) (l : List ℕ) : EntryPc F A → Prop
  | .setThr | .allocSuspend => u.buckets = l ∧ u.suspends = s.suspends ∧ u.tcbs = s.tcbs
  | .initSem | .insert =>
    u.buckets = l ∧ (∃ a, mempoolAlloc s.suspends = some (a, u.suspends)) ∧ u.tcbs = s.tcbs
  | .failFree => u.buckets = l ∧ Sem ∧ u.tcbs = s.tcbs
  | .failRead | .failSet _ => u.buckets = l ++ [b] ∧ Sem ∧ u.tcbs = s.tcbs
  | .destructors | .finished =>
    u.promise c = some 0 ∨ u.buckets = l ++ [b] ∧ Sem ∧ u.tcbs = s.tcbs
  | _ => True
where
  /-- The thread has found no semaphore, or has taken one. -/
  Sem : Prop := mempoolAlloc s.suspends = none ∧ u.suspends = s.suspends ∨
    ∃ a, mempoolAlloc s.suspends = some (a, u.suspends)

/-- What the thread of the call knows of its promise, and what it has set it to. -/
def PromiseAt (u : State F A) (c b : ℕ) : EntryPc F A → Prop
  | .setThr | .allocSuspend | .initSem | .insert | .keyCreate | .setSpecific | .freeBucket
  | .readSuspend | .readPrms | .failFree | .failRead =>
    (u.block b).prms = some c ∧ u.promise c = none
  | .setPrms p | .failSet p => p = some c ∧ u.promise c = none
  | .clearPrms | .readFunc | .readArg _ | .call _ _ | .running | .listDelete | .freeSuspend _
  | .keyDelete => u.promise c = some 0
  | .destructors | .finished => ∃ w, u.promise c = some w
  | .unborn => False

/-- How far the call `c` has come alone, from `s` to `u`. -/
def CallAt (s u : State F A) (c : ℕ) : CreatePc → Prop
  | .idle => False
  | .alloc => u.threads c = .unborn ∧ u.promise c = none ∧ Same
  | .write b | .lost b => Taken b
  | .create b => Taken b ∧ (u.block b).prms = some c
  | .wait => Born
  | .ret r => u.threads c = .unborn ∧ mempoolAlloc s.buckets = none ∧ Same ∨
    Born ∧ ∃ w, u.promise c = some w ∧ (r < 0 ↔ w < 0)
where
  Same : Prop := u.buckets = s.buckets ∧ u.suspends = s.suspends ∧ u.tcbs = s.tcbs
  /-- The call holds the block `b`. -/
  Taken (b : ℕ) : Prop := u.threads c = .unborn ∧ u.promise c = none ∧
    mempoolAlloc s.buckets = some (b, u.buckets) ∧ u.suspends = s.suspends ∧ u.tcbs = s.tcbs
  /-- The thread exists. -/
  Born : Prop := ∃ b l, mempoolAlloc s.buckets = some (b, l) ∧ u.tcb c = b ∧
    PoolsAt s u c b l (u.threads c) ∧ PromiseAt u c b (u.threads c)

lemma born_step (hnew : ¬ Listed s c) (hI : Inv u) (h : CallAt.Born s u c)
    (hs : internalEntry u c key ok = some v) :
    CallAt.Born s v c ∧ v.creators = u.creators ∧
      ∀ w, u.promise c = some w → v.promise c = some w := by
  obtain ⟨b, l, hb, htcb, hpools, hprms⟩ := h
  have hgo : ∀ {x : State F A} {pc : EntryPc F A}, x.tcb = u.tcb → x.creators = u.creators →
      PoolsAt s (x.go c pc) c b l pc → PromiseAt (x.go c pc) c b pc →
      (∀ w, u.promise c = some w → x.promise c = some w) →
      CallAt.Born s (x.go c pc) c ∧ (x.go c pc).creators = u.creators ∧
        ∀ w, u.promise c = some w → (x.go c pc).promise c = some w := by
    intro x pc h1 h2 h3 h4 h5
    refine ⟨⟨b, l, hb, by rw [← htcb, ← h1]; rfl, ?_, ?_⟩, h2, h5⟩
    · rwa [go_threads]
    · rwa [go_threads]
  have hblock : ∀ d : Tcb F A, ((u.setTcb (u.tcb c) d).block b).prms = d.prms := fun d => by
    simp [State.setTcb, htcb]
  cases hpc : u.threads c with
  | unborn => simp [hpc, PromiseAt] at hprms
  | running | finished => simp [internalEntry, hpc] at hs
  | setThr =>
    simp only [hpc, PoolsAt, PromiseAt] at hpools hprms
    obtain rfl := by simpa [internalEntry, hpc] using hs
    refine hgo rfl rfl hpools ⟨(hblock _).trans ?_, hprms.2⟩ fun w hw => hw
    rw [htcb]
    exact hprms.1
  | allocSuspend =>
    simp only [hpc, PoolsAt, PromiseAt] at hpools hprms
    obtain ⟨hfree, hsus, htcbs⟩ := hpools
    have hkeep : (u.block (u.tcb c)).prms = some c := by rw [htcb]; exact hprms.1
    simp only [internalEntry, hpc] at hs
    split at hs
    · rename_i m l' hm
      obtain rfl := Option.some.inj hs
      exact hgo rfl rfl ⟨hfree, ⟨m, hsus ▸ hm⟩, htcbs⟩ ⟨(hblock _).trans hkeep, hprms.2⟩
        fun w hw => hw
    · rename_i hm
      obtain rfl := Option.some.inj hs
      exact hgo rfl rfl ⟨hfree, .inl ⟨hsus ▸ hm, hsus⟩, htcbs⟩
        ⟨(hblock _).trans hkeep, hprms.2⟩ fun w hw => hw
  | initSem =>
    simp only [hpc, PoolsAt, PromiseAt] at hpools hprms
    obtain ⟨hfree, hsem, htcbs⟩ := hpools
    simp only [internalEntry, hpc] at hs
    split at hs
    · obtain rfl := Option.some.inj hs
      exact hgo rfl rfl ⟨hfree, hsem, htcbs⟩ hprms fun w hw => hw
    · obtain rfl := Option.some.inj hs
      exact hgo rfl rfl ⟨hfree, .inr hsem, htcbs⟩ hprms fun w hw => hw
  | insert =>
    simp only [hpc, PoolsAt, PromiseAt] at hpools hprms
    obtain ⟨hfree, hsem, htcbs⟩ := hpools
    simp only [internalEntry, hpc] at hs
    split at hs
    · obtain rfl := Option.some.inj hs
      exact hgo rfl rfl trivial hprms fun w hw => hw
    · obtain rfl := Option.some.inj hs
      exact hgo rfl rfl ⟨hfree, .inr hsem, htcbs⟩ hprms fun w hw => hw
  | keyCreate =>
    simp only [hpc, PromiseAt] at hprms
    simp only [internalEntry, hpc] at hs
    split at hs
    · simp at hs
    · obtain rfl := Option.some.inj hs
      exact hgo rfl rfl trivial hprms fun w hw => hw
  | setSpecific =>
    simp only [hpc, PromiseAt] at hprms
    simp only [internalEntry, hpc] at hs
    split at hs <;> obtain rfl := Option.some.inj hs <;>
      exact hgo rfl rfl trivial hprms fun w hw => hw
  | freeBucket | readSuspend | readFunc | readArg | call =>
    simp only [hpc, PromiseAt] at hprms
    obtain rfl := by simpa [internalEntry, hpc] using hs
    exact hgo rfl rfl trivial hprms fun w hw => hw
  | readPrms =>
    simp only [hpc, PromiseAt] at hprms
    obtain rfl := by simpa [internalEntry, hpc] using hs
    exact hgo rfl rfl trivial ⟨by rw [htcb]; exact hprms.1, hprms.2⟩ fun w hw => hw
  | setPrms p =>
    simp only [hpc, PromiseAt] at hprms
    obtain ⟨rfl, hnone⟩ := hprms
    obtain rfl := by simpa [internalEntry, hpc] using hs
    exact hgo rfl rfl trivial (by simp [PromiseAt, State.go, promiseSetValue])
      fun w hw => by simp [hnone] at hw
  | clearPrms =>
    simp only [hpc, PromiseAt] at hprms
    obtain rfl := by simpa [internalEntry, hpc] using hs
    exact hgo rfl rfl trivial hprms fun w hw => hw
  | failFree =>
    simp only [hpc, PoolsAt, PromiseAt] at hpools hprms
    obtain ⟨hfree, hsem, htcbs⟩ := hpools
    obtain rfl := by simpa [internalEntry, hpc] using hs
    refine hgo rfl rfl ⟨?_, hsem, htcbs⟩ hprms fun w hw => hw
    simp [State.go, mempoolFree, hfree, htcb]
  | failRead =>
    simp only [hpc, PoolsAt, PromiseAt] at hpools hprms
    obtain rfl := by simpa [internalEntry, hpc] using hs
    exact hgo rfl rfl hpools ⟨by rw [htcb]; exact hprms.1, hprms.2⟩ fun w hw => hw
  | failSet p =>
    simp only [hpc, PoolsAt, PromiseAt] at hpools hprms
    obtain ⟨rfl, hnone⟩ := hprms
    obtain rfl := by simpa [internalEntry, hpc] using hs
    exact hgo rfl rfl (.inr hpools) ⟨-enomem, by simp [State.go, promiseSetValue]⟩
      fun w hw => by simp [hnone] at hw
  | destructors =>
    simp only [hpc, PoolsAt, PromiseAt] at hpools hprms
    have hown := hI.threads c
    simp only [ThreadOk, hpc] at hown
    simp only [internalEntry, hpc] at hs
    split at hs
    · rename_i k hk
      obtain rfl := Option.some.inj hs
      rcases hpools with hzero | ⟨-, -, htcbs⟩
      · exact hgo rfl rfl trivial hzero fun w hw => hw
      · -- a thread that failed is not registered, so no destructor is due
        have hval : u.value c k = true := by simpa [dueKey] using List.find?_some hk
        obtain ⟨e, he, het⟩ := hown.2.1 ⟨k, hval⟩
        exact absurd ⟨e, htcbs ▸ he, het⟩ hnew
    · obtain rfl := Option.some.inj hs
      exact hgo rfl rfl hpools hprms fun w hw => hw
  | listDelete =>
    simp only [hpc, PromiseAt] at hprms
    simp only [internalEntry, hpc] at hs
    obtain ⟨e, -, rfl⟩ := Option.map_eq_some_iff.mp hs
    exact hgo rfl rfl trivial hprms fun w hw => hw
  | freeSuspend m =>
    simp only [hpc, PromiseAt] at hprms
    simp only [internalEntry, hpc] at hs
    obtain ⟨a, -, rfl⟩ := Option.map_eq_some_iff.mp hs
    exact hgo rfl rfl trivial hprms fun w hw => hw
  | keyDelete =>
    simp only [hpc, PromiseAt] at hprms
    obtain rfl := by simpa [internalEntry, hpc] using hs
    exact hgo rfl rfl (.inl hprms) ⟨0, hprms⟩ fun w hw => hw

lemma CallAt.set {pc : CreatePc} {creators : ℕ → CreatePc}
    (hu : u.creators = Function.update creators c pc) (h : CallAt s u c pc) :
    CallAt s u c (u.creators c) := by
  rwa [hu, Function.update_self]

lemma unborn_step (hun : u.threads c = .unborn) : internalEntry u c key ok = none := by
  unfold internalEntry
  rw [hun]

lemma exit_step (h : CallAt.Born s u c) (hpc : u.threads c = .running) :
    CallAt.Born s (u.go c .destructors) c := by
  obtain ⟨b, l, hb, htcb, -, hprms⟩ := h
  simp only [hpc, PromiseAt] at hprms
  refine ⟨b, l, hb, htcb, ?_, ?_⟩ <;> rw [go_threads]
  · exact .inl hprms
  · exact ⟨0, hprms⟩

lemma callAt_step (hnew : ¬ Listed s c) (hI : Inv u) (h : CallAt s u c (u.creators c))
    (ha : act.of c = true) (hs : next u act = some v) : CallAt s v c (v.creators c) := by
  cases act with
  | call => simp [Act.of] at ha
  | create d =>
    obtain rfl : d = c := by simpa [Act.of] using ha
    simp only [next, thrdCreate] at hs
    split at hs
    · rename_i hpc
      rw [hpc] at h
      obtain ⟨hun, hnone, hfree, hsus, htcbs⟩ := h
      split at hs <;> rename_i hm <;> obtain rfl := Option.some.inj hs
      · exact CallAt.set rfl ⟨hun, hnone, hfree ▸ hm, hsus, htcbs⟩
      · exact CallAt.set rfl (.inl ⟨hun, hfree ▸ hm, hfree, hsus, htcbs⟩)
    · rename_i b hpc
      rw [hpc] at h
      obtain rfl := Option.some.inj hs
      exact CallAt.set rfl ⟨h, by simp [State.setTcb]⟩
    · rename_i hpc
      rw [hpc] at h
      obtain ⟨w, hw, rfl⟩ := Option.map_eq_some_iff.mp hs
      refine CallAt.set rfl (.inr ⟨h, w, hw, ?_⟩)
      by_cases hneg : w < 0 <;> simp [hneg]
    · simp at hs
  | start d k =>
    obtain rfl : d = c := by simpa [Act.of] using ha
    simp only [next] at hs
    split at hs
    · rename_i b hpc
      rw [hpc] at h
      obtain ⟨⟨hun, hnone, hb, hsus, htcbs⟩, hprms⟩ := h
      split at hs
      · obtain rfl := Option.some.inj hs
        refine CallAt.set rfl ⟨b, u.buckets, hb, Function.update_self .., ?_, ?_⟩ <;>
          simp only [Function.update_self]
        · exact ⟨rfl, hsus, htcbs⟩
        · exact ⟨hprms, hnone⟩
      · simp at hs
    · simp at hs
  | startFail d =>
    obtain rfl : d = c := by simpa [Act.of] using ha
    simp only [next] at hs
    split at hs
    · rename_i b hpc
      rw [hpc] at h
      obtain rfl := Option.some.inj hs
      exact CallAt.set rfl h.1
    · simp at hs
  | step t key ok =>
    obtain rfl : t = c := by simpa [Act.of] using ha
    have hs : internalEntry u t key ok = some v := hs
    have hun : u.threads t ≠ .unborn := fun hun => by simp [unborn_step hun] at hs
    cases hcr : u.creators t <;> rw [hcr] at h
    case wait =>
      obtain ⟨hborn, hsame, -⟩ := born_step hnew hI h hs
      rw [hsame, hcr]
      exact hborn
    case ret r =>
      obtain ⟨hun', -⟩ | ⟨hborn, w, hw, hr⟩ := h
      · exact absurd hun' hun
      · obtain ⟨hborn, hsame, hkeep⟩ := born_step hnew hI hborn hs
        rw [hsame, hcr]
        exact .inr ⟨hborn, w, hkeep w hw, hr⟩
    case idle => exact h.elim
    case alloc | write | lost => exact absurd h.1 hun
    case create => exact absurd h.1.1 hun
  | exit t =>
    obtain rfl : t = c := by simpa [Act.of] using ha
    simp only [next] at hs
    split at hs
    · rename_i hpc
      obtain rfl := Option.some.inj hs
      show CallAt s _ t (u.creators t)
      cases hcr : u.creators t <;> rw [hcr] at h
      case wait => exact exit_step h hpc
      case ret r =>
        obtain ⟨hun, -⟩ | ⟨hborn, hw⟩ := h
        · simp [hpc] at hun
        · exact .inr ⟨exit_step hborn hpc, hw⟩
      case idle => exact h.elim
      case alloc | write | lost => exact absurd (h.1.symm.trans hpc) (by simp)
      case create => exact absurd (h.1.1.symm.trans hpc) (by simp)
    · simp at hs

lemma callAt_of_reach (hI : Inv s) (hun : Unanswered s) (hs : next s (.call (some f) a) = some s₁)
    (h : Reach next (fun _ act => act.of s.count = true) s₁ u) :
    CallAt s u s.count (u.creators s.count) := by
  have hidle := hI.calls.future s.count le_rfl
  have hunborn := hI.unborn (c := s.count) (by simp [hidle]) (by simp [hidle])
  have hnew : ¬ Listed s s.count := by
    have hown := hI.threads s.count
    simp only [ThreadOk, hunborn] at hown
    exact hown.2.1
  have hrun : Inv u ∧ CallAt s u s.count (u.creators s.count) := by
    apply h.inv (I := fun u => Inv u ∧ CallAt s u s.count (u.creators s.count))
    · refine ⟨inv_step hI hs, ?_⟩
      obtain rfl := Option.some.inj hs
      exact CallAt.set rfl ⟨hunborn, hun.promise s.count le_rfl, rfl, rfl, rfl⟩
    · rintro t l v ⟨hIt, hat⟩ hl hv
      exact ⟨inv_step hIt hv, callAt_step hnew hIt hat hl hv⟩
  exact hrun.2

lemma mempoolAlloc_length {l l' : List ℕ} {b : ℕ} (h : mempoolAlloc l = some (b, l')) :
    l.length = l'.length + 1 := by
  rw [mempoolAlloc_some h, List.length_cons]

/-- A thread whose promise is negative has failed, and has given the block back. -/
lemma poolsAt_negative {b : ℕ} {pc : EntryPc F A} {w : ℤ} (hpools : PoolsAt s u c b l pc)
    (hprms : PromiseAt u c b pc) (hw : u.promise c = some w) (hneg : w < 0) :
    u.buckets = l ++ [b] ∧ PoolsAt.Sem s u ∧ u.tcbs = s.tcbs := by
  have hzero : u.promise c ≠ some 0 := by
    rintro h0
    obtain rfl : w = 0 := by simpa [hw] using h0
    omega
  cases pc with
  | destructors | finished => exact hpools.resolve_left hzero
  | clearPrms | readFunc | readArg | call | running | listDelete | freeSuspend | keyDelete =>
    exact absurd hprms hzero
  | unborn => exact hprms.elim
  | _ => exact absurd (hw.symm.trans hprms.2) (by simp)

/-- A call that fails has leaked nothing exactly if a pool had nothing to give. -/
lemma unleaked_iff (h : CallAt s u c (u.creators c)) (hfail : (u.creators c).failed = true) :
    Unleaked s u ↔ mempoolAlloc s.buckets = none ∨
      mempoolAlloc s.suspends = none ∧ ∀ b, u.creators c ≠ .lost b := by
  cases hcr : u.creators c <;> rw [hcr] at h hfail <;> simp only [CreatePc.failed] at hfail
  case idle | alloc | write | create | wait => simp at hfail
  case lost b =>
    obtain ⟨-, -, hb, -, -⟩ := h
    have hlen := mempoolAlloc_length hb
    constructor
    · rintro ⟨hsame, -, -⟩
      omega
    · rintro (hnone | ⟨-, hne⟩)
      · simp [hnone] at hb
      · exact absurd rfl (hne b)
  case ret r =>
    have hr : r < 0 := by simpa using hfail
    obtain ⟨-, hnone, hfree, hsus, htcbs⟩ | ⟨⟨b, l, hb, -, hpools, hprms⟩, w, hw, hrw⟩ := h
    · exact ⟨fun _ => .inl hnone, fun _ => ⟨by rw [hfree], by rw [hsus], htcbs⟩⟩
    · have hneg := hrw.mp hr
      have hlen := mempoolAlloc_length hb
      obtain ⟨hfree, hsem, htcbs⟩ := poolsAt_negative hpools hprms hw hneg
      have hbuckets : u.buckets.length = s.buckets.length := by
        rw [hfree, hlen, List.length_append, List.length_singleton]
      rcases hsem with ⟨hnone, hsame⟩ | ⟨m, hm⟩
      · exact ⟨fun _ => .inr ⟨hnone, by simp⟩, fun _ => ⟨hbuckets, by rw [hsame], htcbs⟩⟩
      · have hlen' := mempoolAlloc_length hm
        constructor
        · rintro ⟨-, hsame, -⟩
          omega
        · rintro (hnone | ⟨hnone, -⟩)
          · simp [hnone] at hb
          · simp [hnone] at hm

/-! ### A call that can succeed -/

/-- No entry has the handle `h`, and there is room for one. -/
def Unlisted (u : State F A) (h : ℕ) : Prop :=
  u.tcbs.length < maxThreads ∧ ∀ e ∈ u.tcbs, e.key ≠ h

/-- There is a semaphore for the thread, too. -/
def Room (u : State F A) (h : ℕ) : Prop :=
  (∃ x, mempoolAlloc u.suspends = some x) ∧ Unlisted u h

/-- The thread `c` can go on to set its promise to zero. -/
def ThreadSucceeds (u : State F A) (c h : ℕ) : EntryPc F A → Prop
  | .setThr => (u.block (u.tcb c)).prms = some c ∧ Room u h
  | .allocSuspend =>
    (u.block (u.tcb c)).prms = some c ∧ (u.block (u.tcb c)).thr = h ∧ Room u h
  | .initSem | .insert =>
    (u.block (u.tcb c)).prms = some c ∧ (u.block (u.tcb c)).thr = h ∧ Unlisted u h
  | .keyCreate | .setSpecific | .freeBucket | .readSuspend | .readPrms =>
    (u.block (u.tcb c)).prms = some c
  | .setPrms p => p = some c
  | .clearPrms => u.promise c = some 0
  | _ => False

/-- The call `c` can go on to return zero, where `h` is the handle of its thread. -/
def Succeeds (u : State F A) (c h : ℕ) : CreatePc → Prop
  | .alloc => (∃ x, mempoolAlloc u.buckets = some x) ∧ Room u h ∧ Fresh
  | .write _ => Room u h ∧ Fresh
  | .create b => (u.block b).prms = some c ∧ Room u h ∧ Fresh
  | .wait => u.handle c = h ∧ ThreadSucceeds u c h (u.threads c)
  | .ret r => r = 0
  | _ => False
where
  /-- No live thread has the handle. -/
  Fresh : Prop := ∀ t < u.count, (u.threads t).live = true → u.handle t ≠ h

/-- The steps that are left, of the thread and of the call. -/
def EntryPc.left : EntryPc F A → ℕ
  | .setThr => 11
  | .allocSuspend => 10
  | .initSem => 9
  | .insert => 8
  | .keyCreate => 7
  | .setSpecific => 6
  | .freeBucket => 5
  | .readSuspend => 4
  | .readPrms => 3
  | .setPrms _ => 2
  | _ => 1

def State.left (u : State F A) (c : ℕ) : ℕ :=
  match u.creators c with
  | .alloc => 14
  | .write _ => 13
  | .create _ => 12
  | .wait => (u.threads c).left
  | _ => 0

lemma exists_new_key (l : List ℕ) : ∃ k, k ∉ l := by
  obtain ⟨k, hk⟩ := Infinite.exists_notMem_finset l.toFinset
  exact ⟨k, by simpa using hk⟩

lemma listInsert_some {h : ℕ} {m : Option ℕ} (hu : Unlisted u h) :
    ∃ l, listInsert u.tcbs ⟨h, m, c⟩ = some l := by
  refine ⟨_, if_neg ?_⟩
  rintro (⟨e, he, hk⟩ | hfull)
  · exact hu.2 e he hk
  · exact absurd hu.1 (Nat.not_lt.mpr hfull)

lemma thread_succeeds {h : ℕ} (hh : u.handle c = h) (hat : ThreadSucceeds u c h (u.threads c))
    (hpc : u.threads c ≠ .clearPrms) :
    ∃ key v, internalEntry u c key true = some v ∧ v.creators = u.creators ∧
      v.handle = u.handle ∧ ThreadSucceeds v c h (v.threads c) ∧
      (v.threads c).left < (u.threads c).left := by
  have hgo : ∀ {x : State F A} {pc : EntryPc F A}, x.creators = u.creators →
      x.handle = u.handle → ThreadSucceeds (x.go c pc) c h pc → pc.left < (u.threads c).left →
      (x.go c pc).creators = u.creators ∧ (x.go c pc).handle = u.handle ∧
        ThreadSucceeds (x.go c pc) c h ((x.go c pc).threads c) ∧
        ((x.go c pc).threads c).left < (u.threads c).left := by
    intro x pc h1 h2 h3 h4
    exact ⟨h1, h2, by rwa [go_threads], by rwa [go_threads]⟩
  unfold internalEntry
  cases hth : u.threads c <;> rw [hth] at hat hgo <;> simp only
  case setThr =>
    obtain ⟨hprms, hroom⟩ := hat
    refine ⟨0, _, rfl, hgo rfl rfl ⟨?_, ?_, hroom⟩ (by simp [EntryPc.left])⟩
    · simpa [State.go, State.setTcb] using hprms
    · simpa [State.go, State.setTcb] using hh
  case allocSuspend =>
    obtain ⟨hprms, hthr, ⟨⟨m, l⟩, hm⟩, hun⟩ := hat
    simp only [hm]
    refine ⟨0, _, rfl, hgo rfl rfl ⟨?_, ?_, hun⟩ (by simp [EntryPc.left])⟩
    · simpa [State.go, State.setTcb] using hprms
    · simpa [State.go, State.setTcb] using hthr
  case initSem => exact ⟨0, _, if_pos trivial, hgo rfl rfl hat (by simp [EntryPc.left])⟩
  case insert =>
    obtain ⟨hprms, hthr, hun⟩ := hat
    obtain ⟨l, hl⟩ := listInsert_some (c := c) (m := (u.block (u.tcb c)).suspend) hun
    simp only [hthr, hl]
    exact ⟨0, _, rfl, hgo rfl rfl hprms (by simp [EntryPc.left])⟩
  case keyCreate =>
    obtain ⟨k, hk⟩ := exists_new_key u.keys
    exact ⟨k, _, if_neg hk, hgo rfl rfl hat (by simp [EntryPc.left])⟩
  case setSpecific =>
    by_cases hk : u.tcbKey ∈ u.keys
    · exact ⟨0, _, if_pos hk, hgo rfl rfl hat (by simp [EntryPc.left])⟩
    · exact ⟨0, _, if_neg hk, hgo rfl rfl hat (by simp [EntryPc.left])⟩
  case freeBucket | readSuspend | readPrms =>
    exact ⟨0, _, rfl, hgo rfl rfl hat (by simp [EntryPc.left])⟩
  case setPrms p =>
    obtain rfl : p = some c := hat
    refine ⟨0, _, rfl, hgo rfl rfl ?_ (by simp [EntryPc.left])⟩
    simp [ThreadSucceeds, State.go, promiseSetValue]
  case clearPrms => exact absurd hth hpc
  all_goals exact hat.elim

lemma Succeeds.set {h : ℕ} {pc : CreatePc} {creators : ℕ → CreatePc}
    (hu : u.creators = Function.update creators c pc) (hat : Succeeds u c h pc) :
    Succeeds u c h (u.creators c) := by
  rwa [hu, Function.update_self]

lemma call_succeeds {h : ℕ} (hat : Succeeds u c h (u.creators c)) (hne : u.creators c ≠ .ret 0) :
    ∃ act v, act.of c = true ∧ next u act = some v ∧ Succeeds v c h (v.creators c) ∧
      v.left c < u.left c := by
  have hof : (Act.create c : Act F A).of c = true := by simp [Act.of]
  cases hcr : u.creators c <;> rw [hcr] at hat
  case alloc =>
    obtain ⟨⟨⟨b, l⟩, hb⟩, hroom, hfresh⟩ := hat
    refine ⟨.create c, ?_⟩
    simp only [next, thrdCreate, hcr, hb]
    exact ⟨_, hof, rfl, Succeeds.set rfl ⟨hroom, hfresh⟩, by simp [State.left, hcr]⟩
  case write b =>
    obtain ⟨hroom, hfresh⟩ := hat
    refine ⟨.create c, ?_⟩
    simp only [next, thrdCreate, hcr]
    exact ⟨_, hof, rfl, Succeeds.set rfl ⟨by simp [State.setTcb], hroom, hfresh⟩,
      by simp [State.left, hcr]⟩
  case create b =>
    obtain ⟨hprms, hroom, hfresh⟩ := hat
    refine ⟨.start c h, ?_⟩
    simp only [next, hcr]
    refine ⟨_, by simp [Act.of], if_pos hfresh, Succeeds.set rfl ⟨by simp, ?_⟩, ?_⟩
    · simpa [ThreadSucceeds] using ⟨hprms, hroom⟩
    · simp [State.left, hcr, EntryPc.left]
  case wait =>
    obtain ⟨hh, hth⟩ := hat
    by_cases hpc : u.threads c = .clearPrms
    · rw [hpc] at hth
      have hzero : u.promise c = some 0 := hth
      refine ⟨.create c, ?_⟩
      simp only [next, thrdCreate, hcr, hzero, Option.map_some]
      exact ⟨_, hof, rfl, Succeeds.set rfl (if_neg (by omega)),
        by simp [State.left, hcr, hpc, EntryPc.left]⟩
    · obtain ⟨key, v, hs, hcreators, hhandle, hth', hleft⟩ := thread_succeeds hh hth hpc
      refine ⟨.step c key true, v, by simp [Act.of], hs, ?_, ?_⟩
      · rw [hcreators, hcr]
        exact ⟨by rw [hhandle, hh], hth'⟩
      · simpa [State.left, hcreators, hcr] using hleft
  case ret r =>
    obtain rfl : r = 0 := hat
    exact absurd hcr hne
  case idle | lost => exact hat.elim

lemma exists_return {h : ℕ} (hat : Succeeds u c h (u.creators c)) :
    ∃ v, Reach next (fun _ act => act.of c = true) u v ∧ v.creators c = .ret 0 := by
  induction hk : u.left c using Nat.strong_induction_on generalizing u with
  | h k ih =>
    by_cases hret : u.creators c = .ret 0
    · exact ⟨u, .refl, hret⟩
    · obtain ⟨act, v, hof, hs, hat', hleft⟩ := call_succeeds hat hret
      obtain ⟨w, hrun, hw⟩ := ih _ (hk ▸ hleft) hat' rfl
      have hone : Reach next (fun _ act => act.of c = true) u v := .step .refl hof hs
      exact ⟨w, hone.trans hrun, hw⟩

/-! ### Runs in which only allocations fail -/

/-- Whether a thread that failed may be at this place. -/
def EntryPc.past : EntryPc F A → Bool
  | .failFree | .failRead | .failSet _ | .destructors | .listDelete | .freeSuspend _ | .keyDelete
  | .finished => true
  | _ => false

/-- No block is lost, and the threads that failed have no semaphore. -/
structure Spared (s : State F A) : Prop where
  lost : ∀ c b, s.creators c ≠ .lost b
  failed : ∀ t ∈ s.failed, s.sem t = none ∧ (s.threads t).past = true

lemma Spared.go (h : Spared s) {x : State F A} {pc : EntryPc F A}
    (hcreators : x.creators = s.creators) (hthreads : x.threads = s.threads)
    (hfailed : x.failed = s.failed)
    (hsem : ∀ u ∈ s.failed, x.sem u = s.sem u ∨ x.sem u = none)
    (hpc : (s.threads t).past = true → pc.past = true) : Spared (x.go t pc) where
  lost c b := by
    rw [show (x.go t pc).creators = s.creators from hcreators]
    exact h.lost c b
  failed u hu := by
    rw [show (x.go t pc).failed = s.failed from hfailed] at hu
    obtain ⟨hnone, hpast⟩ := h.failed u hu
    refine ⟨?_, ?_⟩
    · rcases hsem u hu with he | he
      · exact he.trans hnone
      · exact he
    · by_cases hut : u = t
      · subst hut
        rw [go_threads]
        exact hpc hpast
      · rwa [go_threads_ne hut, hthreads]

lemma internalEntry_spared (h : Spared s) (hI : Inv s) (hok : AllocOnly s (.step t key ok))
    (hs : internalEntry s t key ok = some s') : Spared s' := by
  have hsame : ∀ {x : State F A}, x.sem = s.sem →
      ∀ u ∈ s.failed, x.sem u = s.sem u ∨ x.sem u = none := fun hx u _ => .inl (by rw [hx])
  cases hpc : s.threads t with
  | unborn | running | finished => simp [internalEntry, hpc] at hs
  | setThr | freeBucket | readSuspend | readPrms | clearPrms | readFunc | readArg | call | failFree
  | failRead | keyDelete =>
    obtain rfl := by simpa [internalEntry, hpc] using hs
    exact h.go rfl rfl rfl (hsame rfl) (by simp [hpc, EntryPc.past])
  | allocSuspend =>
    have hown := hI.threads t
    simp only [ThreadOk, hpc] at hown
    simp only [internalEntry, hpc] at hs
    split at hs
    · obtain rfl := Option.some.inj hs
      refine h.go rfl rfl rfl (fun u hu => ?_) (by simp [hpc, EntryPc.past])
      have hne : u ≠ t := by
        rintro rfl
        have := (h.failed u hu).2
        simp [hpc, EntryPc.past] at this
      exact .inl (Function.update_of_ne hne _ _)
    · -- the thread that fails here has no semaphore
      obtain rfl := Option.some.inj hs
      refine ⟨h.lost, fun u hu => ?_⟩
      by_cases hut : u = t
      · subst hut
        exact ⟨hown.1.1, by rw [go_threads]; rfl⟩
      · rw [go_threads_ne hut]
        exact h.failed u ((List.mem_cons.mp hu).resolve_left hut)
  | initSem =>
    have hok : ok = true := by simpa [AllocOnly, hpc] using hok
    obtain rfl := by simpa [internalEntry, hpc, hok] using hs
    exact h.go rfl rfl rfl (hsame rfl) (by simp [hpc, EntryPc.past])
  | insert =>
    simp only [AllocOnly, hpc] at hok
    obtain ⟨l, hl⟩ := Option.isSome_iff_exists.mp hok
    simp only [internalEntry, hpc, hl] at hs
    obtain rfl := Option.some.inj hs
    exact h.go rfl rfl rfl (hsame rfl) (by simp [hpc, EntryPc.past])
  | keyCreate | setSpecific | destructors =>
    simp only [internalEntry, hpc] at hs
    split at hs <;> first
      | (obtain rfl := Option.some.inj hs
         exact h.go rfl rfl rfl (hsame rfl) (by simp [hpc, EntryPc.past]))
      | simp at hs
  | setPrms p | failSet p =>
    obtain rfl := by simpa [internalEntry, hpc] using hs
    cases p <;> exact h.go rfl rfl rfl (hsame rfl) (by simp [hpc, EntryPc.past])
  | listDelete =>
    simp only [internalEntry, hpc] at hs
    obtain ⟨e, -, rfl⟩ := Option.map_eq_some_iff.mp hs
    exact h.go rfl rfl rfl (hsame rfl) (by simp [EntryPc.past])
  | freeSuspend m =>
    simp only [internalEntry, hpc] at hs
    obtain ⟨a, -, rfl⟩ := Option.map_eq_some_iff.mp hs
    refine h.go rfl rfl rfl (fun u _ => ?_) (by simp [EntryPc.past])
    by_cases hut : u = t
    · exact .inr (by simp [hut])
    · exact .inl (by simp [hut])

lemma spared_step (h : Spared s) (hI : Inv s) (hok : AllocOnly s act) (hs : next s act = some s') :
    Spared s' := by
  have hset : ∀ {x : State F A} {pc : CreatePc} (c : ℕ),
      x.creators = Function.update s.creators c pc → (∀ b, pc ≠ .lost b) →
      x.failed = s.failed → x.sem = s.sem →
      (∀ u, u ≠ c → x.threads u = s.threads u) → (c ∈ s.failed → x.threads c = s.threads c) →
      Spared x := by
    intro x pc c h1 h2 h3 h4 h5 h6
    refine ⟨fun d b => ?_, fun u hu => ?_⟩
    · rw [h1]
      by_cases hd : d = c
      · rw [hd, Function.update_self]
        exact h2 b
      · rw [Function.update_of_ne hd]
        exact h.lost d b
    · rw [h3] at hu
      have hth : x.threads u = s.threads u := by
        by_cases huc : u = c
        · subst huc
          exact h6 hu
        · exact h5 u huc
      rw [h4, hth]
      exact h.failed u hu
  cases act with
  | call f a =>
    cases f with
    | none =>
      obtain rfl := Option.some.inj hs
      exact h
    | some f =>
      obtain rfl := Option.some.inj hs
      exact hset s.count rfl (by simp) rfl rfl (fun _ _ => rfl) fun _ => rfl
  | create c =>
    simp only [next, thrdCreate] at hs
    split at hs
    · split at hs <;> obtain rfl := Option.some.inj hs <;>
        exact hset c rfl (by simp) rfl rfl (fun _ _ => rfl) fun _ => rfl
    · obtain rfl := Option.some.inj hs
      exact hset c rfl (by simp) rfl rfl (fun _ _ => rfl) fun _ => rfl
    · obtain ⟨w, -, rfl⟩ := Option.map_eq_some_iff.mp hs
      exact hset c rfl (by simp) rfl rfl (fun _ _ => rfl) fun _ => rfl
    · simp at hs
  | start c k =>
    simp only [next] at hs
    split at hs
    · rename_i b hpc
      split at hs
      · obtain rfl := Option.some.inj hs
        refine hset c rfl (by simp) rfl rfl (fun u hu => Function.update_of_ne hu _ _) fun hc => ?_
        have hun := hI.unborn (c := c) (by simp [hpc]) (by simp [hpc])
        have hpast := (h.failed c hc).2
        simp [hun, EntryPc.past] at hpast
      · simp at hs
    · simp at hs
  | startFail c => exact hok.elim
  | step t key ok => exact internalEntry_spared h hI hok hs
  | exit t =>
    simp only [next] at hs
    split at hs
    · obtain rfl := Option.some.inj hs
      exact h.go rfl rfl rfl (fun _ _ => .inl rfl) fun _ => rfl
    · simp at hs

/-- No thread is being set up or cleaned up, and no call holds a start block. -/
def AtRest (s : State F A) : Prop := Settled s ∧ ∀ c, (s.creators c).held = none

lemma mempoolAlloc_of_two {l : List ℕ} (h : 2 ≤ l.length) : ∃ x, mempoolAlloc l = some x := by
  match l with
  | [] | [_] => simp at h
  | b :: b' :: r => exact ⟨(b, b' :: r), rfl⟩

/-- At rest all start blocks are free. -/
lemma AtRest.buckets (h : AtRest s) (hI : Inv s) : maxBuckets + 1 ≤ s.buckets.length := by
  have hbucket : ∀ c, s.bucket c = none := fun c => by
    unfold State.bucket
    rw [h.2 c]
    rcases h.1 c with hpc | hpc | hpc <;> simp [hpc, EntryPc.hasBucket]
  have hsub : List.range (maxBuckets + 1) ⊆ s.buckets := fun b hb => by
    obtain ⟨p, hp⟩ := hI.buckets.one b (List.mem_range.mp hb)
    cases p with
    | free => exact hp
    | call c => exact absurd (show s.bucket c = some b from hp) (by simp [hbucket c])
  have hle := (List.nodup_range.subperm hsub).length_le
  rwa [List.length_range] at hle

lemma AtRest.succeeds {h : ℕ} (hrest : AtRest s) (hI : Inv s) (hsp : Spared s)
    (hroom : s.tcbs.length < maxThreads) (hkey : ∀ e ∈ s.tcbs, e.key ≠ h)
    (hlive : ∀ t < s.count, (s.threads t).live = true → s.handle t ≠ h)
    (hs : next s (.call (some f) a) = some s₁) :
    Succeeds s₁ s.count h (s₁.creators s.count) := by
  have hbuckets := hrest.buckets hI
  have hsus := hI.count_suspends hrest.1 fun t ht => (hsp.failed t ht).1
  have hidle := hI.calls.future s.count le_rfl
  have hunborn := hI.unborn (c := s.count) (by simp [hidle]) (by simp [hidle])
  obtain rfl := Option.some.inj hs
  refine Succeeds.set rfl
    ⟨mempoolAlloc_of_two ?_, ⟨mempoolAlloc_of_two ?_, hroom, hkey⟩, fun t ht hlt => ?_⟩
  · unfold maxBuckets at hbuckets
    show 2 ≤ s.buckets.length
    omega
  · show 2 ≤ s.suspends.length
    omega
  · have hne : t ≠ s.count := by
      rintro rfl
      simp [hunborn, EntryPc.live] at hlt
    have ht : t < s.count + 1 := ht
    exact hlive t (by omega) hlt

/-- **Failed starts**: a call of `thrd_create` that fails alone leaves the pools and the registry
as they were exactly if there was no start block, or there was no semaphore for a thread that
`pthread_create` did start. After any run in which nothing but such allocations failed, a thread
can be created again once the others have settled. -/
theorem thrd_create_unleaked_iff {ok : State F A → Act F A → Prop}
    (h : Reach next ok (initial f a) s) (hs : next s (.call (some f') a') = some s₁) :
    (∀ u, Reach next (fun _ act => act.of s.count = true) s₁ u →
      (u.creators s.count).failed = true →
      (Unleaked s u ↔ mempoolAlloc s.buckets = none ∨
        mempoolAlloc s.suspends = none ∧ ∀ b, u.creators s.count ≠ .lost b)) ∧
    (Reach next AllocOnly (initial f a) s → AtRest s → s.tcbs.length < maxThreads →
      ∀ h, (∀ e ∈ s.tcbs, e.key ≠ h) →
        (∀ t < s.count, (s.threads t).live = true → s.handle t ≠ h) →
        ∃ u, Reach next (fun _ act => act.of s.count = true) s₁ u ∧
          u.creators s.count = .ret 0) := by
  obtain ⟨hI, hun⟩ := unanswered_of_reach h
  refine ⟨fun u hu hfail => unleaked_iff (callAt_of_reach hI hun hs hu) hfail,
    fun hrun hrest hroom k hkey hlive => ?_⟩
  have hsp : Inv s ∧ Spared s := by
    apply hrun.inv (I := fun s => Inv s ∧ Spared s)
    · exact ⟨initial_inv f a, by simp [initial], by simp [initial]⟩
    · rintro u l v ⟨hIu, hu⟩ hl hv
      exact ⟨inv_step hIu hv, spared_step hu hIu hl hv⟩
  exact exists_return (hrest.succeeds hI hsp.2 hroom hkey hlive hs)

lemma atRest_of_count (hI : Inv s)
    (h : ∀ t < s.count, (s.threads t = .unborn ∨ s.threads t = .running ∨
      s.threads t = .finished) ∧ (s.creators t).held = none) : AtRest s := by
  refine ⟨fun t => ?_, fun c => ?_⟩
  · rcases Nat.lt_or_ge t s.count with ht | ht
    · exact (h t ht).1
    · have hidle := hI.calls.future t ht
      exact .inl (hI.unborn (by simp [hidle]) (by simp [hidle]))
  · rcases Nat.lt_or_ge c s.count with hc | hc
    · exact (h c hc).2
    · rw [hI.calls.future c hc]
      rfl

/-- Ten calls hold all the start blocks but the last when another call fails. Once the ten have
started their threads, the next call can succeed. -/
theorem thrd_create_unleaked_iff_ten :
    (∃ s s₁ u : State ℕ ℕ, Reach next (fun _ _ => True) (initial 0 0) s ∧
      next s (.call (some 0) 0) = some s₁ ∧ (u.creators s.count).failed = true ∧ Unleaked s u) ∧
    ∃ s s₁ u : State ℕ ℕ, Reach next AllocOnly (initial 0 0) s ∧ s.creators 10 = .ret (-1) ∧
      next s (.call (some 0) 0) = some s₁ ∧
      Reach next (fun _ act => act.of s.count = true) s₁ u ∧ u.creators s.count = .ret 0 := by
  constructor
  · obtain ⟨s, h, hp⟩ := exists_reach next (fun _ _ => True) (initial 0 0 : State ℕ ℕ)
      (fun s => decide (mempoolAlloc s.buckets = none) &&
        (next s (.call (some 0) 0)).any fun s₁ =>
          (runIf next (fun _ act => act.of s.count = true) s₁ [.create s.count]).any
            fun u => (u.creators s.count).failed)
      ((List.range 10).flatMap fun c => [.call (some 0) 0, .create c]) (by decide +kernel)
    simp only [Bool.and_eq_true, decide_eq_true_eq, Option.any_eq_true] at hp
    obtain ⟨hnone, s₁, hs, u, hu, hfail⟩ := hp
    exact ⟨s, s₁, u, h, hs, hfail,
      ((thrd_create_unleaked_iff h hs).1 u (reach_of_runIf hu) hfail).mpr (.inl hnone)⟩
  · obtain ⟨s, h, hp⟩ := exists_reach next AllocOnly (initial 0 0 : State ℕ ℕ)
      (fun s => decide (s.creators 10 = .ret (-1) ∧ s.tcbs.length < maxThreads ∧
        (∀ t < s.count, (s.threads t = .unborn ∨ s.threads t = .running ∨
          s.threads t = .finished) ∧ (s.creators t).held = none) ∧
        (∀ e ∈ s.tcbs, e.key ≠ 100) ∧
        ∀ t < s.count, (s.threads t).live = true → s.handle t ≠ 100))
      ((List.range 10).flatMap (fun c => [.call (some 0) 0, .create c, .create c]) ++
        [.call (some 0) 0, .create 10] ++
        (List.range 10).flatMap fun c => .start c (c + 1) :: setUp c c) (by decide +kernel)
    obtain ⟨hret, hroom, hset, hkey, hlive⟩ := of_decide_eq_true hp
    have hrest := atRest_of_count (unanswered_of_reach h).1 hset
    obtain ⟨u, hu, hok⟩ := (thrd_create_unleaked_iff h rfl).2 h hrest hroom 100 hkey hlive
    exact ⟨s, _, u, h, hret, rfl, hu, hok⟩

/-- The first call of all fails because `pthread_create` does: its start block is gone. -/
theorem thrd_create_leaks : ¬ ∀ s s₁ u : State ℕ ℕ, Reach next (fun _ _ => True) (initial 0 0) s →
    next s (.call (some 0) 0) = some s₁ →
    Reach next (fun _ act => act.of s.count = true) s₁ u → (u.creators s.count).failed = true →
    Unleaked s u := by
  intro hall
  obtain ⟨s₁, hs, hp⟩ : ∃ s₁, next (initial 0 0 : State ℕ ℕ) (.call (some 0) 0) = some s₁ ∧
      ((runIf next (fun _ act => act.of 0 = true) s₁
        [.create 0, .create 0, .startFail 0]).any fun u =>
          (u.creators 0).failed && decide (u.buckets.length = 10)) = true :=
    ⟨_, rfl, by decide +kernel⟩
  obtain ⟨u, hu, hp⟩ := (Option.any_eq_true _ _).mp hp
  simp only [Bool.and_eq_true, decide_eq_true_eq] at hp
  have hsame := (hall (initial 0 0) s₁ u .refl hs (reach_of_runIf hu) hp.1).buckets
  rw [hp.2] at hsame
  exact absurd hsame (by decide)

end CoopTasks.Threads
