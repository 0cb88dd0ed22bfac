import CoopTasks.Placement
import CoopTasks.Threads
import Mathlib.Data.List.Nodup

/-!
What every step of every thread keeps: who has which bucket and which semaphore, and how the
entries of `tcbs` and the values of the keys go with the places of the threads.
-/

namespace CoopTasks.Threads

open CoopTasks.Placement

variable {F A : Type*} {s s' : State F A} {t c b key : ℕ} {ok : Bool}

/-- The bucket a call holds until its thread exists. -/
def CreatePc.held : CreatePc → Option ℕ
  | .write b | .create b | .lost b => some b
  | _ => none

/-- Whether the thread has not given its bucket back. -/
def EntryPc.hasBucket : EntryPc F A → Bool
  | .setThr | .allocSuspend | .initSem | .insert | .keyCreate | .setSpecific | .freeBucket
  | .failFree => true
  | _ => false

/-- Whether the thread has passed `list_insert` and not begun to exit. -/
def EntryPc.registered : EntryPc F A → Bool
  | .keyCreate | .setSpecific | .freeBucket | .readSuspend | .readPrms | .setPrms _ | .clearPrms
  | .readFunc | .readArg _ | .call _ _ | .running => true
  | _ => false

/-- Whether the thread has passed `pthread_setspecific` and not begun to exit. -/
def EntryPc.keyed : EntryPc F A → Bool
  | .keyCreate | .setSpecific => false
  | pc => pc.registered

/-- The bucket that the call or its thread holds. -/
def State.bucket (s : State F A) (c : ℕ) : Option ℕ :=
  (s.creators c).held.or (bif (s.threads c).hasBucket then some (s.tcb c) else none)

inductive Place
  | free
  | call (c : ℕ)

def BucketAt (s : State F A) (b : ℕ) : Place → Prop
  | .free => b ∈ s.buckets
  | .call c => s.bucket c = some b

def SemAt (s : State F A) (a : ℕ) : Place → Prop
  | .free => a ∈ s.suspends
  | .call t => s.sem t = some a

/-- The thread has an entry in `tcbs`. -/
def Listed (s : State F A) (t : ℕ) : Prop := ∃ e ∈ s.tcbs, e.thread = t

/-- No key has a value of the thread. -/
def NoValue (s : State F A) (t : ℕ) : Prop := ∀ k, s.value t k = false

/-- At most one key has. -/
def OneValue (s : State F A) (t : ℕ) : Prop :=
  ∀ k k', s.value t k = true → s.value t k' = true → k = k'

/-- What a thread's place says about the registry. -/
def ThreadOk (s : State F A) (t : ℕ) : Prop :=
  match s.threads t with
  | .unborn | .setThr => s.sem t = none ∧ ¬ Listed s t ∧ NoValue s t
  | .allocSuspend => (s.sem t = none ∧ ¬ Listed s t ∧ NoValue s t) ∧
    (s.block (s.tcb t)).thr = s.handle t
  | .initSem | .insert => ((∃ a, s.sem t = some a) ∧ ¬ Listed s t ∧ NoValue s t) ∧
    (s.block (s.tcb t)).thr = s.handle t ∧ (s.block (s.tcb t)).suspend = s.sem t
  | .keyCreate | .setSpecific | .listDelete => Listed s t ∧ NoValue s t
  | .freeBucket | .readSuspend | .readPrms | .setPrms _ | .clearPrms | .readFunc | .readArg _
  | .call _ _ | .running => Listed s t ∧ OneValue s t
  | .failFree | .failRead | .failSet _ => t ∈ s.failed ∧ ¬ Listed s t ∧ NoValue s t
  | .destructors => OneValue s t ∧ ((∃ k, s.value t k = true) → Listed s t) ∧
    (t ∉ s.failed → Listed s t ∨ s.sem t = none)
  | .freeSuspend m => m = s.sem t ∧ (∃ a, s.sem t = some a) ∧ ¬ Listed s t ∧ NoValue s t
  | .keyDelete => s.sem t = none ∧ ¬ Listed s t ∧ NoValue s t
  | .finished => t ∉ s.failed → Listed s t ∨ s.sem t = none

/-- The entries of `tcbs` are their threads' own. -/
structure EntriesOk (s : State F A) : Prop where
  keys : (s.tcbs.map Entry.key).Nodup
  key : ∀ e ∈ s.tcbs, e.key = s.handle e.thread
  suspend : ∀ e ∈ s.tcbs, e.suspend = s.sem e.thread ∧ ∃ a, e.suspend = some a

/-- A thread exists only once its call has passed `pthread_create`. -/
structure CallsOk (s : State F A) : Prop where
  future : ∀ c, s.count ≤ c → s.creators c = .idle
  born : ∀ c, s.threads c ≠ .unborn → s.creators c = .wait ∨ ∃ r, s.creators c = .ret r

/-- What every step keeps. -/
structure Inv (s : State F A) : Prop where
  buckets : Placed (· < maxBuckets + 1) (BucketAt s)
  suspends : Placed (· < maxThreads + 1) (SemAt s)
  freeBuckets : s.buckets.Nodup
  freeSuspends : s.suspends.Nodup
  calls : CallsOk s
  entries : EntriesOk s
  threads : ∀ t, ThreadOk s t

/-- What a step of the thread `t` leaves to the thread `u`. -/
structure Kept (s s' : State F A) (u : ℕ) : Prop where
  thread : s'.threads u = s.threads u
  creator : s'.creators u = s.creators u
  tcb : s'.tcb u = s.tcb u
  handle : s'.handle u = s.handle u
  sem : s'.sem u = s.sem u
  listed : Listed s' u ↔ Listed s u
  value : ∀ k, s'.value u k = true → s.value u k = true
  block : (s.threads u).hasBucket = true →
    (s'.block (s.tcb u)).thr = (s.block (s.tcb u)).thr ∧
      (s'.block (s.tcb u)).suspend = (s.block (s.tcb u)).suspend
  failed : u ∈ s'.failed ↔ u ∈ s.failed

lemma ThreadOk.kept (hok : ThreadOk s t) (h : Kept s s' t) : ThreadOk s' t := by
  have hno : NoValue s t → NoValue s' t := fun hn k => by
    have := h.value k
    have := hn k
    cases hv : s'.value t k <;> simp_all
  have hone : OneValue s t → OneValue s' t := fun hn k k' hk hk' =>
    hn k k' (h.value k hk) (h.value k' hk')
  have hsome : (∃ k, s'.value t k = true) → ∃ k, s.value t k = true := fun ⟨k, hk⟩ =>
    ⟨k, h.value k hk⟩
  have hblock := h.block
  unfold ThreadOk at hok ⊢
  rw [h.thread, h.listed, h.sem, h.failed, h.tcb, h.handle]
  cases hpc : s.threads t <;>
    simp only [hpc, EntryPc.hasBucket] at hok hblock ⊢ <;> grind

@[simp] lemma go_threads {pc : EntryPc F A} : (s.go t pc).threads t = pc := by simp [State.go]

lemma go_threads_ne {u : ℕ} {pc : EntryPc F A} (h : u ≠ t) :
    (s.go t pc).threads u = s.threads u := by simp [State.go, h]

/-! ### Steps -/

lemma Inv.bucket_of (h : Inv s) (ht : (s.threads t).hasBucket = true) :
    s.bucket t = some (s.tcb t) := by
  have hborn := h.calls.born t (by rintro he; simp [he, EntryPc.hasBucket] at ht)
  rcases hborn with he | ⟨r, he⟩ <;> simp [State.bucket, he, CreatePc.held, ht]

lemma Inv.tcb_ne (h : Inv s) {u : ℕ} (hu : u ≠ t) (ht : (s.threads t).hasBucket = true)
    (hub : (s.threads u).hasBucket = true) : s.tcb u ≠ s.tcb t := by
  intro he
  have := h.buckets.uniq (s.tcb t) (.call u) (.call t) (he ▸ h.bucket_of hub) (h.bucket_of ht)
  exact hu (by simpa using this)

variable {pc : EntryPc F A}

lemma bucket_go (hpc : pc.hasBucket = (s.threads t).hasBucket)
    (hthreads : s'.threads = Function.update s.threads t pc) (hcr : s'.creators = s.creators)
    (htcb : s'.tcb = s.tcb) (c : ℕ) : s'.bucket c = s.bucket c := by
  unfold State.bucket
  by_cases hc : c = t
  · subst hc; simp [hthreads, hcr, htcb, hpc]
  · simp [hthreads, hcr, htcb, hc]

lemma Inv.move (h : Inv s) (hborn : s.threads t ≠ .unborn)
    (hpc : pc.hasBucket = (s.threads t).hasBucket)
    (hthreads : s'.threads = Function.update s.threads t pc)
    (hsame : s'.buckets = s.buckets ∧ s'.suspends = s.suspends ∧ s'.sem = s.sem ∧
      s'.tcbs = s.tcbs ∧ s'.handle = s.handle ∧ s'.tcb = s.tcb ∧ s'.creators = s.creators ∧
      s'.count = s.count)
    (hvalue : ∀ u, u ≠ t → ∀ k, s'.value u k = true → s.value u k = true)
    (hblock : ∀ b, (s.threads t).hasBucket = true → b = s.tcb t ∨ s'.block b = s.block b)
    (hblock' : (s.threads t).hasBucket = false → ∀ b, (s'.block b).thr = (s.block b).thr ∧
      (s'.block b).suspend = (s.block b).suspend)
    (hfailed : ∀ u, u ≠ t → (u ∈ s'.failed ↔ u ∈ s.failed)) (hown : ThreadOk s' t) : Inv s' := by
  obtain ⟨h1, h2, h3, h4, h5, h6, h7, h8⟩ := hsame
  have hlisted : ∀ u, Listed s' u ↔ Listed s u := fun u => by rw [Listed, h4]; rfl
  refine ⟨?_, ?_, h1 ▸ h.freeBuckets, h2 ▸ h.freeSuspends, ⟨?_, fun c hc => ?_⟩, ?_, fun u => ?_⟩
  · refine h.buckets.congr (fun _ => Iff.rfl) fun b p => ?_
    cases p with
    | free => simp [BucketAt, h1]
    | call c => simp [BucketAt, bucket_go hpc hthreads h7 h6 c]
  · refine h.suspends.congr (fun _ => Iff.rfl) fun a p => ?_
    cases p with
    | free => simp [SemAt, h2]
    | call c => simp [SemAt, h3]
  · rw [h7, h8]
    exact h.calls.future
  · rw [h7]
    refine h.calls.born c ?_
    by_cases hct : c = t
    · exact hct ▸ hborn
    · rwa [hthreads, Function.update_of_ne hct] at hc
  · exact ⟨h4 ▸ h.entries.keys, by rw [h4, h5]; exact h.entries.key,
      by rw [h4, h3]; exact h.entries.suspend⟩
  · by_cases hu : u = t
    · exact hu ▸ hown
    · refine (h.threads u).kept ⟨by rw [hthreads, Function.update_of_ne hu], by rw [h7],
        by rw [h6], by rw [h5], by rw [h3], hlisted u, hvalue u hu, fun hub => ?_, hfailed u hu⟩
      by_cases ht : (s.threads t).hasBucket = true
      · rcases hblock (s.tcb u) ht with he | he
        · exact absurd he (h.tcb_ne hu ht hub)
        · simp [he]
      · exact hblock' (by simpa using ht) (s.tcb u)

lemma mempoolAlloc_some {l l' : List ℕ} {a : ℕ} (h : mempoolAlloc l = some (a, l')) :
    l = a :: l' := by
  unfold mempoolAlloc at h
  split at h
  · obtain ⟨rfl, rfl⟩ := by simpa using h
    rfl
  · simp at h

lemma Inv.sem_unique (h : Inv s) {u a : ℕ} (ht : s.sem t = some a) (hu : s.sem u = some a) :
    u = t := by
  simpa using h.suspends.uniq a (.call u) (.call t) hu ht

lemma bucket_same (hpc : (s'.threads t).hasBucket = (s.threads t).hasBucket)
    (hthreads : ∀ u, u ≠ t → s'.threads u = s.threads u) (hcr : s'.creators = s.creators)
    (htcb : s'.tcb = s.tcb) (c : ℕ) : s'.bucket c = s.bucket c := by
  unfold State.bucket
  by_cases hc : c = t
  · subst hc; simp [hcr, htcb, hpc]
  · simp [hthreads c hc, hcr, htcb]

lemma Inv.buckets_same (h : Inv s) (hfree : s'.buckets = s.buckets)
    (hb : ∀ c, s'.bucket c = s.bucket c) :
    Placed (· < maxBuckets + 1) (BucketAt s') :=
  h.buckets.congr (fun _ => Iff.rfl) fun b p => by
    cases p with
    | free => simp [BucketAt, hfree]
    | call c => simp [BucketAt, hb c]

lemma Inv.suspends_same (h : Inv s) (hfree : s'.suspends = s.suspends) (hsem : s'.sem = s.sem) :
    Placed (· < maxThreads + 1) (SemAt s') :=
  h.suspends.congr (fun _ => Iff.rfl) fun a p => by
    cases p with
    | free => simp [SemAt, hfree]
    | call c => simp [SemAt, hsem]

lemma Inv.allocSuspend (h : Inv s) (hpc : s.threads t = .allocSuspend) {a : ℕ} {l : List ℕ}
    (hl : mempoolAlloc s.suspends = some (a, l)) :
    Inv ({ s.setTcb (s.tcb t) { s.block (s.tcb t) with suspend := some a } with
      suspends := l, sem := Function.update s.sem t (some a) }.go t .initSem) := by
  have hcons := mempoolAlloc_some hl
  have hnd := h.freeSuspends
  rw [hcons, List.nodup_cons] at hnd
  have hown := h.threads t
  simp only [ThreadOk, hpc] at hown
  obtain ⟨⟨hsem, hnl, hnv⟩, hthr⟩ := hown
  have hfree : SemAt s a .free := by simp [SemAt, hcons]
  refine ⟨h.buckets_same rfl (bucket_same (t := t) (by simp [hpc, EntryPc.hasBucket])
    (fun u hu => go_threads_ne hu) rfl rfl), ?_, h.freeBuckets, hnd.2, ⟨h.calls.future,
    fun c hc => ?_⟩, ?_, fun u => ?_⟩
  · refine h.suspends.change (i := a) (q := .call t) (fun _ _ => Iff.rfl) (fun k hk p => ?_)
      (h.suspends.mem a .free hfree) fun p => ?_
    · cases p with
      | free => simp [SemAt, State.go, hcons, hk]
      | call c =>
        by_cases hc : c = t
        · subst hc; simp [SemAt, State.go, hsem, Ne.symm hk]
        · simp [SemAt, State.go, State.setTcb, hc]
    · cases p with
      | free => simpa [SemAt, State.go] using hnd.1
      | call c =>
        by_cases hc : c = t
        · subst hc; simp [SemAt, State.go]
        · have := h.suspends.ne hfree (.call c) (by simp)
          simpa [SemAt, State.go, State.setTcb, hc] using this
  · refine h.calls.born c ?_
    by_cases hct : c = t
    · simp [hct, hpc]
    · rwa [go_threads_ne hct] at hc
  · refine ⟨h.entries.keys, h.entries.key, fun e he => ?_⟩
    have hne : e.thread ≠ t := by rintro rfl; exact hnl ⟨e, he, rfl⟩
    simpa [State.go, State.setTcb, hne] using h.entries.suspend e he
  · by_cases hu : u = t
    · subst hu
      simp only [ThreadOk, go_threads]
      exact ⟨⟨⟨a, by simp [State.go]⟩, hnl, hnv⟩, by simpa [State.go, State.setTcb] using hthr,
        by simp [State.go, State.setTcb]⟩
    · refine (h.threads u).kept ⟨go_threads_ne hu, rfl, rfl, rfl,
        by simp [State.go, State.setTcb, hu], Iff.rfl, fun _ hk => hk, fun hub => ?_, Iff.rfl⟩
      have := h.tcb_ne hu (by simp [hpc, EntryPc.hasBucket]) hub
      simp [State.go, State.setTcb, this]

lemma Inv.insert (h : Inv s) (hpc : s.threads t = .insert) {l : List Entry}
    (hl : listInsert s.tcbs ⟨(s.block (s.tcb t)).thr, (s.block (s.tcb t)).suspend, t⟩ = some l) :
    Inv ({ s with tcbs := l }.go t .keyCreate) := by
  have hown := h.threads t
  simp only [ThreadOk, hpc] at hown
  obtain ⟨⟨⟨a, hsem⟩, hnl, hnv⟩, hthr, hsus⟩ := hown
  unfold listInsert at hl
  split at hl
  · simp at hl
  rename_i hnew
  rw [not_or, not_exists] at hnew
  obtain rfl := Option.some.inj hl
  rw [hthr, hsus] at hnew ⊢
  refine ⟨h.buckets_same rfl (bucket_same (t := t) (by simp [hpc, EntryPc.hasBucket])
    (fun u hu => go_threads_ne hu) rfl rfl), h.suspends_same rfl rfl, h.freeBuckets,
    h.freeSuspends, ⟨h.calls.future, fun c hc => ?_⟩, ⟨?_, fun e he => ?_, fun e he => ?_⟩,
    fun u => ?_⟩
  · refine h.calls.born c ?_
    by_cases hct : c = t
    · simp [hct, hpc]
    · rwa [go_threads_ne hct] at hc
  · show (List.map Entry.key (s.tcbs ++ [_])).Nodup
    rw [List.map_append]
    refine List.nodup_append.mpr ⟨h.entries.keys, by simp, fun x hx y hy => ?_⟩
    obtain rfl : y = s.handle t := by simpa using hy
    rintro rfl
    obtain ⟨e, he, hk⟩ := List.mem_map.mp hx
    exact hnew.1 e ⟨he, hk⟩
  · rcases List.mem_append.mp he with he | he
    · exact h.entries.key e he
    · obtain rfl := List.mem_singleton.mp he
      rfl
  · rcases List.mem_append.mp he with he | he
    · exact h.entries.suspend e he
    · obtain rfl := List.mem_singleton.mp he
      exact ⟨rfl, a, hsem⟩
  · by_cases hu : u = t
    · subst hu
      simp only [ThreadOk, go_threads]
      exact ⟨⟨_, List.mem_append_right _ (List.mem_singleton_self _), rfl⟩, hnv⟩
    · refine (h.threads u).kept ⟨go_threads_ne hu, rfl, rfl, rfl, rfl, ?_, fun _ hk => hk,
        fun _ => ⟨rfl, rfl⟩, Iff.rfl⟩
      simp [Listed, State.go, or_and_right, exists_or, Ne.symm hu]

lemma Inv.freeBucket (h : Inv s) (ht : (s.threads t).hasBucket = true)
    (hpc : pc.hasBucket = false)
    (hown : ThreadOk ({ s with buckets := mempoolFree s.buckets (s.tcb t) }.go t pc) t) :
    Inv ({ s with buckets := mempoolFree s.buckets (s.tcb t) }.go t pc) := by
  have hbt := h.bucket_of ht
  have hborn : s.threads t ≠ .unborn := by rintro he; simp [he, EntryPc.hasBucket] at ht
  have hat : BucketAt s (s.tcb t) (.call t) := hbt
  have hself : State.bucket ({ s with buckets := mempoolFree s.buckets (s.tcb t) }.go t pc) t =
      none := by
    rcases h.calls.born t hborn with he | ⟨r, he⟩ <;>
      simp [State.bucket, State.go, he, CreatePc.held, hpc]
  have hne : ∀ c, c ≠ t → State.bucket ({ s with
      buckets := mempoolFree s.buckets (s.tcb t) }.go t pc) c = s.bucket c := fun c hc => by
    simp [State.bucket, State.go, hc]
  refine ⟨?_, h.suspends_same rfl rfl, ?_, h.freeSuspends, ⟨h.calls.future, fun c hc => ?_⟩,
    ⟨h.entries.keys, h.entries.key, h.entries.suspend⟩, fun u => ?_⟩
  · refine h.buckets.change (i := s.tcb t) (q := .free) (fun _ _ => Iff.rfl) (fun b hb p => ?_)
      (h.buckets.mem _ _ hat) fun p => ?_
    · cases p with
      | free => simp [BucketAt, State.go, mempoolFree, hb]
      | call c =>
        by_cases hc : c = t
        · subst hc; simp [BucketAt, hself, hbt, Ne.symm hb]
        · simp [BucketAt, hne c hc]
    · cases p with
      | free => simp [BucketAt, State.go, mempoolFree]
      | call c =>
        by_cases hc : c = t
        · subst hc; simp [BucketAt, hself]
        · have := h.buckets.ne hat (.call c) (by simp [hc])
          simpa [BucketAt, hne c hc] using this
  · have hnot : s.tcb t ∉ s.buckets := h.buckets.ne hat .free (by simp)
    refine List.nodup_append.mpr ⟨h.freeBuckets, by simp, fun x hx y hy => ?_⟩
    obtain rfl : y = s.tcb t := by simpa using hy
    rintro rfl
    exact hnot hx
  · refine h.calls.born c ?_
    by_cases hct : c = t
    · exact hct ▸ hborn
    · rwa [go_threads_ne hct] at hc
  · by_cases hu : u = t
    · exact hu ▸ hown
    · exact (h.threads u).kept ⟨go_threads_ne hu, rfl, rfl, rfl, rfl, Iff.rfl, fun _ hk => hk,
        fun _ => ⟨rfl, rfl⟩, Iff.rfl⟩

/-- In `tcbs`, a thread's handle leads to its own entry. -/
lemma EntriesOk.find (h : EntriesOk s) (hl : Listed s t) {e : Entry}
    (he : s.tcbs.find? (fun e => e.key = s.handle t) = some e) : e ∈ s.tcbs ∧ e.thread = t := by
  obtain ⟨e', he', rfl⟩ := hl
  have hmem := List.mem_of_find?_eq_some he
  have hkey : e.key = s.handle e'.thread := by simpa using List.find?_some he
  have : e = e' := by
    refine List.inj_on_of_nodup_map h.keys hmem he' ?_
    rw [hkey, h.key e' he']
  exact ⟨hmem, by rw [this]⟩

lemma Inv.listDelete (h : Inv s) (hpc : s.threads t = .listDelete) {e : Entry}
    (he : s.tcbs.find? (fun e => e.key = s.handle t) = some e) :
    Inv ({ s with tcbs := s.tcbs.erase e }.go t (.freeSuspend e.suspend)) := by
  have hown := h.threads t
  simp only [ThreadOk, hpc] at hown
  obtain ⟨hl, hnv⟩ := hown
  obtain ⟨hmem, ht⟩ := h.entries.find hl he
  have hnd : s.tcbs.Nodup := List.Nodup.of_map _ h.entries.keys
  have hsub : ∀ e', e' ∈ s.tcbs.erase e → e' ∈ s.tcbs := fun e' he' => List.mem_of_mem_erase he'
  have hgone : ∀ e' ∈ s.tcbs.erase e, e'.thread ≠ t := by
    intro e' he' ht'
    have hne := (hnd.mem_erase_iff.mp he').1
    refine hne (List.inj_on_of_nodup_map h.entries.keys (hsub e' he') hmem ?_)
    rw [h.entries.key e' (hsub e' he'), h.entries.key e hmem, ht, ht']
  have hsus := h.entries.suspend e hmem
  refine ⟨h.buckets_same rfl (bucket_same (t := t) (by simp [hpc, EntryPc.hasBucket])
    (fun u hu => go_threads_ne hu) rfl rfl), h.suspends_same rfl rfl, h.freeBuckets,
    h.freeSuspends, ⟨h.calls.future, fun c hc => ?_⟩,
    ⟨h.entries.keys.sublist (List.erase_sublist.map _),
     fun e' he' => h.entries.key e' (hsub e' he'),
      fun e' he' => h.entries.suspend e' (hsub e' he')⟩, fun u => ?_⟩
  · refine h.calls.born c ?_
    by_cases hct : c = t
    · simp [hct, hpc]
    · rwa [go_threads_ne hct] at hc
  · by_cases hu : u = t
    · subst hu
      simp only [ThreadOk, go_threads]
      refine ⟨by rw [hsus.1, ht]; rfl, ?_, fun ⟨e', he', ht'⟩ => hgone e' he' ht', hnv⟩
      obtain ⟨a, ha⟩ := hsus.2
      exact ⟨a, by rw [← ha, hsus.1, ht]; rfl⟩
    · refine (h.threads u).kept ⟨go_threads_ne hu, rfl, rfl, rfl, rfl, ?_, fun _ hk => hk,
        fun _ => ⟨rfl, rfl⟩, Iff.rfl⟩
      refine ⟨fun ⟨e', he', hu'⟩ => ⟨e', hsub e' he', hu'⟩, fun ⟨e', he', hu'⟩ => ⟨e', ?_, hu'⟩⟩
      refine hnd.mem_erase_iff.mpr ⟨?_, he'⟩
      rintro rfl
      exact hu (hu'.symm.trans ht)

lemma Inv.freeSuspend (h : Inv s) {a : ℕ} (hpc : s.threads t = .freeSuspend (some a)) :
    Inv ({ s with
      suspends := mempoolFree s.suspends a
      sem := Function.update s.sem t none }.go t .keyDelete) := by
  have hown := h.threads t
  simp only [ThreadOk, hpc] at hown
  obtain ⟨hsem, -, hnl, hnv⟩ := hown
  have hat : SemAt s a (.call t) := hsem.symm
  refine ⟨h.buckets_same rfl (bucket_same (t := t) (by simp [hpc, EntryPc.hasBucket])
    (fun u hu => go_threads_ne hu) rfl rfl), ?_, h.freeBuckets, ?_,
    ⟨h.calls.future, fun c hc => ?_⟩, ⟨h.entries.keys, h.entries.key, fun e he => ?_⟩, fun u => ?_⟩
  · refine h.suspends.change (i := a) (q := .free) (fun _ _ => Iff.rfl) (fun k hk p => ?_)
      (h.suspends.mem _ _ hat) fun p => ?_
    · cases p with
      | free => simp [SemAt, State.go, mempoolFree, hk]
      | call c =>
        by_cases hc : c = t
        · subst hc; simp [SemAt, State.go, ← hsem, Ne.symm hk]
        · simp [SemAt, State.go, hc]
    · cases p with
      | free => simp [SemAt, State.go, mempoolFree]
      | call c =>
        by_cases hc : c = t
        · subst hc; simp [SemAt, State.go]
        · have := h.suspends.ne hat (.call c) (by simp [hc])
          simpa [SemAt, State.go, hc] using this
  · have hnot : a ∉ s.suspends := h.suspends.ne hat .free (by simp)
    refine List.nodup_append.mpr ⟨h.freeSuspends, by simp, fun x hx y hy => ?_⟩
    obtain rfl : y = a := by simpa using hy
    rintro rfl
    exact hnot hx
  · refine h.calls.born c ?_
    by_cases hct : c = t
    · simp [hct, hpc]
    · rwa [go_threads_ne hct] at hc
  · have hne : e.thread ≠ t := by rintro rfl; exact hnl ⟨e, he, rfl⟩
    simpa [State.go, hne] using h.entries.suspend e he
  · by_cases hu : u = t
    · subst hu
      simp only [ThreadOk, go_threads]
      exact ⟨by simp [State.go], hnl, hnv⟩
    · exact (h.threads u).kept ⟨go_threads_ne hu, rfl, rfl, rfl, by simp [State.go, hu], Iff.rfl,
        fun _ hk => hk, fun _ => ⟨rfl, rfl⟩, Iff.rfl⟩

/-- A step of `internal_entry` or of `internal_task_finalizer`. -/
theorem internalEntry_inv (h : Inv s) (hs : internalEntry s t key ok = some s') : Inv s' := by
  have hown := h.threads t
  -- most steps leave all shared data alone
  have hgo : ∀ {s₁ : State F A} {pc : EntryPc F A}, s.threads t ≠ .unborn →
      pc.hasBucket = (s.threads t).hasBucket → s₁ = s →
      ThreadOk (s.go t pc) t → Inv (s₁.go t pc) := by
    rintro s₁ pc hborn hpc rfl hok
    exact h.move hborn hpc rfl ⟨rfl, rfl, rfl, rfl, rfl, rfl, rfl, rfl⟩ (fun _ _ _ hk => hk)
      (fun _ _ => .inr rfl) (fun _ _ => ⟨rfl, rfl⟩) (fun _ _ => Iff.rfl) hok
  have hfail : ∀ {s₁ : State F A}, (s.threads t).hasBucket = true →
      (∃ b d, s₁ = { s.setTcb b d with failed := t :: s.failed } ∧ b = s.tcb t) ∨
        s₁ = { s with failed := t :: s.failed } →
      ¬ Listed s t → NoValue s t → Inv (s₁.go t .failFree) := by
    intro s₁ ht hs₁ hnl hnv
    have hborn : s.threads t ≠ .unborn := by rintro he; simp [he, EntryPc.hasBucket] at ht
    have hf : ∀ u, u ≠ t → (u ∈ t :: s.failed ↔ u ∈ s.failed) := fun u hu => by simp [hu]
    rcases hs₁ with ⟨b, d, rfl, rfl⟩ | rfl
    · refine h.move hborn (by rw [ht]; rfl) rfl ⟨rfl, rfl, rfl, rfl, rfl, rfl, rfl, rfl⟩
        (fun _ _ _ hk => hk)
        (fun b _ => ?_) (fun hf => by simp [ht] at hf) hf ?_
      · by_cases hb : b = s.tcb t
        · exact .inl hb
        · exact .inr (by simp [State.go, State.setTcb, hb])
      · simp only [ThreadOk, go_threads]
        exact ⟨List.mem_cons_self, hnl, hnv⟩
    · refine h.move hborn (by rw [ht]; rfl) rfl ⟨rfl, rfl, rfl, rfl, rfl, rfl, rfl, rfl⟩
        (fun _ _ _ hk => hk)
        (fun b _ => .inr rfl) (fun hf => by simp [ht] at hf) hf ?_
      simp only [ThreadOk, go_threads]
      exact ⟨List.mem_cons_self, hnl, hnv⟩
  cases hpc : s.threads t with
  | unborn | running | finished => simp [internalEntry, hpc] at hs
  | setThr =>
    simp only [ThreadOk, hpc] at hown
    obtain rfl := by simpa [internalEntry, hpc] using hs
    refine h.move (by simp [hpc]) (by simp [hpc, EntryPc.hasBucket]) rfl
      ⟨rfl, rfl, rfl, rfl, rfl, rfl, rfl, rfl⟩ (fun _ _ _ hk => hk) (fun b _ => ?_)
      (by simp [hpc, EntryPc.hasBucket]) (fun _ _ => Iff.rfl) ?_
    · by_cases hb : b = s.tcb t
      · exact .inl hb
      · exact .inr (by simp [State.go, State.setTcb, hb])
    · simp only [ThreadOk, go_threads]
      exact ⟨hown, by simp [State.go, State.setTcb]⟩
  | allocSuspend =>
    simp only [ThreadOk, hpc] at hown
    simp only [internalEntry, hpc] at hs
    split at hs
    · rename_i a l hl
      obtain rfl := Option.some.inj hs
      exact h.allocSuspend hpc hl
    · obtain rfl := Option.some.inj hs
      exact hfail (by simp [hpc, EntryPc.hasBucket]) (.inl ⟨_, _, rfl, rfl⟩) hown.1.2.1 hown.1.2.2
  | initSem =>
    simp only [ThreadOk, hpc] at hown
    simp only [internalEntry, hpc] at hs
    split at hs
    · obtain rfl := Option.some.inj hs
      refine hgo (by simp [hpc]) (by simp [hpc, EntryPc.hasBucket]) rfl ?_
      simp only [ThreadOk, go_threads]
      exact hown
    · obtain rfl := Option.some.inj hs
      exact hfail (by simp [hpc, EntryPc.hasBucket]) (.inr rfl) hown.1.2.1 hown.1.2.2
  | insert =>
    simp only [ThreadOk, hpc] at hown
    simp only [internalEntry, hpc] at hs
    split at hs
    · rename_i l hl
      obtain rfl := Option.some.inj hs
      exact h.insert hpc hl
    · obtain rfl := Option.some.inj hs
      exact hfail (by simp [hpc, EntryPc.hasBucket]) (.inr rfl) hown.1.2.1 hown.1.2.2
  | keyCreate =>
    simp only [ThreadOk, hpc] at hown
    simp only [internalEntry, hpc] at hs
    split at hs
    · simp at hs
    · obtain rfl := Option.some.inj hs
      have hv : ∀ u k, (if k = key then false else s.value u k) = true → s.value u k = true := by
        intro u k
        split <;> simp
      refine h.move (by simp [hpc]) (by simp [hpc, EntryPc.hasBucket]) rfl
        ⟨rfl, rfl, rfl, rfl, rfl, rfl, rfl, rfl⟩ (fun u _ k hk => hv u k hk)
        (fun _ _ => .inr rfl) (fun _ _ => ⟨rfl, rfl⟩) (fun _ _ => Iff.rfl) ?_
      simp only [ThreadOk, go_threads]
      refine ⟨hown.1, fun k => ?_⟩
      show (if k = key then false else s.value t k) = false
      simp [hown.2 k]
  | setSpecific =>
    simp only [ThreadOk, hpc] at hown
    obtain ⟨hl, hnv⟩ := hown
    simp only [internalEntry, hpc] at hs
    split at hs
    · obtain rfl := Option.some.inj hs
      refine h.move (by simp [hpc]) (by simp [hpc, EntryPc.hasBucket]) rfl
        ⟨rfl, rfl, rfl, rfl, rfl, rfl, rfl, rfl⟩ (fun u hu k hk => ?_)
        (fun _ _ => .inr rfl) (fun _ _ => ⟨rfl, rfl⟩) (fun _ _ => Iff.rfl) ?_
      · simpa [State.go, hu] using hk
      · simp only [ThreadOk, go_threads]
        refine ⟨hl, fun k k' hk hk' => ?_⟩
        have honly : ∀ k, Function.update (s.value t) s.tcbKey true k = true → k = s.tcbKey := by
          intro k hk
          by_contra hne
          simp [hne, hnv k] at hk
        have h1 := honly k (by simpa [State.go] using hk)
        have h2 := honly k' (by simpa [State.go] using hk')
        rw [h1, h2]
    · obtain rfl := Option.some.inj hs
      refine hgo (by simp [hpc]) (by simp [hpc, EntryPc.hasBucket]) rfl ?_
      simp only [ThreadOk, go_threads]
      exact ⟨hl, fun k k' hk _ => by simp [State.go, hnv k] at hk⟩
  | freeBucket =>
    simp only [ThreadOk, hpc] at hown
    obtain rfl := by simpa [internalEntry, hpc] using hs
    refine h.freeBucket (by simp [hpc, EntryPc.hasBucket]) rfl ?_
    simp only [ThreadOk, go_threads]
    exact hown
  | failFree =>
    simp only [ThreadOk, hpc] at hown
    obtain rfl := by simpa [internalEntry, hpc] using hs
    refine h.freeBucket (by simp [hpc, EntryPc.hasBucket]) rfl ?_
    simp only [ThreadOk, go_threads]
    exact hown
  | readSuspend =>
    simp only [ThreadOk, hpc] at hown
    obtain rfl := by simpa [internalEntry, hpc] using hs
    refine h.move (by simp [hpc]) (by simp [hpc, EntryPc.hasBucket]) rfl
      ⟨rfl, rfl, rfl, rfl, rfl, rfl, rfl, rfl⟩ (fun _ _ _ hk => hk) (fun _ _ => .inr rfl)
      (fun _ _ => ⟨rfl, rfl⟩) (fun _ _ => Iff.rfl) ?_
    simp only [ThreadOk, go_threads]
    exact hown
  | readPrms | readFunc | readArg | failRead =>
    simp only [ThreadOk, hpc] at hown
    obtain rfl := by simpa [internalEntry, hpc] using hs
    refine hgo (by simp [hpc]) (by simp [hpc, EntryPc.hasBucket]) rfl ?_
    simp only [ThreadOk, go_threads]
    exact hown
  | setPrms p =>
    simp only [ThreadOk, hpc] at hown
    obtain rfl := by simpa [internalEntry, hpc] using hs
    cases p with
    | none =>
      refine hgo (by simp [hpc]) (by simp [hpc, EntryPc.hasBucket]) rfl ?_
      simp only [ThreadOk, go_threads]
      exact hown
    | some p =>
      refine h.move (by simp [hpc]) (by simp [hpc, EntryPc.hasBucket]) rfl
        ⟨rfl, rfl, rfl, rfl, rfl, rfl, rfl, rfl⟩ (fun _ _ _ hk => hk) (fun _ _ => .inr rfl)
        (fun _ _ => ⟨rfl, rfl⟩) (fun _ _ => Iff.rfl) ?_
      simp only [ThreadOk, go_threads]
      exact hown
  | failSet p =>
    simp only [ThreadOk, hpc] at hown
    obtain rfl := by simpa [internalEntry, hpc] using hs
    have hend : ∀ {s₁ : State F A}, s₁.threads t = .destructors → s₁.value = s.value →
        s₁.failed = s.failed → ThreadOk s₁ t := by
      intro s₁ h1 h2 h3
      simp only [ThreadOk, h1, OneValue, h2, h3]
      refine ⟨fun k k' hk _ => by simp [hown.2.2 k] at hk, ?_, fun hf => absurd hown.1 hf⟩
      rintro ⟨k, hk⟩
      simp [hown.2.2 k] at hk
    cases p with
    | none =>
      exact hgo (by simp [hpc]) (by simp [hpc, EntryPc.hasBucket]) rfl (hend go_threads rfl rfl)
    | some p =>
      exact h.move (by simp [hpc]) (by simp [hpc, EntryPc.hasBucket]) rfl
        ⟨rfl, rfl, rfl, rfl, rfl, rfl, rfl, rfl⟩ (fun _ _ _ hk => hk) (fun _ _ => .inr rfl)
        (fun _ _ => ⟨rfl, rfl⟩) (fun _ _ => Iff.rfl) (hend go_threads rfl rfl)
  | clearPrms =>
    simp only [ThreadOk, hpc] at hown
    obtain rfl := by simpa [internalEntry, hpc] using hs
    refine h.move (by simp [hpc]) (by simp [hpc, EntryPc.hasBucket]) rfl
      ⟨rfl, rfl, rfl, rfl, rfl, rfl, rfl, rfl⟩ (fun _ _ _ hk => hk)
      (by simp [hpc, EntryPc.hasBucket]) (fun _ b => ?_) (fun _ _ => Iff.rfl) ?_
    · by_cases hb : b = s.tcb t
      · subst hb; simp [State.go, State.setTcb]
      · simp [State.go, State.setTcb, hb]
    · simp only [ThreadOk, go_threads]
      exact hown
  | call f a =>
    simp only [ThreadOk, hpc] at hown
    obtain rfl := by simpa [internalEntry, hpc] using hs
    refine h.move (by simp [hpc]) (by simp [hpc, EntryPc.hasBucket]) rfl
      ⟨rfl, rfl, rfl, rfl, rfl, rfl, rfl, rfl⟩ (fun _ _ _ hk => hk) (fun _ _ => .inr rfl)
      (fun _ _ => ⟨rfl, rfl⟩) (fun _ _ => Iff.rfl) ?_
    simp only [ThreadOk, go_threads]
    exact hown
  | destructors =>
    simp only [ThreadOk, hpc] at hown
    obtain ⟨hone, hlist, hclean⟩ := hown
    simp only [internalEntry, hpc] at hs
    split at hs
    · rename_i k hk
      obtain rfl := Option.some.inj hs
      have hkv : s.value t k = true := by simpa using List.find?_some hk
      refine h.move (by simp [hpc]) (by simp [hpc, EntryPc.hasBucket]) rfl
        ⟨rfl, rfl, rfl, rfl, rfl, rfl, rfl, rfl⟩ (fun u hu k' hk' => ?_)
        (fun _ _ => .inr rfl) (fun _ _ => ⟨rfl, rfl⟩) (fun _ _ => Iff.rfl) ?_
      · simpa [State.go, hu] using hk'
      · simp only [ThreadOk, go_threads]
        refine ⟨hlist ⟨k, hkv⟩, fun k' => ?_⟩
        by_cases hkk : k' = k
        · subst hkk; simp [State.go]
        · have : s.value t k' ≠ true := fun hv => hkk (hone k' k hv hkv)
          simpa [State.go, hkk] using this
    · obtain rfl := Option.some.inj hs
      refine hgo (by simp [hpc]) (by simp [hpc, EntryPc.hasBucket]) rfl ?_
      simp only [ThreadOk, go_threads]
      exact hclean
  | listDelete =>
    simp only [internalEntry, hpc] at hs
    obtain ⟨e, he, rfl⟩ := Option.map_eq_some_iff.mp hs
    exact h.listDelete hpc he
  | freeSuspend m =>
    simp only [internalEntry, hpc] at hs
    obtain ⟨a, rfl, rfl⟩ := Option.map_eq_some_iff.mp hs
    exact h.freeSuspend hpc
  | keyDelete =>
    simp only [ThreadOk, hpc] at hown
    obtain rfl := by simpa [internalEntry, hpc] using hs
    refine h.move (by simp [hpc]) (by simp [hpc, EntryPc.hasBucket]) rfl
      ⟨rfl, rfl, rfl, rfl, rfl, rfl, rfl, rfl⟩ (fun _ _ _ hk => hk) (fun _ _ => .inr rfl)
      (fun _ _ => ⟨rfl, rfl⟩) (fun _ _ => Iff.rfl) ?_
    simp only [ThreadOk, go_threads]
    refine ⟨fun k k' hk _ => ?_, fun ⟨k, hk⟩ => ?_, fun _ => .inr hown.1⟩
    · have := hown.2.2 k
      simp [State.go, this] at hk
    · have := hown.2.2 k
      simp [State.go, this] at hk

/-! ### Creating threads -/

section Create

variable {pc' : CreatePc}

def State.goCall (s : State F A) (c : ℕ) (pc : CreatePc) : State F A :=
  { s with creators := Function.update s.creators c pc }

lemma bucket_goCall_ne {c' : ℕ} (h : c' ≠ c) : (s.goCall c pc').bucket c' = s.bucket c' := by
  simp [State.bucket, State.goCall, h]

lemma Inv.goCall (h : Inv s) (pc' : CreatePc) (hidle : c < s.count)
    (hheld : (s.goCall c pc').bucket c = s.bucket c)
    (hborn : s.threads c ≠ .unborn → pc' = .wait ∨ ∃ r, pc' = .ret r) : Inv (s.goCall c pc') := by
  have hb : ∀ c', (s.goCall c pc').bucket c' = s.bucket c' := by
    intro c'
    by_cases hc : c' = c
    · exact hc ▸ hheld
    · exact bucket_goCall_ne hc
  refine ⟨h.buckets_same rfl hb, h.suspends_same rfl rfl, h.freeBuckets, h.freeSuspends,
    ⟨fun c' hc' => ?_, fun c' hc' => ?_⟩, ⟨h.entries.keys, h.entries.key, h.entries.suspend⟩,
    fun u => ?_⟩
  · have hne : c' ≠ c := by
      rintro rfl
      exact absurd hidle (Nat.not_lt.mpr hc')
    simpa [State.goCall, hne] using h.calls.future c' hc'
  · by_cases hc : c' = c
    · subst hc
      simpa [State.goCall] using hborn hc'
    · simpa [State.goCall, hc] using h.calls.born c' hc'
  · have := h.threads u
    exact this

lemma Inv.lt_count (h : Inv s) (hc : s.creators c ≠ .idle) : c < s.count := by
  by_contra hle
  exact hc (h.calls.future c (Nat.not_lt.mp hle))

lemma Inv.unborn (h : Inv s) (hw : s.creators c ≠ .wait) (hr : ∀ r, s.creators c ≠ .ret r) :
    s.threads c = .unborn := by
  by_contra hb
  rcases h.calls.born c hb with he | ⟨r, he⟩
  · exact hw he
  · exact hr r he

lemma Inv.allocBucket (h : Inv s) (hpc : s.creators c = .alloc) {l : List ℕ}
    (hl : mempoolAlloc s.buckets = some (b, l)) :
    Inv ({ s with buckets := l }.goCall c (.write b)) := by
  have hcons := mempoolAlloc_some hl
  have hnd := h.freeBuckets
  rw [hcons, List.nodup_cons] at hnd
  have hun := h.unborn (c := c) (by simp [hpc]) (by simp [hpc])
  have hfree : BucketAt s b .free := by simp [BucketAt, hcons]
  have hnone : s.bucket c = none := by
    simp [State.bucket, hpc, CreatePc.held, hun, EntryPc.hasBucket]
  have hself : State.bucket ({ s with buckets := l }.goCall c (.write b)) c = some b := by
    simp [State.bucket, State.goCall, CreatePc.held]
  have hne : ∀ c', c' ≠ c →
      State.bucket ({ s with buckets := l }.goCall c (.write b)) c' = s.bucket c' :=
    fun c' hc => by simp [State.bucket, State.goCall, hc]
  refine ⟨?_, h.suspends_same rfl rfl, hnd.2, h.freeSuspends, ⟨fun c' hc' => ?_, fun c' hc' => ?_⟩,
    ⟨h.entries.keys, h.entries.key, h.entries.suspend⟩, fun u => h.threads u⟩
  · refine h.buckets.change (i := b) (q := .call c) (fun _ _ => Iff.rfl) (fun k hk p => ?_)
      (h.buckets.mem _ _ hfree) fun p => ?_
    · cases p with
      | free => simp [BucketAt, State.goCall, hcons, hk]
      | call c' =>
        by_cases hc : c' = c
        · subst hc; simp [BucketAt, hself, hnone, Ne.symm hk]
        · simp [BucketAt, hne c' hc]
    · cases p with
      | free => simpa [BucketAt, State.goCall] using hnd.1
      | call c' =>
        by_cases hc : c' = c
        · subst hc; simp [BucketAt, hself]
        · have := h.buckets.ne hfree (.call c') (by simp)
          simpa [BucketAt, hne c' hc, hc] using this
  · have hnc : c' ≠ c := by
      rintro rfl
      exact absurd (h.lt_count (c := c') (by simp [hpc])) (Nat.not_lt.mpr hc')
    simpa [State.goCall, hnc] using h.calls.future c' hc'
  · have hnc : c' ≠ c := by
      rintro rfl
      exact hc' hun
    simpa [State.goCall, hnc] using h.calls.born c' hc'

lemma Inv.writeBucket (h : Inv s) (hpc : s.creators c = .write b) (d : Tcb F A) :
    Inv ((s.setTcb b d).goCall c (.create b)) := by
  have hun := h.unborn (c := c) (by simp [hpc]) (by simp [hpc])
  have hbc : BucketAt s b (.call c) := by simp [BucketAt, State.bucket, hpc, CreatePc.held]
  have h1 := h.goCall (.create b) (h.lt_count (by simp [hpc])) (by
    simp [State.bucket, State.goCall, hpc, CreatePc.held]) (fun hb => absurd hun hb)
  refine ⟨h1.buckets, h1.suspends, h1.freeBuckets, h1.freeSuspends,
    ⟨h1.calls.future, h1.calls.born⟩,
    ⟨h1.entries.keys, h1.entries.key, h1.entries.suspend⟩, fun u => ?_⟩
  refine (h1.threads u).kept
    ⟨rfl, rfl, rfl, rfl, rfl, Iff.rfl, fun _ hk => hk, fun hub => ?_, Iff.rfl⟩
  have hne : s.tcb u ≠ b := by
    intro he
    have hbu : BucketAt s b (.call u) := he ▸ h.bucket_of hub
    have huc : u = c := by simpa using h.buckets.uniq b (.call u) (.call c) hbu hbc
    rw [huc] at hub
    have : (s.threads c).hasBucket = true := hub
    simp [hun, EntryPc.hasBucket] at this
  simp [State.goCall, State.setTcb, hne]

lemma Inv.start (h : Inv s) (hpc : s.creators c = .create b) (k : ℕ) :
    Inv { s with
      creators := Function.update s.creators c .wait
      threads := Function.update s.threads c .setThr
      tcb := Function.update s.tcb c b
      handle := Function.update s.handle c k } := by
  have hun := h.unborn (c := c) (by simp [hpc]) (by simp [hpc])
  have hown := h.threads c
  simp only [ThreadOk, hun] at hown
  obtain ⟨hsem, hnl, hnv⟩ := hown
  have hne : ∀ e ∈ s.tcbs, e.thread ≠ c := by
    rintro e he rfl
    exact hnl ⟨e, he, rfl⟩
  refine ⟨h.buckets_same rfl fun c' => ?_, h.suspends_same rfl rfl, h.freeBuckets, h.freeSuspends,
    ⟨fun c' hc' => ?_, fun c' hc' => ?_⟩, ⟨h.entries.keys, fun e he => ?_, h.entries.suspend⟩,
    fun u => ?_⟩
  · by_cases hc : c' = c
    · subst hc
      simp [State.bucket, hpc, CreatePc.held, EntryPc.hasBucket]
    · simp [State.bucket, hc]
  · have hnc : c' ≠ c := by
      rintro rfl
      exact absurd (h.lt_count (c := c') (by simp [hpc])) (Nat.not_lt.mpr hc')
    simpa [hnc] using h.calls.future c' hc'
  · by_cases hc : c' = c
    · subst hc; simp
    · simpa [hc] using h.calls.born c' (by simpa [hc] using hc')
  · simpa [hne e he] using h.entries.key e he
  · by_cases hu : u = c
    · subst hu
      simp only [ThreadOk, Function.update_self]
      exact ⟨hsem, hnl, hnv⟩
    · exact (h.threads u).kept
        ⟨by simp [hu], by simp [hu], by simp [hu], by simp [hu], rfl, Iff.rfl,
        fun _ hk => hk, fun _ => ⟨rfl, rfl⟩, Iff.rfl⟩

end Create

theorem inv_step {a : Act F A} (h : Inv s) (hs : next s a = some s') : Inv s' := by
  cases a with
  | call f a =>
    cases f with
    | none =>
      obtain rfl := Option.some.inj hs
      exact h
    | some f =>
      obtain rfl := Option.some.inj hs
      have hidle := h.calls.future s.count (Nat.le_refl _)
      have hun := h.unborn (c := s.count) (by simp [hidle]) (by simp [hidle])
      refine ⟨h.buckets_same rfl fun c => ?_, h.suspends_same rfl rfl, h.freeBuckets,
        h.freeSuspends, ⟨fun c hc => ?_, fun c hc => ?_⟩,
        ⟨h.entries.keys, h.entries.key, h.entries.suspend⟩, fun u => h.threads u⟩
      · by_cases hc : c = s.count
        · subst hc; simp [State.bucket, hidle, CreatePc.held]
        · simp [State.bucket, hc]
      · have hc : s.count + 1 ≤ c := hc
        have hne : c ≠ s.count := by omega
        simpa [hne] using h.calls.future c (by omega)
      · have hne : c ≠ s.count := by
          rintro rfl
          exact hc hun
        simpa [hne] using h.calls.born c hc
  | create c =>
    simp only [next, thrdCreate] at hs
    split at hs
    · rename_i hpc
      split at hs
      · rename_i b l hl
        obtain rfl := Option.some.inj hs
        exact h.allocBucket hpc hl
      · obtain rfl := Option.some.inj hs
        have hun := h.unborn (c := c) (by simp [hpc]) (by simp [hpc])
        exact h.goCall _ (h.lt_count (by simp [hpc]))
          (by simp [State.bucket, State.goCall, hpc, CreatePc.held]) (fun hb => absurd hun hb)
    · rename_i b hpc
      obtain rfl := Option.some.inj hs
      exact h.writeBucket hpc _
    · rename_i hpc
      obtain ⟨v, -, rfl⟩ := Option.map_eq_some_iff.mp hs
      exact h.goCall _ (h.lt_count (by simp [hpc]))
        (by simp [State.bucket, State.goCall, hpc, CreatePc.held]) (fun _ => .inr ⟨_, rfl⟩)
    · simp at hs
  | start c k =>
    simp only [next] at hs
    split at hs
    · rename_i b hpc
      split at hs
      · obtain rfl := Option.some.inj hs
        exact h.start hpc k
      · simp at hs
    · simp at hs
  | startFail c =>
    simp only [next] at hs
    split at hs
    · rename_i b hpc
      obtain rfl := Option.some.inj hs
      have hun := h.unborn (c := c) (by simp [hpc]) (by simp [hpc])
      exact h.goCall _ (h.lt_count (by simp [hpc]))
        (by simp [State.bucket, State.goCall, hpc, CreatePc.held]) (fun hb => absurd hun hb)
    · simp at hs
  | step t key ok => exact internalEntry_inv h hs
  | exit t =>
    simp only [next] at hs
    split at hs
    · rename_i hpc
      obtain rfl := Option.some.inj hs
      have hown := h.threads t
      simp only [ThreadOk, hpc] at hown
      refine h.move (by simp [hpc]) (by simp [hpc, EntryPc.hasBucket]) rfl
        ⟨rfl, rfl, rfl, rfl, rfl, rfl, rfl, rfl⟩ (fun _ _ _ hk => hk) (fun _ _ => .inr rfl)
        (fun _ _ => ⟨rfl, rfl⟩) (fun _ _ => Iff.rfl) ?_
      simp only [ThreadOk, go_threads]
      exact ⟨hown.2, fun _ => hown.1, fun _ => .inl hown.1⟩
    · simp at hs

lemma initial_inv (f : F) (a : A) : Inv (initial f a) := by
  have hb : ∀ b, b ∈ (initial f a).buckets ↔ b < maxBuckets + 1 := fun b => List.mem_range
  have hs : ∀ b, b ∈ (initial f a).suspends ↔ b < maxThreads + 1 := fun b => by
    simp only [initial, List.mem_range]
  refine ⟨⟨fun b hlt => ⟨.free, (hb b).mpr hlt⟩, ?_, ?_⟩,
    ⟨fun b hlt => ⟨.free, (hs b).mpr hlt⟩, ?_, ?_⟩, List.nodup_range,
    by simp only [initial]; exact List.nodup_range,
    ⟨fun _ _ => rfl, fun c hc => absurd rfl hc⟩, ⟨by simp [initial], by simp [initial],
      by simp [initial]⟩, fun t => ⟨rfl, by simp [Listed, initial], fun _ => rfl⟩⟩
  · rintro b (- | c) (- | c') hp hq <;>
      simp_all [BucketAt, State.bucket, initial, CreatePc.held, EntryPc.hasBucket]
  · rintro b (- | c) hp
    · exact (hb b).mp hp
    · simp [BucketAt, State.bucket, initial, CreatePc.held, EntryPc.hasBucket] at hp
  · rintro b (- | c) (- | c') hp hq
    · rfl
    all_goals simp [SemAt, initial] at hp hq
  · rintro b (- | c) hp
    · exact (hs b).mp hp
    · simp [SemAt, initial] at hp

end CoopTasks.Threads
