import CoopTasks.ThreadsInv

/-!
The registry of live threads. One global key ties a thread to its clean-up: every starting
thread overwrites it and every exiting thread deletes what it finds there. As long as that is
a key nobody else needs, `tcbs` and `suspends` follow the threads.
-/

namespace CoopTasks.Threads

open CoopTasks.Placement CoopTasks.Machine

variable {F A : Type*} {s s' : State F A} {t c key : ℕ} {ok : Bool} {f : F} {a : A}

/-- The condition on `tcb_key` at one place of a thread: `pthread_setspecific` finds a key that
exists, and `pthread_key_delete` deletes one that no thread has a value for. -/
def KeyAt (s : State F A) : EntryPc F A → Prop
  | .setSpecific => s.tcbKey ∈ s.keys
  | .keyDelete => ∀ u < s.count, s.value u s.tcbKey = false
  | _ => True

/-- No step uses a key that `tcb_key` holds for another thread. -/
def OwnKey (s : State F A) : Act F A → Prop
  | .step t _ _ => KeyAt s (s.threads t)
  | _ => True

instance (s : State F A) : (pc : EntryPc F A) → Decidable (KeyAt s pc)
  | .setSpecific => inferInstanceAs (Decidable (s.tcbKey ∈ s.keys))
  | .keyDelete => inferInstanceAs (Decidable (∀ u < s.count, s.value u s.tcbKey = false))
  | .unborn | .setThr | .allocSuspend | .initSem | .insert | .keyCreate | .freeBucket
  | .readSuspend | .readPrms | .setPrms _ | .clearPrms | .readFunc | .readArg _ | .call _ _
  | .running | .failFree | .failRead | .failSet _ | .destructors | .listDelete | .freeSuspend _
  | .finished => inferInstanceAs (Decidable True)

instance (s : State F A) : (act : Act F A) → Decidable (OwnKey s act)
  | .step t _ _ => inferInstanceAs (Decidable (KeyAt s (s.threads t)))
  | .call _ _ | .create _ | .start _ _ | .startFail _ | .exit _ =>
    inferInstanceAs (Decidable True)

/-- A thread that will need its clean-up has a value for a key that exists. -/
structure Keyed (s : State F A) : Prop where
  due : ∀ t, (s.threads t).keyed = true ∨ s.threads t = .destructors ∧ Listed s t →
    ∃ k ∈ s.keys, s.value t k = true
  gone : ∀ t, s.threads t = .finished → ¬ Listed s t

lemma Keyed.frame (h : Keyed s) (t : ℕ) (hthreads : ∀ u, u ≠ t → s'.threads u = s.threads u)
    (hlisted : ∀ u, u ≠ t → (Listed s' u ↔ Listed s u))
    (hkey : ∀ u, u ≠ t → ∀ k ∈ s.keys, s.value u k = true → k ∈ s'.keys ∧ s'.value u k = true)
    (hdue : (s'.threads t).keyed = true ∨ s'.threads t = .destructors ∧ Listed s' t →
      ∃ k ∈ s'.keys, s'.value t k = true)
    (hgone : s'.threads t = .finished → ¬ Listed s' t) : Keyed s' where
  due u hu := by
    by_cases hut : u = t
    · subst hut
      exact hdue hu
    · rw [hthreads u hut, hlisted u hut] at hu
      obtain ⟨k, hk, hv⟩ := h.due u hu
      exact ⟨k, hkey u hut k hk hv⟩
  gone u hu := by
    by_cases hut : u = t
    · subst hut
      exact hgone hu
    · rw [hthreads u hut] at hu
      rw [hlisted u hut]
      exact h.gone u hu

lemma Inv.value_lt (h : Inv s) {k : ℕ} (hv : s.value t k = true) : t < s.count := by
  refine h.lt_count fun hidle => ?_
  have hun := h.unborn (c := t) (by simp [hidle]) (by simp [hidle])
  have hown := h.threads t
  simp only [ThreadOk, hun] at hown
  simp [hown.2.2 k] at hv

/-- A step of a thread keeps the other threads' values, if the key it deletes is its own. -/
lemma internalEntry_keyed (h : Keyed s) (hI : Inv s) (hown : KeyAt s (s.threads t))
    (hs : internalEntry s t key ok = some s') : Keyed s' := by
  have hI' := internalEntry_inv hI hs
  have ht := hI.threads t
  have ht' := hI'.threads t
  -- in most steps only the place of the thread is of interest
  have hgo : ∀ {pc : EntryPc F A}, s'.threads = Function.update s.threads t pc →
      s'.tcbs = s.tcbs → s'.keys = s.keys → s'.value = s.value →
      (pc.keyed = true → (s.threads t).keyed = true) →
      (pc = .destructors → ¬ Listed s t) → pc ≠ .finished → Keyed s' := by
    intro pc h1 h2 h3 h4 h5 h6 h7
    refine h.frame t (fun u hu => by rw [h1, Function.update_of_ne hu])
      (fun u _ => by rw [Listed, h2]; rfl) (fun u _ k hk hv => by rw [h3, h4]; exact ⟨hk, hv⟩) ?_ ?_
    · rw [h1, Function.update_self, Listed, h2, h3, h4]
      rintro (hk | ⟨rfl, hl⟩)
      · exact h.due t (.inl (h5 hk))
      · exact absurd hl (h6 rfl)
    · rw [h1, Function.update_self]
      exact fun he => absurd he h7
  cases hpc : s.threads t with
  | unborn | running | finished => simp [internalEntry, hpc] at hs
  | setThr | freeBucket | failFree | readSuspend | readPrms | readFunc | readArg | failRead
  | clearPrms | call =>
    obtain rfl := by simpa [internalEntry, hpc] using hs
    exact hgo rfl rfl rfl rfl (by simp [hpc, EntryPc.keyed, EntryPc.registered]) (by simp) (by simp)
  | allocSuspend =>
    simp only [internalEntry, hpc] at hs
    split at hs <;> obtain rfl := Option.some.inj hs <;>
      exact hgo rfl rfl rfl rfl (by simp [EntryPc.keyed, EntryPc.registered]) (by simp) (by simp)
  | initSem =>
    simp only [internalEntry, hpc] at hs
    split at hs <;> obtain rfl := Option.some.inj hs <;>
      exact hgo rfl rfl rfl rfl (by simp [EntryPc.keyed, EntryPc.registered]) (by simp) (by simp)
  | insert =>
    simp only [internalEntry, hpc] at hs
    split at hs
    · rename_i l hl
      obtain rfl := Option.some.inj hs
      refine h.frame t (fun u hu => go_threads_ne hu) (fun u hu => ?_) (fun _ _ k hk hv => ⟨hk, hv⟩)
        (by simp [EntryPc.keyed]) (by simp)
      unfold listInsert at hl
      split at hl
      · simp at hl
      · obtain rfl := Option.some.inj hl
        simp [Listed, State.go, or_and_right, exists_or, Ne.symm hu]
    · obtain rfl := Option.some.inj hs
      exact hgo rfl rfl rfl rfl (by simp [EntryPc.keyed, EntryPc.registered]) (by simp) (by simp)
  | keyCreate =>
    simp only [internalEntry, hpc] at hs
    split at hs
    · simp at hs
    · rename_i hnew
      obtain rfl := Option.some.inj hs
      refine h.frame t (fun u hu => go_threads_ne hu) (fun _ _ => Iff.rfl) (fun u _ k hk hv => ?_)
        (by simp [EntryPc.keyed]) (by simp)
      have hne : k ≠ key := by rintro rfl; exact hnew hk
      simp [State.go, hk, hne, hv]
  | setSpecific =>
    rw [hpc] at hown
    have hkey : s.tcbKey ∈ s.keys := hown
    simp only [internalEntry, hpc, if_pos hkey] at hs
    obtain rfl := Option.some.inj hs
    refine h.frame t (fun u hu => go_threads_ne hu) (fun _ _ => Iff.rfl) (fun u hu k hk hv => ?_)
      (fun _ => ⟨s.tcbKey, hkey, by simp [State.go]⟩) (by simp)
    exact ⟨hk, by simpa [State.go, hu] using hv⟩
  | setPrms p =>
    obtain rfl := by simpa [internalEntry, hpc] using hs
    cases p <;>
      exact hgo rfl rfl rfl rfl (by simp [hpc, EntryPc.keyed, EntryPc.registered]) (by simp)
        (by simp)
  | failSet p =>
    simp only [ThreadOk, hpc] at ht
    obtain rfl := by simpa [internalEntry, hpc] using hs
    cases p <;>
      exact hgo rfl rfl rfl rfl (by simp [EntryPc.keyed, EntryPc.registered]) (fun _ => ht.2.1)
        (by simp)
  | destructors =>
    simp only [internalEntry, hpc] at hs
    split at hs
    · rename_i k hk
      obtain rfl := Option.some.inj hs
      refine h.frame t (fun u hu => go_threads_ne hu) (fun _ _ => Iff.rfl)
        (fun u hu k' hk' hv => ⟨hk', by simpa [State.go, hu] using hv⟩)
        (by simp [EntryPc.keyed, EntryPc.registered]) (by simp)
    · rename_i hnone
      obtain rfl := Option.some.inj hs
      refine h.frame t (fun u hu => go_threads_ne hu) (fun _ _ => Iff.rfl)
        (fun _ _ k hk hv => ⟨hk, hv⟩) (by simp [EntryPc.keyed, EntryPc.registered]) fun _ hl => ?_
      obtain ⟨k, hk, hv⟩ := h.due t (.inr ⟨hpc, hl⟩)
      have := List.find?_eq_none.mp hnone k hk
      simp [hv] at this
  | listDelete =>
    simp only [ThreadOk, hpc] at ht
    simp only [internalEntry, hpc] at hs
    obtain ⟨e, he, rfl⟩ := Option.map_eq_some_iff.mp hs
    obtain ⟨hmem, het⟩ := hI.entries.find ht.1 he
    have hnd : s.tcbs.Nodup := List.Nodup.of_map _ hI.entries.keys
    refine h.frame t (fun u hu => go_threads_ne hu) (fun u hu => ?_) (fun _ _ k hk hv => ⟨hk, hv⟩)
      (by simp [EntryPc.keyed, EntryPc.registered]) (by simp)
    constructor
    · rintro ⟨e', he', hu'⟩
      exact ⟨e', List.mem_of_mem_erase he', hu'⟩
    · rintro ⟨e', he', hu'⟩
      refine ⟨e', hnd.mem_erase_iff.mpr ⟨?_, he'⟩, hu'⟩
      rintro rfl
      exact hu (hu'.symm.trans het)
  | freeSuspend m =>
    simp only [internalEntry, hpc] at hs
    obtain ⟨a, rfl, rfl⟩ := Option.map_eq_some_iff.mp hs
    exact hgo rfl rfl rfl rfl (by simp [EntryPc.keyed, EntryPc.registered]) (by simp) (by simp)
  | keyDelete =>
    rw [hpc] at hown
    have hkey : ∀ u < s.count, s.value u s.tcbKey = false := hown
    simp only [ThreadOk, hpc] at ht
    obtain rfl := by simpa [internalEntry, hpc] using hs
    refine h.frame t (fun u hu => go_threads_ne hu) (fun _ _ => Iff.rfl) (fun u hu k hk hv => ?_)
      ?_ (by simp)
    · refine ⟨List.mem_erase_of_ne ?_ |>.mpr hk, hv⟩
      rintro rfl
      have := hkey u (hI.value_lt hv)
      simp [hv] at this
    · simp only [go_threads]
      rintro (hk | ⟨-, hl⟩)
      · simp [EntryPc.keyed, EntryPc.registered] at hk
      · exact absurd hl ht.2.1

lemma keyed_step {act : Act F A} (h : Keyed s) (hI : Inv s) (hown : OwnKey s act)
    (hs : next s act = some s') : Keyed s' := by
  have hcall : ∀ {s₁ : State F A}, s₁.threads = s.threads → s₁.tcbs = s.tcbs → s₁.keys = s.keys →
      s₁.value = s.value → Keyed s₁ := by
    intro s₁ h1 h2 h3 h4
    refine ⟨fun u hu => ?_, fun u hu => ?_⟩
    · rw [h3, h4]
      refine h.due u ?_
      rwa [h1, Listed, h2] at hu
    · rw [Listed, h2]
      exact h.gone u (h1 ▸ hu)
  cases act with
  | call f a =>
    cases f with
    | none =>
      obtain rfl := Option.some.inj hs
      exact h
    | some f =>
      obtain rfl := Option.some.inj hs
      exact hcall rfl rfl rfl rfl
  | create c =>
    simp only [next, thrdCreate] at hs
    split at hs
    · split at hs <;> obtain rfl := Option.some.inj hs <;> exact hcall rfl rfl rfl rfl
    · obtain rfl := Option.some.inj hs
      exact hcall rfl rfl rfl rfl
    · obtain ⟨v, -, rfl⟩ := Option.map_eq_some_iff.mp hs
      exact hcall rfl rfl rfl rfl
    · simp at hs
  | start c k =>
    simp only [next] at hs
    split at hs
    · split at hs
      · obtain rfl := Option.some.inj hs
        refine h.frame c (fun u hu => by simp [hu]) (fun _ _ => Iff.rfl)
          (fun _ _ k hk hv => ⟨hk, hv⟩) (by simp [EntryPc.keyed, EntryPc.registered]) (by simp)
      · simp at hs
    · simp at hs
  | startFail c =>
    simp only [next] at hs
    split at hs
    · obtain rfl := Option.some.inj hs
      exact hcall rfl rfl rfl rfl
    · simp at hs
  | step t key ok => exact internalEntry_keyed h hI hown hs
  | exit t =>
    simp only [next] at hs
    split at hs
    · rename_i hpc
      obtain rfl := Option.some.inj hs
      refine h.frame t (fun u hu => go_threads_ne hu) (fun _ _ => Iff.rfl)
        (fun _ _ k hk hv => ⟨hk, hv⟩) (fun _ => ?_) (by simp)
      exact h.due t (.inl (by simp [hpc, EntryPc.keyed, EntryPc.registered]))
    · simp at hs

/-! ### The registry -/

/-- No thread is being set up or cleaned up: each is unborn, in its function, or finished. -/
def Settled (s : State F A) : Prop :=
  ∀ t, s.threads t = .unborn ∨ s.threads t = .running ∨ s.threads t = .finished

/-- A registered thread is in `tcbs` with a semaphore of its own; a finished one is not; and
when no thread is being set up or cleaned up and no start has failed, the entries are those of
the live threads, which hold all semaphores that are not in the pool. -/
structure RegistryOk (s : State F A) : Prop where
  registered : ∀ t, (s.threads t).registered = true → ∃ e ∈ s.tcbs, e.thread = t ∧
    e.key = s.handle t ∧ ∃ a, e.suspend = some a ∧ a ≤ maxThreads ∧ a ∉ s.suspends ∧
      ∀ e' ∈ s.tcbs, e'.suspend = some a → e' = e
  gone : ∀ t, s.threads t = .finished → ∀ e ∈ s.tcbs, e.thread ≠ t
  live : Settled s → s.failed = [] → (∀ e ∈ s.tcbs, e.key = s.handle e.thread) ∧
    (s.tcbs.map Entry.thread).Nodup ∧
    (∀ t, t ∈ s.tcbs.map Entry.thread ↔ s.threads t = .running) ∧
    s.tcbs.length + s.suspends.length = maxThreads + 1

lemma Inv.entry_unique (h : Inv s) {e e' : Entry} (he : e ∈ s.tcbs) (he' : e' ∈ s.tcbs)
    (hs : e'.suspend = e.suspend) : e' = e := by
  obtain ⟨h1, a, ha⟩ := h.entries.suspend e he
  obtain ⟨h1', -⟩ := h.entries.suspend e' he'
  have hthread : e'.thread = e.thread :=
    h.sem_unique (h1.symm.trans ha) (h1'.symm.trans (hs.trans ha))
  refine List.inj_on_of_nodup_map h.entries.keys he' he ?_
  rw [h.entries.key e' he', h.entries.key e he, hthread]

lemma Inv.threads_nodup (h : Inv s) : (s.tcbs.map Entry.thread).Nodup := by
  refine List.Nodup.map_on (fun e he e' he' ht => ?_) (List.Nodup.of_map _ h.entries.keys)
  refine List.inj_on_of_nodup_map h.entries.keys he he' ?_
  rw [h.entries.key e he, h.entries.key e' he', ht]

/-- In a settled state the semaphores of the entries and those in the pool are all there are. -/
lemma Inv.count_suspends (h : Inv s) (hset : Settled s) (hfail : ∀ t ∈ s.failed, s.sem t = none) :
    s.tcbs.length + s.suspends.length = maxThreads + 1 := by
  have hsem : ∀ e ∈ s.tcbs, ∃ a, s.sem e.thread = some a ∧ e.suspend.getD 0 = a := by
    intro e he
    obtain ⟨h1, a, ha⟩ := h.entries.suspend e he
    exact ⟨a, h1.symm.trans ha, by simp [ha]⟩
  -- a semaphore that is out of the pool is in the entry of the thread that took it
  have hentry : ∀ t a, s.sem t = some a → ∃ e ∈ s.tcbs, e.suspend.getD 0 = a := by
    intro t a ha
    have ht := h.threads t
    have hl : Listed s t := by
      rcases hset t with hpc | hpc | hpc <;> simp only [ThreadOk, hpc] at ht
      · simp [ht.1] at ha
      · exact ht.1
      · have hnot : t ∉ s.failed := fun hf => by simp [hfail t hf] at ha
        exact (ht hnot).resolve_right (by simp [ha])
    obtain ⟨e, he, rfl⟩ := hl
    exact ⟨e, he, by rw [(h.entries.suspend e he).1, ha]; rfl⟩
  have hnd : (s.tcbs.map (fun e => e.suspend.getD 0) ++ s.suspends).Nodup := by
    refine List.nodup_append.mpr ⟨?_, h.freeSuspends, fun x hx y hy => ?_⟩
    · refine List.Nodup.map_on (fun e he e' he' hee => ?_) (List.Nodup.of_map _ h.entries.keys)
      obtain ⟨-, b, hb⟩ := h.entries.suspend e he
      obtain ⟨-, b', hb'⟩ := h.entries.suspend e' he'
      refine h.entry_unique he' he ?_
      rw [hb, hb'] at hee ⊢
      simpa using hee
    · obtain ⟨e, he, rfl⟩ := List.mem_map.mp hx
      obtain ⟨b, hb, hb'⟩ := hsem e he
      rintro rfl
      have hy' : SemAt s (e.suspend.getD 0) .free := hy
      have hb2 : SemAt s (e.suspend.getD 0) (.call e.thread) := hb'.symm ▸ hb
      exact absurd (h.suspends.uniq _ _ _ hy' hb2) (by simp)
  have hmem : ∀ b, b ∈ s.tcbs.map (fun e => e.suspend.getD 0) ++ s.suspends ↔
      b ∈ List.range (maxThreads + 1) := by
    intro b
    rw [List.mem_range, List.mem_append, List.mem_map]
    constructor
    · rintro (⟨e, he, rfl⟩ | hb)
      · obtain ⟨b, hb, hb'⟩ := hsem e he
        exact h.suspends.mem _ (.call e.thread) (hb'.symm ▸ hb)
      · exact h.suspends.mem b .free hb
    · intro hb
      obtain ⟨p, hp⟩ := h.suspends.one b hb
      cases p with
      | free => exact .inr hp
      | call t => exact .inl (hentry t b hp)
  have hperm := (List.perm_ext_iff_of_nodup hnd List.nodup_range).mpr hmem
  have hlen := hperm.length_eq
  rwa [List.length_append, List.length_map, List.length_range] at hlen

lemma registryOk (h : Inv s) (hk : Keyed s) : RegistryOk s := by
  refine ⟨fun t ht => ?_, fun t ht e he het => hk.gone t ht ⟨e, he, het⟩, fun hset hfail => ?_⟩
  · have hl : Listed s t := by
      have hok := h.threads t
      unfold ThreadOk at hok
      cases hpc : s.threads t <;> simp only [hpc, EntryPc.registered] at ht hok <;>
        first | exact hok.1 | simp at ht
    obtain ⟨e, he, rfl⟩ := hl
    obtain ⟨h1, b, hb⟩ := h.entries.suspend e he
    have hat : SemAt s b (.call e.thread) := h1.symm.trans hb
    refine ⟨e, he, rfl, h.entries.key e he, b, hb, Nat.le_of_lt_succ (h.suspends.mem b _ hat),
      h.suspends.ne hat .free (by simp), fun e' he' hb' => h.entry_unique he he' ?_⟩
    rw [hb', hb]
  · refine ⟨h.entries.key, h.threads_nodup, fun t => ?_, h.count_suspends hset (by simp [hfail])⟩
    have ht := h.threads t
    rw [List.mem_map]
    constructor
    · rintro ⟨e, he, rfl⟩
      have hl : Listed s e.thread := ⟨e, he, rfl⟩
      rcases hset e.thread with hpc | hpc | hpc
      · simp only [ThreadOk, hpc] at ht
        exact absurd hl ht.2.1
      · exact hpc
      · exact absurd hl (hk.gone _ hpc)
    · intro hpc
      simp only [ThreadOk, hpc] at ht
      exact ht.1

theorem inv_of_reach (h : Reach next OwnKey (initial f a) s) : Inv s ∧ Keyed s := by
  refine h.inv (I := fun s => Inv s ∧ Keyed s)
    ⟨initial_inv f a, fun t ht => ?_, fun t ht => ?_⟩ fun u l v hu hok hn =>
      ⟨inv_step hu.1 hn, keyed_step hu.2 hu.1 hok hn⟩
  · rcases ht with ht | ⟨ht, -⟩ <;> simp [initial, EntryPc.keyed, EntryPc.registered] at ht
  · simp [initial] at ht

/-- **The registry matches the live threads** in every run in which no step uses a key that
`tcb_key` holds for another thread. -/
theorem thread_registry (h : Reach next OwnKey (initial f a) s) : RegistryOk s :=
  registryOk (inv_of_reach h).1 (inv_of_reach h).2

/-- A thread starts and ends, and then another starts. -/
theorem thread_registry_two : ∃ s : State ℕ ℕ, Reach next OwnKey (initial 0 0) s ∧
    s.threads 0 = .finished ∧ s.threads 1 = .running ∧ RegistryOk s := by
  obtain ⟨s, hs, hp⟩ := exists_reach next OwnKey (initial 0 0 : State ℕ ℕ)
    (fun s => decide (s.threads 0 = .finished ∧ s.threads 1 = .running))
    (creation 0 ++ setUp 0 7 ++ cleanUp 0 ++ creation 1 ++ setUp 1 8) (by decide +kernel)
  obtain ⟨h0, h1⟩ := of_decide_eq_true hp
  exact ⟨s, hs, h0, h1, thread_registry hs⟩

/-- Two threads start, and the first to end deletes the key of the second, whose clean-up is
then never run: it stays in `tcbs` when it is gone. -/
theorem finished_thread_stays : ¬ ∀ s : State ℕ ℕ,
    Reach next (fun _ _ => True) (initial 0 0) s → RegistryOk s := by
  intro hall
  obtain ⟨s, hs, hp⟩ := exists_reach next (fun _ _ => True) (initial 0 0 : State ℕ ℕ)
    (fun s => decide (s.threads 1 = .finished ∧ s.tcbs.any (·.thread == 1) = true))
    (creation 0 ++ setUp 0 7 ++ creation 1 ++ setUp 1 8 ++ cleanUp 0 ++
      [.exit 1, .step 1 0 true]) (by decide +kernel)
  obtain ⟨h1, h2⟩ := of_decide_eq_true hp
  obtain ⟨e, he, het⟩ := List.any_eq_true.mp h2
  exact (hall s hs).gone 1 h1 e he (by simpa using het)

end CoopTasks.Threads
