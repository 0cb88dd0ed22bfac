import CoopTasks.ThreadsInv

/-!
What a new thread runs. Its start data is in a bucket that it gives back before it has read
the function, the argument and the promise; as long as the bucket has not been written for
another call at each of these reads, every thread runs its own function and answers its own
caller.
-/

namespace CoopTasks.Threads

open CoopTasks.Placement CoopTasks.Machine

variable {F A : Type*} {s s' : State F A} {t c b key : ℕ} {ok : Bool} {f : F} {a : A}

/-- The condition on the bucket of the thread `t` at one place: where the thread reads or
writes it after giving it back, it was not written for another call. -/
def RecordAt (s : State F A) (t : ℕ) : EntryPc F A → Prop
  | .readPrms | .clearPrms | .readFunc | .readArg _ | .failRead =>
    (s.block (s.tcb t)).call = t
  | _ => True

/-- No thread uses a start block that holds the data of another. -/
def OwnRecord (s : State F A) : Act F A → Prop
  | .step t _ _ => RecordAt s t (s.threads t)
  | _ => True

instance (s : State F A) (t : ℕ) : (pc : EntryPc F A) → Decidable (RecordAt s t pc)
  | .readPrms | .clearPrms | .readFunc | .readArg _ | .failRead =>
    inferInstanceAs (Decidable ((s.block (s.tcb t)).call = t))
  | .unborn | .setThr | .allocSuspend | .initSem | .insert | .keyCreate | .setSpecific
  | .freeBucket | .readSuspend | .setPrms _ | .call _ _ | .running | .failFree | .failSet _
  | .destructors | .listDelete | .freeSuspend _ | .keyDelete | .finished =>
    inferInstanceAs (Decidable True)

instance (s : State F A) : (act : Act F A) → Decidable (OwnRecord s act)
  | .step t _ _ => inferInstanceAs (Decidable (RecordAt s t (s.threads t)))
  | .call _ _ | .create _ | .start _ _ | .startFail _ | .exit _ =>
    inferInstanceAs (Decidable True)

/-- The status the thread gives its caller. -/
def State.status (s : State F A) (t : ℕ) : ℤ := if t ∈ s.failed then -enomem else 0

/-- The values set to the promise of the call `p`. -/
def State.setsOf (s : State F A) (p : ℕ) : List (ℕ × ℕ × ℤ) := s.sets.filter (·.1 == p)

/-- The functions that the thread `t` has called. -/
def State.ranBy (s : State F A) (t : ℕ) : List (ℕ × F × A) := s.ran.filter (·.1 == t)

/-- The bucket `b` carries the data of the call `c`, up to its promise. -/
def Carries (s : State F A) (b c : ℕ) : Prop :=
  (s.block b).call = c ∧ (s.block b).func = s.func c ∧ (s.block b).arg = s.arg c

/-- The bucket carries all data of the call. -/
def Record (s : State F A) (b c : ℕ) : Prop := Carries s b c ∧ (s.block b).prms = some c

/-- The thread's bucket still carries its data, if it has not been written for another. -/
def Intact (s : State F A) (t : ℕ) : Prop :=
  (s.block (s.tcb t)).call = t → Record s (s.tcb t) t

/-- What a thread's place says about its start data, its promise and the functions it called. -/
def StartAt (s : State F A) (t : ℕ) : EntryPc F A → Prop
  | .unborn => t ∉ s.failed ∧ s.setsOf t = [] ∧ s.ranBy t = []
  | .setThr | .allocSuspend | .initSem | .insert | .keyCreate | .setSpecific | .freeBucket =>
    Record s (s.tcb t) t ∧ t ∉ s.failed ∧ s.setsOf t = [] ∧ s.ranBy t = []
  | .readSuspend | .readPrms => Intact s t ∧ t ∉ s.failed ∧ s.setsOf t = [] ∧ s.ranBy t = []
  | .setPrms p => p = some t ∧ Intact s t ∧ t ∉ s.failed ∧ s.setsOf t = [] ∧ s.ranBy t = []
  | .clearPrms => Intact s t ∧ (s.setsOf t).length = 1 ∧ s.ranBy t = []
  | .readFunc => ((s.block (s.tcb t)).call = t → Carries s (s.tcb t) t) ∧
    (s.setsOf t).length = 1 ∧ s.ranBy t = []
  | .readArg f => f = s.func t ∧ ((s.block (s.tcb t)).call = t → Carries s (s.tcb t) t) ∧
    (s.setsOf t).length = 1 ∧ s.ranBy t = []
  | .call f a => f = s.func t ∧ a = s.arg t ∧ (s.setsOf t).length = 1 ∧ s.ranBy t = []
  | .failFree => Record s (s.tcb t) t ∧ s.setsOf t = [] ∧ s.ranBy t = []
  | .failRead => Intact s t ∧ s.setsOf t = [] ∧ s.ranBy t = []
  | .failSet p => p = some t ∧ s.setsOf t = [] ∧ s.ranBy t = []
  | .running | .destructors | .listDelete | .freeSuspend _ | .keyDelete | .finished =>
    (s.setsOf t).length = 1 ∧ (s.ranBy t).length ≤ 1

/-- What every step keeps, as long as no thread uses another's start data. -/
structure Starts (s : State F A) : Prop where
  place : ∀ t, StartAt s t (s.threads t)
  created : ∀ c b, s.creators c = .create b → Record s b c
  sets : ∀ e ∈ s.sets, e.1 = e.2.1 ∧ e.2.2 = s.status e.2.1
  ran : ∀ e ∈ s.ran, e.2.1 = s.func e.1 ∧ e.2.2 = s.arg e.1

/-- What a step leaves to the thread `u`: its data, unless its bucket was written for another
call after the thread gave it back. -/
structure Left (s s' : State F A) (u : ℕ) : Prop where
  thread : s'.threads u = s.threads u
  tcb : s'.tcb u = s.tcb u
  func : s'.func u = s.func u
  arg : s'.arg u = s.arg u
  block : s.threads u = .unborn ∨ (Record s (s.tcb u) u → Record s' (s.tcb u) u) ∧
      (Carries s (s.tcb u) u → Carries s' (s.tcb u) u) ∧
      ((s'.block (s.tcb u)).call = u → (s.block (s.tcb u)).call = u) ∨
    (s.threads u).hasBucket = false ∧ (s'.block (s.tcb u)).call ≠ u
  failed : u ∈ s'.failed ↔ u ∈ s.failed
  sets : s'.setsOf u = s.setsOf u
  ran : s'.ranBy u = s.ranBy u

lemma StartAt.left {u : ℕ} (h : StartAt s u (s.threads u)) (hl : Left s s' u) :
    StartAt s' u (s'.threads u) := by
  have hblock := hl.block
  rw [hl.thread]
  cases hpc : s.threads u <;>
    simp only [hpc, StartAt, Intact, EntryPc.hasBucket, hl.tcb, hl.func, hl.arg, hl.failed, hl.sets,
      hl.ran] at h hblock ⊢ <;> grind

/-- A step of the thread `t` writes no start data but the promise of a block that is its own. -/
lemma Starts.go (pc : EntryPc F A) (h : Starts s) (hI : Inv s) (hborn : s.threads t ≠ .unborn)
    (hthreads : s'.threads = Function.update s.threads t pc)
    (hsame : s'.creators = s.creators ∧ s'.tcb = s.tcb ∧ s'.func = s.func ∧ s'.arg = s.arg)
    (hblock : ∀ b, (s'.block b).call = (s.block b).call ∧ (s'.block b).func = (s.block b).func ∧
      (s'.block b).arg = (s.block b).arg ∧
      ((s'.block b).prms = (s.block b).prms ∨ (s.block b).call = t))
    (hfailed : ∀ u, u ≠ t → (u ∈ s'.failed ↔ u ∈ s.failed))
    (hsets : ∀ u, u ≠ t → s'.setsOf u = s.setsOf u)
    (hran : ∀ u, u ≠ t → s'.ranBy u = s.ranBy u) (hown : StartAt s' t pc)
    (hset : ∀ e ∈ s'.sets, e.1 = e.2.1 ∧ e.2.2 = s'.status e.2.1)
    (hcalled : ∀ e ∈ s'.ran, e.2.1 = s'.func e.1 ∧ e.2.2 = s'.arg e.1) : Starts s' := by
  obtain ⟨h1, h2, h3, h4⟩ := hsame
  have hcarries : ∀ b c, Carries s b c → Carries s' b c := by
    intro b c hc
    obtain ⟨g1, g2, g3, -⟩ := hblock b
    rwa [Carries, g1, g2, g3, h3, h4]
  have hrecord : ∀ b c, c ≠ t → Record s b c → Record s' b c := by
    rintro b c hct ⟨hc, hp⟩
    refine ⟨hcarries b c hc, ?_⟩
    rcases (hblock b).2.2.2 with he | he
    · rw [he, hp]
    · exact absurd (hc.1.symm.trans he) hct
  refine ⟨fun u => ?_, fun c b hc => ?_, hset, hcalled⟩
  · by_cases hu : u = t
    · subst hu
      rw [hthreads, Function.update_self]
      exact hown
    · refine (h.place u).left ⟨by rw [hthreads, Function.update_of_ne hu], by rw [h2], by rw [h3],
        by rw [h4], .inr (.inl ⟨hrecord _ u hu, hcarries _ u, fun he => ?_⟩), hfailed u hu,
        hsets u hu, hran u hu⟩
      rwa [(hblock _).1] at he
  · rw [h1] at hc
    refine hrecord b c ?_ (h.created c b hc)
    rintro rfl
    rcases hI.calls.born c hborn with he | ⟨r, he⟩ <;> simp [hc] at he

lemma Starts.pass (pc : EntryPc F A) (h : Starts s) (hI : Inv s) (hborn : s.threads t ≠ .unborn)
    (hthreads : s'.threads = Function.update s.threads t pc)
    (hsame : s'.creators = s.creators ∧ s'.tcb = s.tcb ∧ s'.func = s.func ∧ s'.arg = s.arg)
    (hblock : ∀ b, (s'.block b).call = (s.block b).call ∧ (s'.block b).func = (s.block b).func ∧
      (s'.block b).arg = (s.block b).arg ∧ (s'.block b).prms = (s.block b).prms)
    (hlog : s'.failed = s.failed ∧ s'.sets = s.sets ∧ s'.ran = s.ran)
    (hown : StartAt s' t pc) : Starts s' := by
  obtain ⟨h1, h2, h3⟩ := hlog
  have hstatus : s'.status = s.status := funext fun u => by rw [State.status, h1]; rfl
  refine Starts.go pc h hI hborn hthreads hsame (fun b => ?_) (fun u _ => by rw [h1])
    (fun u _ => by rw [State.setsOf, h2]; rfl) (fun u _ => by rw [State.ranBy, h3]; rfl) hown ?_ ?_
  · obtain ⟨g1, g2, g3, g4⟩ := hblock b
    exact ⟨g1, g2, g3, .inl g4⟩
  · rw [h2, hstatus]
    exact h.sets
  · rw [h3, hsame.2.2.1, hsame.2.2.2]
    exact h.ran

lemma setTcb_block (s : State F A) (b : ℕ) (d : Tcb F A) (hd : d.call = (s.block b).call)
    (hf : d.func = (s.block b).func) (ha : d.arg = (s.block b).arg) (b' : ℕ) :
    ((s.setTcb b d).block b').call = (s.block b').call ∧
      ((s.setTcb b d).block b').func = (s.block b').func ∧
      ((s.setTcb b d).block b').arg = (s.block b').arg ∧
      (b' = b ∧ ((s.setTcb b d).block b').prms = d.prms ∨
        b' ≠ b ∧ ((s.setTcb b d).block b').prms = (s.block b').prms) := by
  by_cases hb : b' = b
  · subst hb
    simp [State.setTcb, hd, hf, ha]
  · simp [State.setTcb, hb]

lemma Starts.fail (h : Starts s) (hI : Inv s) {s₁ : State F A} (hborn : s.threads t ≠ .unborn)
    (hrec : Record s (s.tcb t) t) (hset : s.setsOf t = []) (hran : s.ranBy t = [])
    (hsame : s₁.threads = s.threads ∧ s₁.creators = s.creators ∧ s₁.tcb = s.tcb ∧
      s₁.func = s.func ∧ s₁.arg = s.arg ∧ s₁.failed = t :: s.failed ∧ s₁.sets = s.sets ∧
      s₁.ran = s.ran)
    (hblock : ∀ b, (s₁.block b).call = (s.block b).call ∧ (s₁.block b).func = (s.block b).func ∧
      (s₁.block b).arg = (s.block b).arg ∧ (s₁.block b).prms = (s.block b).prms) :
    Starts (s₁.go t .failFree) := by
  obtain ⟨h1, h2, h3, h4, h5, h6, h7, h8⟩ := hsame
  have hsets : ∀ u, (s₁.go t .failFree).setsOf u = s.setsOf u := fun u => by
    show s₁.sets.filter _ = _
    rw [h7]
    rfl
  have hrans : ∀ u, (s₁.go t .failFree).ranBy u = s.ranBy u := fun u => by
    show s₁.ran.filter _ = _
    rw [h8]
    rfl
  refine Starts.go .failFree h hI hborn (by simp [State.go, h1]) ⟨h2, h3, h4, h5⟩
    (fun b => ?_) (fun u hu => ?_)
    (fun u _ => hsets u) (fun u _ => hrans u) ?_ (fun e he => ?_) fun e he => ?_
  · obtain ⟨g1, g2, g3, g4⟩ := hblock b
    exact ⟨g1, g2, g3, .inl g4⟩
  · show u ∈ s₁.failed ↔ _
    rw [h6]
    simp [hu]
  · refine ⟨?_, (hsets t).trans hset, (hrans t).trans hran⟩
    obtain ⟨g1, g2, g3, g4⟩ := hblock (s.tcb t)
    show Record s₁ (s₁.tcb t) t
    rw [Record, Carries, h3, g1, g2, g3, g4, h4, h5]
    exact hrec
  · have he : e ∈ s.sets := by rw [← h7]; exact he
    obtain ⟨g1, g2⟩ := h.sets e he
    refine ⟨g1, g2.trans ?_⟩
    have hne : e.2.1 ≠ t := by
      intro het
      have : e ∈ s.setsOf t := List.mem_filter.mpr ⟨he, by simp [g1, het]⟩
      simp [hset] at this
    show _ = if e.2.1 ∈ s₁.failed then _ else _
    rw [h6]
    simp [State.status, hne]
  · have he : e ∈ s.ran := by rw [← h8]; exact he
    show _ = s₁.func _ ∧ _ = s₁.arg _
    rw [h4, h5]
    exact h.ran e he

lemma setsOf_promiseSetValue {v : ℤ} (p u : ℕ) :
    (promiseSetValue s t v (some p)).setsOf u =
      if p = u then s.setsOf u ++ [(p, t, v)] else s.setsOf u := by
  by_cases hp : p = u <;> simp [State.setsOf, promiseSetValue, hp]

lemma Starts.answer (pc : EntryPc F A) (h : Starts s) (hI : Inv s)
    (hborn : s.threads t ≠ .unborn) {v : ℤ} (hv : v = s.status t)
    (hown : StartAt ((promiseSetValue s t v (some t)).go t pc) t pc) :
    Starts ((promiseSetValue s t v (some t)).go t pc) := by
  refine Starts.go pc h hI hborn rfl ⟨rfl, rfl, rfl, rfl⟩ (fun b => ⟨rfl, rfl, rfl, .inl rfl⟩)
    (fun _ _ => Iff.rfl) (fun u hu => ?_) (fun _ _ => rfl) hown (fun e he => ?_) h.ran
  · show (promiseSetValue s t v (some t)).setsOf u = _
    rw [setsOf_promiseSetValue, if_neg (Ne.symm hu)]
  · rcases List.mem_append.mp he with he | he
    · exact h.sets e he
    · obtain rfl := List.mem_singleton.mp he
      exact ⟨rfl, hv⟩

lemma setsOf_answer {v : ℤ} (hset : s.setsOf t = []) (pc : EntryPc F A) :
    (((promiseSetValue s t v (some t)).go t pc).setsOf t).length = 1 := by
  show ((promiseSetValue s t v (some t)).setsOf t).length = 1
  rw [setsOf_promiseSetValue, if_pos rfl, hset]
  rfl

lemma Starts.fill (pc : EntryPc F A) (h : Starts s) (hI : Inv s) (hborn : s.threads t ≠ .unborn)
    {s₁ : State F A} (d : Tcb F A) (hd : d.call = (s.block (s.tcb t)).call ∧
      d.func = (s.block (s.tcb t)).func ∧ d.arg = (s.block (s.tcb t)).arg ∧
      d.prms = (s.block (s.tcb t)).prms)
    (hsame : s₁.threads = s.threads ∧ s₁.creators = s.creators ∧ s₁.tcb = s.tcb ∧
      s₁.func = s.func ∧ s₁.arg = s.arg)
    (hblock : s₁.block = (s.setTcb (s.tcb t) d).block)
    (hlog : s₁.failed = s.failed ∧ s₁.sets = s.sets ∧ s₁.ran = s.ran)
    (hown : Record s₁ (s₁.tcb t) t → StartAt (s₁.go t pc) t pc)
    (hrec : Record s (s.tcb t) t) : Starts (s₁.go t pc) := by
  obtain ⟨h1, h2, h3, h4, h5⟩ := hsame
  have hb : ∀ b, (s₁.block b).call = (s.block b).call ∧ (s₁.block b).func = (s.block b).func ∧
      (s₁.block b).arg = (s.block b).arg ∧ (s₁.block b).prms = (s.block b).prms := by
    intro b
    obtain ⟨g1, g2, g3, g4⟩ := setTcb_block s (s.tcb t) d hd.1 hd.2.1 hd.2.2.1 b
    rw [hblock]
    refine ⟨g1, g2, g3, ?_⟩
    rcases g4 with ⟨rfl, he⟩ | ⟨-, he⟩
    · exact he.trans hd.2.2.2
    · exact he
  refine Starts.pass pc h hI hborn (by simp [State.go, h1]) ⟨h2, h3, h4, h5⟩ hb hlog (hown ?_)
  obtain ⟨g1, g2, g3, g4⟩ := hb (s.tcb t)
  rw [Record, Carries, h3, g1, g2, g3, g4, h4, h5]
  exact hrec

lemma internalEntry_starts (h : Starts s) (hI : Inv s) (hown : RecordAt s t (s.threads t))
    (hs : internalEntry s t key ok = some s') : Starts s' := by
  have hplace := h.place t
  have hthread := hI.threads t
  cases hpc : s.threads t with
  | unborn | running | finished => simp [internalEntry, hpc] at hs
  | setThr =>
    simp only [hpc, StartAt] at hplace
    obtain rfl := by simpa [internalEntry, hpc] using hs
    exact Starts.fill _ h hI (by simp [hpc]) { s.block (s.tcb t) with thr := s.handle t }
      ⟨rfl, rfl, rfl, rfl⟩ ⟨rfl, rfl, rfl, rfl, rfl⟩ rfl ⟨rfl, rfl, rfl⟩
      (fun hr => ⟨hr, hplace.2⟩) hplace.1
  | allocSuspend =>
    simp only [hpc, StartAt] at hplace
    simp only [internalEntry, hpc] at hs
    split at hs
    · rename_i m l hl
      obtain rfl := Option.some.inj hs
      exact Starts.fill _ h hI (by simp [hpc]) { s.block (s.tcb t) with suspend := some m }
        ⟨rfl, rfl, rfl, rfl⟩ ⟨rfl, rfl, rfl, rfl, rfl⟩ rfl ⟨rfl, rfl, rfl⟩
        (fun hr => ⟨hr, hplace.2⟩) hplace.1
    · obtain rfl := Option.some.inj hs
      refine h.fail hI (by simp [hpc]) hplace.1 hplace.2.2.1 hplace.2.2.2
        ⟨rfl, rfl, rfl, rfl, rfl, rfl, rfl, rfl⟩ fun b => ?_
      obtain ⟨g1, g2, g3, g4⟩ := setTcb_block s (s.tcb t)
        { s.block (s.tcb t) with suspend := none } rfl rfl rfl b
      refine ⟨g1, g2, g3, ?_⟩
      rcases g4 with ⟨rfl, he⟩ | ⟨-, he⟩ <;> exact he
  | initSem =>
    simp only [hpc, StartAt] at hplace
    simp only [internalEntry, hpc] at hs
    split at hs
    · obtain rfl := Option.some.inj hs
      exact Starts.pass _ h hI (by simp [hpc]) rfl ⟨rfl, rfl, rfl, rfl⟩
        (fun _ => ⟨rfl, rfl, rfl, rfl⟩) ⟨rfl, rfl, rfl⟩ hplace
    · obtain rfl := Option.some.inj hs
      exact h.fail hI (by simp [hpc]) hplace.1 hplace.2.2.1 hplace.2.2.2
        ⟨rfl, rfl, rfl, rfl, rfl, rfl, rfl, rfl⟩ fun b => ⟨rfl, rfl, rfl, rfl⟩
  | insert =>
    simp only [hpc, StartAt] at hplace
    simp only [internalEntry, hpc] at hs
    split at hs
    · obtain rfl := Option.some.inj hs
      exact Starts.pass .keyCreate h hI (by simp [hpc]) rfl ⟨rfl, rfl, rfl, rfl⟩
        (fun _ => ⟨rfl, rfl, rfl, rfl⟩) ⟨rfl, rfl, rfl⟩ hplace
    · obtain rfl := Option.some.inj hs
      exact h.fail hI (by simp [hpc]) hplace.1 hplace.2.2.1 hplace.2.2.2
        ⟨rfl, rfl, rfl, rfl, rfl, rfl, rfl, rfl⟩ fun b => ⟨rfl, rfl, rfl, rfl⟩
  | keyCreate =>
    simp only [hpc, StartAt] at hplace
    simp only [internalEntry, hpc] at hs
    split at hs
    · simp at hs
    · obtain rfl := Option.some.inj hs
      exact Starts.pass .setSpecific h hI (by simp [hpc]) rfl ⟨rfl, rfl, rfl, rfl⟩
        (fun _ => ⟨rfl, rfl, rfl, rfl⟩) ⟨rfl, rfl, rfl⟩ hplace
  | setSpecific =>
    simp only [hpc, StartAt] at hplace
    simp only [internalEntry, hpc] at hs
    split at hs <;> obtain rfl := Option.some.inj hs <;>
      exact Starts.pass .freeBucket h hI (by simp [hpc]) rfl ⟨rfl, rfl, rfl, rfl⟩
        (fun _ => ⟨rfl, rfl, rfl, rfl⟩) ⟨rfl, rfl, rfl⟩ hplace
  | freeBucket =>
    simp only [hpc, StartAt] at hplace
    obtain rfl := by simpa [internalEntry, hpc] using hs
    exact Starts.pass .readSuspend h hI (by simp [hpc]) rfl ⟨rfl, rfl, rfl, rfl⟩
      (fun _ => ⟨rfl, rfl, rfl, rfl⟩) ⟨rfl, rfl, rfl⟩ ⟨fun _ => hplace.1, hplace.2⟩
  | readSuspend =>
    simp only [hpc, StartAt] at hplace
    obtain rfl := by simpa [internalEntry, hpc] using hs
    exact Starts.pass .readPrms h hI (by simp [hpc]) rfl ⟨rfl, rfl, rfl, rfl⟩
      (fun _ => ⟨rfl, rfl, rfl, rfl⟩) ⟨rfl, rfl, rfl⟩ hplace
  | readPrms =>
    simp only [hpc, StartAt, RecordAt] at hplace hown
    obtain rfl := by simpa [internalEntry, hpc] using hs
    exact Starts.pass _ h hI (by simp [hpc]) rfl ⟨rfl, rfl, rfl, rfl⟩
      (fun _ => ⟨rfl, rfl, rfl, rfl⟩) ⟨rfl, rfl, rfl⟩ ⟨(hplace.1 hown).2, hplace⟩
  | setPrms p =>
    simp only [hpc, StartAt] at hplace
    obtain ⟨rfl, hint, hnf, hset, hran⟩ := hplace
    obtain rfl := by simpa [internalEntry, hpc] using hs
    exact Starts.answer .clearPrms h hI (by simp [hpc]) (by simp [State.status, hnf])
      ⟨hint, setsOf_answer hset _, hran⟩
  | clearPrms =>
    simp only [hpc, StartAt, RecordAt] at hplace hown
    obtain rfl := by simpa [internalEntry, hpc] using hs
    have hb := setTcb_block s (s.tcb t) { s.block (s.tcb t) with prms := none } rfl rfl rfl
    refine Starts.go .readFunc h hI (by simp [hpc]) rfl ⟨rfl, rfl, rfl, rfl⟩ (fun b => ?_)
      (fun _ _ => Iff.rfl) (fun _ _ => rfl) (fun _ _ => rfl) ⟨fun _ => ?_, hplace.2⟩ h.sets h.ran
    · obtain ⟨g1, g2, g3, g4⟩ := hb b
      refine ⟨g1, g2, g3, ?_⟩
      rcases g4 with ⟨rfl, -⟩ | ⟨-, he⟩
      · exact .inr hown
      · exact .inl he
    · obtain ⟨g1, g2, g3, -⟩ := hb (s.tcb t)
      obtain ⟨⟨k1, k2, k3⟩, -⟩ := hplace.1 hown
      exact ⟨g1.trans k1, g2.trans k2, g3.trans k3⟩
  | readFunc =>
    simp only [hpc, StartAt, RecordAt] at hplace hown
    obtain rfl := by simpa [internalEntry, hpc] using hs
    exact Starts.pass _ h hI (by simp [hpc]) rfl ⟨rfl, rfl, rfl, rfl⟩
      (fun _ => ⟨rfl, rfl, rfl, rfl⟩) ⟨rfl, rfl, rfl⟩ ⟨(hplace.1 hown).2.1, hplace⟩
  | readArg g =>
    simp only [hpc, StartAt, RecordAt] at hplace hown
    obtain rfl := by simpa [internalEntry, hpc] using hs
    exact Starts.pass _ h hI (by simp [hpc]) rfl ⟨rfl, rfl, rfl, rfl⟩
      (fun _ => ⟨rfl, rfl, rfl, rfl⟩) ⟨rfl, rfl, rfl⟩
      ⟨hplace.1, (hplace.2.1 hown).2.2, hplace.2.2⟩
  | call g b =>
    simp only [hpc, StartAt] at hplace
    obtain ⟨hg, hb, hset, hran⟩ := hplace
    obtain rfl := by simpa [internalEntry, hpc] using hs
    refine Starts.go .running h hI (by simp [hpc]) rfl ⟨rfl, rfl, rfl, rfl⟩
      (fun b => ⟨rfl, rfl, rfl, .inl rfl⟩) (fun _ _ => Iff.rfl) (fun _ _ => rfl) (fun u hu => ?_)
      ⟨hset, ?_⟩ h.sets fun e he => ?_
    · show (s.ran ++ [(t, g, b)]).filter _ = _
      simp [State.ranBy, Ne.symm hu]
    · show ((s.ran ++ [(t, g, b)]).filter _).length ≤ 1
      have : s.ran.filter (fun e => e.1 == t) = [] := hran
      simp [this]
    · rcases List.mem_append.mp he with he | he
      · exact h.ran e he
      · obtain rfl := List.mem_singleton.mp he
        exact ⟨hg, hb⟩
  | failFree =>
    simp only [hpc, StartAt] at hplace
    obtain rfl := by simpa [internalEntry, hpc] using hs
    exact Starts.pass .failRead h hI (by simp [hpc]) rfl ⟨rfl, rfl, rfl, rfl⟩
      (fun _ => ⟨rfl, rfl, rfl, rfl⟩) ⟨rfl, rfl, rfl⟩ ⟨fun _ => hplace.1, hplace.2⟩
  | failRead =>
    simp only [hpc, StartAt, RecordAt] at hplace hown
    obtain rfl := by simpa [internalEntry, hpc] using hs
    exact Starts.pass _ h hI (by simp [hpc]) rfl ⟨rfl, rfl, rfl, rfl⟩
      (fun _ => ⟨rfl, rfl, rfl, rfl⟩) ⟨rfl, rfl, rfl⟩ ⟨(hplace.1 hown).2, hplace.2⟩
  | failSet p =>
    simp only [hpc, StartAt] at hplace
    obtain ⟨rfl, hset, hran⟩ := hplace
    simp only [ThreadOk, hpc] at hthread
    obtain rfl := by simpa [internalEntry, hpc] using hs
    refine Starts.answer .destructors h hI (by simp [hpc]) (by simp [State.status, hthread.1])
      ⟨setsOf_answer hset _, ?_⟩
    show (s.ranBy t).length ≤ 1
    simp [hran]
  | destructors =>
    simp only [hpc, StartAt] at hplace
    simp only [internalEntry, hpc] at hs
    split at hs <;> obtain rfl := Option.some.inj hs
    · exact Starts.pass .listDelete h hI (by simp [hpc]) rfl ⟨rfl, rfl, rfl, rfl⟩
        (fun _ => ⟨rfl, rfl, rfl, rfl⟩) ⟨rfl, rfl, rfl⟩ hplace
    · exact Starts.pass .finished h hI (by simp [hpc]) rfl ⟨rfl, rfl, rfl, rfl⟩
        (fun _ => ⟨rfl, rfl, rfl, rfl⟩) ⟨rfl, rfl, rfl⟩ hplace
  | listDelete =>
    simp only [hpc, StartAt] at hplace
    simp only [internalEntry, hpc] at hs
    obtain ⟨e, he, rfl⟩ := Option.map_eq_some_iff.mp hs
    exact Starts.pass (.freeSuspend e.suspend) h hI (by simp [hpc]) rfl ⟨rfl, rfl, rfl, rfl⟩
      (fun _ => ⟨rfl, rfl, rfl, rfl⟩) ⟨rfl, rfl, rfl⟩ hplace
  | freeSuspend m =>
    simp only [hpc, StartAt] at hplace
    simp only [internalEntry, hpc] at hs
    obtain ⟨x, rfl, rfl⟩ := Option.map_eq_some_iff.mp hs
    exact Starts.pass .keyDelete h hI (by simp [hpc]) rfl ⟨rfl, rfl, rfl, rfl⟩
      (fun _ => ⟨rfl, rfl, rfl, rfl⟩) ⟨rfl, rfl, rfl⟩ hplace
  | keyDelete =>
    simp only [hpc, StartAt] at hplace
    obtain rfl := by simpa [internalEntry, hpc] using hs
    exact Starts.pass .destructors h hI (by simp [hpc]) rfl ⟨rfl, rfl, rfl, rfl⟩
      (fun _ => ⟨rfl, rfl, rfl, rfl⟩) ⟨rfl, rfl, rfl⟩ hplace

lemma Starts.goCall {pc : CreatePc} (h : Starts s) {s₁ : State F A}
    (hsame : s₁.threads = s.threads ∧ s₁.tcb = s.tcb ∧ s₁.func = s.func ∧ s₁.arg = s.arg ∧
      s₁.block = s.block ∧ s₁.failed = s.failed ∧ s₁.sets = s.sets ∧ s₁.ran = s.ran)
    (hcr : s₁.creators = Function.update s.creators c pc) (hpc : ∀ b, pc ≠ .create b) :
    Starts s₁ := by
  obtain ⟨h1, h2, h3, h4, h5, h6, h7, h8⟩ := hsame
  have hrecord : ∀ b c, Record s₁ b c ↔ Record s b c := fun b c => by
    rw [Record, Carries, h5, h3, h4]
    rfl
  refine ⟨fun u => (h.place u).left ⟨by rw [h1], by rw [h2], by rw [h3], by rw [h4],
    .inr (.inl ⟨(hrecord _ _).mpr, ?_, by rw [h5]; exact id⟩), by rw [h6],
    by rw [State.setsOf, h7]; rfl, by rw [State.ranBy, h8]; rfl⟩, fun c' b hc => ?_, ?_, ?_⟩
  · rw [Carries, Carries, h5, h3, h4]
    exact id
  · rw [hcr] at hc
    by_cases hcc : c' = c
    · subst hcc
      exact absurd (by simpa using hc) (hpc b)
    · rw [Function.update_of_ne hcc] at hc
      exact (hrecord b c').mpr (h.created c' b hc)
  · rw [h7]
    intro e he
    rw [State.status, h6]
    exact h.sets e he
  · rw [h8, h3, h4]
    exact h.ran

lemma Starts.write (h : Starts s) (hI : Inv s) (hpc : s.creators c = .write b) :
    Starts ((s.setTcb b ⟨0, s.func c, s.arg c, some c, none, c⟩).goCall c (.create b)) := by
  have hun := hI.unborn (c := c) (by simp [hpc]) (by simp [hpc])
  have hat : BucketAt s b (.call c) := by simp [BucketAt, State.bucket, hpc, CreatePc.held]
  refine ⟨fun u => (h.place u).left ⟨rfl, rfl, rfl, rfl, ?_, Iff.rfl, rfl, rfl⟩, fun c' b' hc => ?_,
    h.sets, h.ran⟩
  · by_cases hb : s.tcb u = b
    · by_cases huc : u = c
      · exact .inl (huc ▸ hun)
      · refine .inr (.inr ⟨?_, by simp [State.goCall, State.setTcb, hb, Ne.symm huc]⟩)
        by_contra hhas
        have hbu : BucketAt s b (.call u) := hb ▸ hI.bucket_of (by simpa using hhas)
        exact huc (by simpa using hI.buckets.uniq b (.call u) (.call c) hbu hat)
    · refine .inr (.inl ?_)
      simp [Record, Carries, State.goCall, State.setTcb, hb]
  · by_cases hcc : c' = c
    · subst hcc
      obtain rfl : b = b' := by simpa [State.goCall] using hc
      simp [Record, Carries, State.goCall, State.setTcb]
    · have hc' : s.creators c' = .create b' := by simpa [State.goCall, State.setTcb, hcc] using hc
      have hne : b' ≠ b := by
        rintro rfl
        have hat' : BucketAt s b' (.call c') := by
          simp [BucketAt, State.bucket, hc', CreatePc.held]
        exact hcc (by simpa using hI.buckets.uniq b' (.call c') (.call c) hat' hat)
      have := h.created c' b' hc'
      simpa [Record, Carries, State.goCall, State.setTcb, hne] using this

lemma starts_step {act : Act F A} (h : Starts s) (hI : Inv s) (hown : OwnRecord s act)
    (hs : next s act = some s') : Starts s' := by
  cases act with
  | call g x =>
    cases g with
    | none =>
      obtain rfl := Option.some.inj hs
      exact h
    | some g =>
      obtain rfl := Option.some.inj hs
      have hidle := hI.calls.future s.count (Nat.le_refl _)
      have hun := hI.unborn (c := s.count) (by simp [hidle]) (by simp [hidle])
      have hnew := h.place s.count
      simp only [hun, StartAt] at hnew
      refine ⟨fun u => ?_, fun c' b' hc => ?_, h.sets, fun e he => ?_⟩
      · by_cases hu : u = s.count
        · subst hu
          simp only [hun, StartAt]
          exact hnew
        · refine (h.place u).left ⟨rfl, rfl, by simp [hu], by simp [hu], .inr (.inl ⟨?_, ?_, id⟩),
            Iff.rfl, rfl, rfl⟩
          · simp [Record, Carries, hu]
          · simp [Carries, hu]
      · have hne : c' ≠ s.count := by
          rintro rfl
          simp at hc
        have := h.created c' b' (by simpa [hne] using hc)
        simpa [Record, Carries, hne] using this
      · have hne : e.1 ≠ s.count := by
          intro hee
          have hmem : e ∈ s.ranBy s.count := List.mem_filter.mpr ⟨he, by simp [hee]⟩
          simp [hnew.2.2] at hmem
        simpa [hne] using h.ran e he
  | create c =>
    simp only [next, thrdCreate] at hs
    split at hs
    · split at hs <;> obtain rfl := Option.some.inj hs <;>
        exact h.goCall ⟨rfl, rfl, rfl, rfl, rfl, rfl, rfl, rfl⟩ rfl (by simp)
    · rename_i b hpc
      obtain rfl := Option.some.inj hs
      exact h.write hI hpc
    · obtain ⟨v, -, rfl⟩ := Option.map_eq_some_iff.mp hs
      exact h.goCall ⟨rfl, rfl, rfl, rfl, rfl, rfl, rfl, rfl⟩ rfl (by simp)
    · simp at hs
  | start c k =>
    simp only [next] at hs
    split at hs
    · rename_i b hpc
      split at hs
      · obtain rfl := Option.some.inj hs
        have hun := hI.unborn (c := c) (by simp [hpc]) (by simp [hpc])
        have hold := h.place c
        simp only [hun, StartAt] at hold
        refine ⟨fun u => ?_, fun c' b' hc => ?_, h.sets, h.ran⟩
        · by_cases hu : u = c
          · subst hu
            simp only [Function.update_self]
            refine ⟨?_, hold⟩
            have := h.created u b hpc
            simpa [Record, Carries] using this
          · exact (h.place u).left ⟨by simp [hu], by simp [hu], rfl, rfl,
              .inr (.inl ⟨id, id, id⟩), Iff.rfl, rfl, rfl⟩
        · have hne : c' ≠ c := by
            rintro rfl
            simp at hc
          exact h.created c' b' (by simpa [hne] using hc)
      · simp at hs
    · simp at hs
  | startFail c =>
    simp only [next] at hs
    split at hs
    · obtain rfl := Option.some.inj hs
      exact h.goCall ⟨rfl, rfl, rfl, rfl, rfl, rfl, rfl, rfl⟩ rfl (by simp)
    · simp at hs
  | step t key ok => exact internalEntry_starts h hI hown hs
  | exit t =>
    simp only [next] at hs
    split at hs
    · rename_i hpc
      obtain rfl := Option.some.inj hs
      have hplace := h.place t
      simp only [hpc, StartAt] at hplace
      exact Starts.pass .destructors h hI (by simp [hpc]) rfl ⟨rfl, rfl, rfl, rfl⟩
        (fun _ => ⟨rfl, rfl, rfl, rfl⟩) ⟨rfl, rfl, rfl⟩ hplace
    · simp at hs

/-! ### What threads run -/

/-- Whether the thread has reached the call of its function or returned from `internal_entry`. -/
def EntryPc.entered : EntryPc F A → Bool
  | .call _ _ | .running | .destructors | .listDelete | .freeSuspend _ | .keyDelete
  | .finished => true
  | _ => false

/-- Every thread calls its own function with its own argument, at most once, and the promise of
its call is set at most once, by it, with its status, before it calls the function or ends. -/
structure StartsOk (s : State F A) : Prop where
  own : ∀ t f a, (t, f, a) ∈ s.ran → f = s.func t ∧ a = s.arg t
  once : ∀ t, (s.ranBy t).length ≤ 1
  setOnce : ∀ p, (s.setsOf p).length ≤ 1
  setBy : ∀ p t v, (p, t, v) ∈ s.sets → t = p ∧ v = s.status t
  isSet : ∀ t, (s.threads t).entered = true → (t, t, s.status t) ∈ s.sets

lemma startsOk (h : Starts s) : StartsOk s := by
  refine ⟨fun t f a hm => h.ran _ hm, fun t => ?_, fun p => ?_, fun p t v hm => ?_, fun t ht => ?_⟩
  · have hp := h.place t
    cases hpc : s.threads t <;> simp only [hpc, StartAt] at hp <;> grind
  · have hp := h.place p
    cases hpc : s.threads p <;> simp only [hpc, StartAt] at hp <;> grind
  · obtain ⟨h1, h2⟩ := h.sets _ hm
    exact ⟨h1.symm, h2⟩
  · have hlen : (s.setsOf t).length = 1 := by
      have hp := h.place t
      cases hpc : s.threads t <;> simp only [hpc, StartAt, EntryPc.entered] at hp ht <;> grind
    obtain ⟨e, he⟩ := List.length_eq_one_iff.mp hlen
    have hmem : e ∈ s.sets.filter (·.1 == t) := by
      show e ∈ s.setsOf t
      simp [he]
    obtain ⟨hin, hkey⟩ := List.mem_filter.mp hmem
    obtain ⟨g1, g2⟩ := h.sets e hin
    have het : e.1 = t := by simpa using hkey
    obtain ⟨p, u, v⟩ := e
    obtain rfl : p = t := het
    obtain rfl : p = u := g1
    obtain rfl : v = s.status p := g2
    exact hin

/-- **Every thread runs its own function** in every run in which no thread uses a start block
that holds the data of another. -/
theorem thread_starts (h : Reach next OwnRecord (initial f a) s) : StartsOk s := by
  refine startsOk (h.inv (I := fun s => Inv s ∧ Starts s) ⟨initial_inv f a, ?_⟩
    fun u l v hu hok hn => ⟨inv_step hu.1 hn, starts_step hu.2 hu.1 hok hn⟩).2
  refine ⟨fun t => ⟨by simp [initial], rfl, rfl⟩, fun c b hc => ?_, by simp [initial],
    by simp [initial]⟩
  simp [initial] at hc

/-- Two threads start. -/
theorem thread_starts_two : ∃ s : State ℕ ℕ, Reach next OwnRecord (initial 0 0) s ∧
    s.ran = [(0, 0, 0), (1, 1, 0)] ∧ StartsOk s := by
  obtain ⟨s, hs, hp⟩ := exists_reach next OwnRecord (initial 0 0 : State ℕ ℕ)
    (fun s => decide (s.ran = [(0, 0, 0), (1, 1, 0)]))
    (creation 0 ++ setUp 0 7 ++ creation 1 ++ setUp 1 8) (by decide +kernel)
  exact ⟨s, hs, of_decide_eq_true hp, thread_starts hs⟩

/-- The first thread is stopped after it has answered its caller; eleven more are created, the
last of them in the block that the first gave back, and then the first calls its function. -/
theorem thread_runs_wrong_function : ¬ ∀ s : State ℕ ℕ,
    Reach next (fun _ _ => True) (initial 0 0) s → StartsOk s := by
  intro hall
  obtain ⟨s, hs, hp⟩ := exists_reach next (fun _ _ => True) (initial 0 0 : State ℕ ℕ)
    (fun s => decide ((0, 11, 0) ∈ s.ran ∧ s.func 0 = 0))
    (creation 0 ++ List.replicate 11 (.step 0 7 true) ++
      (List.range 10).flatMap (fun t => creation (t + 1) ++ setUp (t + 1) (t + 8)) ++
      creation 11 ++ List.replicate 3 (.step 0 7 true)) (by decide +kernel)
  obtain ⟨h1, h2⟩ := of_decide_eq_true hp
  have := ((hall s hs).own 0 11 0 h1).1
  omega

end CoopTasks.Threads
