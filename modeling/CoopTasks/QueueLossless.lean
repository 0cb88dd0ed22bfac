import CoopTasks.QueueHistory

/-!
No value is lost or duplicated by a queue, whatever the threads do, as long as no word that it
or its pool compares was replaced by an equal one behind a thread's back.
-/

namespace CoopTasks.Queue

open CoopTasks.Chain CoopTasks.Append CoopTasks.Advance CoopTasks.Placement CoopTasks.Machine
open CoopTasks.SizeT

variable {V : Type*} {s s' s₀ : QueueState V} {cap t : ℕ} {c c₁ c₂ : List ℕ}
  {L : List (ℕ × V)} {weak : Bool}

/-- Each value whose enqueue has returned is queued until it is taken, once; each dequeue that
has returned delivers what it took; and values whose enqueues follow each other leave in that
order. -/
structure Lossless (s : QueueState V) : Prop where
  kept : ∀ a v, .enqueue a v ∈ s.log → .enqueued a ∈ s.log →
    (some (a, v) ∈ s.queued ∧ ∀ d, .take d (some (a, v)) ∉ s.log) ∨
      some (a, v) ∉ s.queued ∧ ∃! d, .take d (some (a, v)) ∈ s.log
  once : (takes s.log ++ s.queued).Nodup
  called : ∀ d item, .take d item ∈ s.log → ∃ a v, item = some (a, v) ∧ .enqueue a v ∈ s.log
  takers : ∀ d x y, .take d x ∈ s.log → .take d y ∈ s.log → x = y
  delivers : ∀ d buf, .dequeued d buf ∈ s.log → Delivers s.log d buf
  fifo : ∀ a b v d w, [.enqueued a, .enqueue b v].Sublist s.log →
    .take d (some (b, w)) ∈ s.log →
      ∃ d' w', [.take d' (some (a, w')), .take d (some (b, w))].Sublist s.log

lemma chain_eq (hI : Inv cap s c₁ c₂) : s.chain = c₂ := by
  have hlen : c₂.length ≤ cap + 2 := by
    have hsub : c₂ ⊆ List.range (cap + 2) := fun f hf =>
      List.mem_range.mpr (hI.pool.placed.mem f (.client 0) (hI.owned_of_mem hf))
    simpa using hI.linked.nodup.length_le_of_subset hsub
  rw [QueueState.chain, hI.capacity, hI.linked.head]
  exact follow_path hI.linked.path hlen

/-- The queue is sound, and its log fits an order in which the values were linked. -/
def Sound (cap : ℕ) (s : QueueState V) : Prop :=
  ∃ c₁ c₂ L, Inv cap s c₁ c₂ ∧ Hist s c₂ L

lemma Hist.begin (h : Hist s c L) {e : Event V} {pc : Pc V} (hlog : s'.log = s.log ++ [e])
    (hcount : s'.count = s.count + 1) (hcells : s'.mem.cells = s.mem.cells)
    (hpcs : s'.pcs = Function.update s.pcs t pc) (he : e.call = s.count)
    (hadm : Admits s.log s.count L e) (htaken : e.taken = none)
    (hknows : Knows (s.log ++ [e]) s.mem.cells L pc)
    (hcall : ∀ a, pc.call = some a → a = s.count) : Hist s' c L where
  log := by rw [hlog, hcount]; exact h.log.note (by omega) (by omega) hadm
  order := by
    rw [hlog, takes_append, hcells, ← h.order]
    simp [takes, htaken]
  threads u := by
    rw [hlog, hcells, hpcs]
    by_cases hu : u = t
    · subst hu; simpa using hknows
    · rw [Function.update_of_ne hu, ← List.append_nil L]
      refine (h.threads u).frame (s.mem.calls u) (fun _ _ => rfl) (fun e' he' hc => ?_)
        (by simp)
      obtain rfl := List.mem_singleton.mp he'
      have := h.calls u _ hc
      omega
  calls u a ha := by
    rw [hcount]
    rw [hpcs] at ha
    by_cases hu : u = t
    · subst hu
      have := hcall a (by simpa using ha)
      omega
    · rw [Function.update_of_ne hu] at ha
      have := h.calls u a ha
      omega
  distinct u w a ha hb := by
    have hother : ∀ u, u ≠ t → (s'.pcs u).call = some a → (s.pcs u).call = some a ∧ a < s.count :=
      fun u hu ha => by
        rw [hpcs, Function.update_of_ne hu] at ha
        exact ⟨ha, h.calls u a ha⟩
    have hself : (s'.pcs t).call = some a → a = s.count := fun ha =>
      hcall a (by simpa [hpcs] using ha)
    by_cases hu : u = t <;> by_cases hw : w = t
    · rw [hu, hw]
    · subst hu
      have := hself ha
      have := (hother w hw hb).2
      omega
    · subst hw
      have := hself hb
      have := (hother u hu ha).2
      omega
    · exact h.distinct u w a (hother u hu ha).1 (hother w hw hb).1

theorem sound_step {a : Act V} (h : Sound cap s) (hfresh : Fresh s a) (hs : next s a = some s') :
    Sound cap s' := by
  obtain ⟨c₁, c₂, L, hI, hH⟩ := h
  cases a with
  | enqueue t val =>
    simp only [next] at hs
    cases hout : (s.pcs t).outside with
    | false => simp [hout] at hs
    | true =>
      cases val with
      | none =>
        obtain rfl := by simpa [hout] using hs
        refine ⟨c₁, c₂, L, ((hI.setCount _).note _).goOutside hout rfl id,
          hH.begin rfl rfl rfl rfl rfl trivial rfl trivial (by simp [Pc.call])⟩
      | some v =>
        obtain rfl := by simpa [hout] using hs
        refine ⟨c₁, c₂, L, ((hI.mempoolAlloc hout).setCount (s.count + 1)).note
          (.enqueue s.count v), hH.begin rfl rfl rfl rfl rfl (le_refl _) rfl
          ⟨by simp, fun hmem => ?_⟩ (by simp [Pc.call])⟩
        exact absurd (hH.log.called_id hmem) (lt_irrefl _)
  | dequeue t val =>
    simp only [next] at hs
    cases hout : (s.pcs t).outside with
    | false => simp [hout] at hs
    | true =>
      obtain rfl := by simpa [hout] using hs
      refine ⟨c₁, c₂, L, ((hI.setCount _).note _).goOutside hout rfl fun h => ⟨h, trivial⟩,
        hH.begin rfl rfl rfl rfl rfl trivial rfl ⟨by simp, fun item hmem => ?_⟩
          (by simp [Pc.call])⟩
      rcases List.mem_append.mp hmem with hmem | hmem
      · exact absurd (hH.log.fresh _ hmem) (lt_irrefl _)
      · simp at hmem
  | step t weak =>
    obtain ⟨hf1, hf2⟩ := hfresh
    rw [hI.pool.chain_eq hI.capacity] at hf1
    rw [chain_eq hI] at hf2
    obtain ⟨c₁', c₂', hI', hmv, -⟩ := threadStep_inv hI hf1 hf2 hs
    obtain ⟨L', hH'⟩ := hist_step hH hI hmv
    exact ⟨c₁', c₂', L', hI', hH'⟩

theorem sound_of_reach (hmax : cap + 2 ≤ sizeMax) (h₀ : Created cap s₀)
    (h : Reach next Fresh s₀ s) : Sound cap s := by
  obtain ⟨⟨c₁, n, hI, -, -⟩, hlog, hcount, hout⟩ := created_inv hmax h₀
  have hcall : ∀ t, (s₀.pcs t).call = none := fun t => by
    have := hout t
    cases hpc : s₀.pcs t <;> simp_all [Pc.outside, Pc.call]
  refine h.inv ⟨c₁, [n], [], hI, ?_, ?_, fun t => ?_, fun t a ha => ?_, fun t u a ha => ?_⟩
    fun _ _ _ => sound_step
  · rw [hlog]
    constructor <;> simp
  · simp [hlog, takes]
  · have := hout t
    cases hpc : s₀.pcs t <;> simp_all [Pc.outside, Knows]
  · simp [hcall t] at ha
  · simp [hcall t] at ha

lemma mem_takes {log : List (Event V)} {item : Item V} :
    item ∈ takes log ↔ ∃ d, .take d item ∈ log := by
  rw [takes, List.mem_filterMap]
  constructor
  · rintro ⟨e, he, heq⟩
    cases e <;> simp [Event.taken] at heq
    subst heq
    exact ⟨_, he⟩
  · rintro ⟨d, hd⟩
    exact ⟨_, hd, rfl⟩

lemma taken_eq {e : Event V} {item : Item V} (h : e.taken = some item) : ∃ d, e = .take d item := by
  cases e <;> simp [Event.taken] at h
  exact ⟨_, by rw [h]⟩

lemma Sound.lossless (h : Sound cap s) : Lossless s := by
  obtain ⟨c₁, c₂, L, hI, hH⟩ := h
  have horder : takes s.log ++ s.queued = L.map some := by
    rw [QueueState.queued, chain_eq hI]
    exact hH.order
  have hnd : (takes s.log ++ s.queued).Nodup := by
    rw [horder]
    exact (List.Nodup.of_map _ hH.log.nodup).map (Option.some_injective _)
  have hmem : ∀ a v,
      (a, v) ∈ L ↔ some (a, v) ∈ takes s.log ∨ some (a, v) ∈ s.queued := fun a v => by
    rw [← List.mem_append, horder]
    simp
  have hone : ∀ {d d' : ℕ} {item}, .take d item ∈ s.log → .take d' item ∈ s.log → d = d' := by
    intro d d' item hd hd'
    have := eq_of_nodup_filterMap (List.nodup_append.mp hnd).1 hd hd' rfl rfl
    simpa using this
  refine ⟨fun a v hcall hret => ?_, hnd, fun d item hd => ?_, hH.log.takers, hH.log.delivers,
    fun a b v d w hs hd => ?_⟩
  · -- the value was linked, so it is in what was taken or in what is queued
    obtain ⟨⟨a', v'⟩, hL, rfl⟩ := List.mem_map.mp (hH.log.linked a hret)
    obtain rfl := hH.log.unique _ _ _ hcall (hH.log.called _ _ hL)
    rcases (hmem _ _).mp hL with htaken | hqueued
    · obtain ⟨d, hd⟩ := mem_takes.mp htaken
      exact .inr ⟨fun hq => (List.nodup_append.mp hnd).2.2 _ htaken _ hq rfl, d, hd,
        fun d' hd' => hone hd' hd⟩
    · exact .inl ⟨hqueued, fun d hd => (List.nodup_append.mp hnd).2.2 _ (mem_takes.mpr ⟨d, hd⟩) _
        hqueued rfl⟩
  · have hL : item ∈ L.map some := by
      rw [← horder]
      exact List.mem_append_left _ (mem_takes.mpr ⟨d, hd⟩)
    obtain ⟨⟨a, v⟩, hav, rfl⟩ := List.mem_map.mp hL
    exact ⟨a, v, rfl, hH.log.called a v hav⟩
  · have hids : ids L = (takes s.log).filterMap (Option.map Prod.fst) ++
        s.queued.filterMap (Option.map Prod.fst) := by
      rw [← List.filterMap_append, horder, List.filterMap_map]
      simp [ids]
    have hb : b ∈ (takes s.log).filterMap (Option.map Prod.fst) :=
      List.mem_filterMap.mpr ⟨_, mem_takes.mpr ⟨d, hd⟩, rfl⟩
    have hsub := hH.log.fifo a b v hs (by rw [hids]; exact List.mem_append_left _ hb)
    rw [hids] at hsub
    have hndids := hids ▸ hH.log.nodup
    obtain ⟨x, y, hxy, hx, hy⟩ := pair_sublist_filterMap (pair_sublist_left hndids hsub hb)
    obtain ⟨e, e', hee, hex, hey⟩ := pair_sublist_filterMap hxy
    obtain ⟨d', rfl⟩ := taken_eq hex
    obtain ⟨d'', rfl⟩ := taken_eq hey
    obtain ⟨⟨a', w'⟩, rfl, rfl⟩ := Option.map_eq_some_iff.mp hx
    have hyd : y = some (b, w) := eq_of_nodup_filterMap (List.nodup_append.mp hndids).1
      (hxy.subset (by simp)) (mem_takes.mpr ⟨d, hd⟩) hy rfl
    subst hyd
    obtain rfl : d = d'' := hone hd (hee.subset (by simp))
    exact ⟨d', w', hee⟩

lemma Bare.lossless (h : Bare s) : Lossless s := by
  have hno : ∀ e ∈ s.log, e.fruitless = false → False := fun e he hf => by
    rw [h.log e he] at hf
    cases hf
  have htakes : takes s.log = [] := List.eq_nil_iff_forall_not_mem.mpr fun item hitem => by
    obtain ⟨d, hd⟩ := mem_takes.mp hitem
    exact hno _ hd rfl
  have hqueued : s.queued = [] := by
    rw [QueueState.queued, QueueState.chain, h.dummy]
    rfl
  refine ⟨fun a v _ he => (hno _ he rfl).elim, ?_, fun d item he => (hno _ he rfl).elim,
    fun d x y he => (hno _ he rfl).elim, fun d buf he => (hno _ he rfl).elim,
    fun a b v d w _ he => (hno _ he rfl).elim⟩
  rw [htakes, hqueued]
  exact List.nodup_nil

/-- **No loss**: whatever `size_t` the capacity is, in every run in which no step is deceived by a
word that was replaced and looks the same again, the queue loses no value and delivers none
twice. -/
theorem queue_lossless (hcap : cap ≤ sizeMax) (h₀ : Created cap s₀) (h : Reach next Fresh s₀ s) :
    Lossless s := by
  by_cases hmax : cap + 2 ≤ sizeMax
  · exact (sound_of_reach hmax h₀ h).lossless
  · have hbare : Bare s := h.inv (created_bare hcap (Nat.lt_of_not_le hmax) h₀)
      fun _ _ _ hb _ hs => bare_step hb hs
    exact hbare.lossless

/-! ### Runs of a queue of two -/

/-- Steps of a thread inside its call, no compare-exchange failing spuriously. -/
def steps (t k : ℕ) : List (Act V) := List.replicate k (.step t false)

lemma exists_created [DecidableEq V] (cap : ℕ) (ok : QueueState V → Act V → Prop)
    [∀ s a, Decidable (ok s a)] (p : QueueState V → Bool) (make ls : List (Act V))
    (h : ((runIf next (fun _ a => a.isStep 0 = true) (raw cap) make).any fun s₀ =>
      decide (s₀.pcs 0 = .returned (.ok none)) && (runIf next ok s₀ ls).any p) = true) :
    ∃ s₀ s, Created cap s₀ ∧ Reach next ok s₀ s ∧ p s = true := by
  obtain ⟨s₀, h₀, hs⟩ := (Option.any_eq_true _ _).mp h
  simp only [Bool.and_eq_true, decide_eq_true_eq] at hs
  obtain ⟨s, hreach, hp⟩ := exists_reach next ok s₀ p ls hs.2
  exact ⟨s₀, s, ⟨reach_of_runIf h₀, hs.1⟩, hreach, hp⟩

/-- Two threads enqueue at the same time, and the second then dequeues what the first put. -/
theorem queue_lossless_two : ∃ s₀ s : QueueState ℕ, Created 2 s₀ ∧ Reach next Fresh s₀ s ∧
    s.queued = [some (1, 8)] ∧ Lossless s := by
  obtain ⟨s₀, s, h₀, hs, hp⟩ := exists_created 2 Fresh
    (fun s : QueueState ℕ => decide (s.queued = [some (1, 8)])) (steps 0 36)
    ([.enqueue 1 (some 7)] ++ steps 1 12 ++ [.enqueue 2 (some 8)] ++ steps 2 12 ++ steps 1 2 ++
      steps 2 6 ++ [.dequeue 2 true] ++ steps 2 14)
    (by decide +kernel)
  exact ⟨s₀, s, h₀, hs, by simpa using hp, queue_lossless (by decide) h₀ hs⟩

/-- Thread 1 is about to hang its node on the dummy when thread 2 enqueues, dequeues and so
gives the dummy back: `internal_mempool_put` resets the link that thread 1 has read, its
compare-exchange goes through, and its value hangs on a free fragment. -/
theorem queue_enqueue_hits_free : ¬ ∀ (cap : ℕ) (s₀ s : QueueState ℕ), Created cap s₀ →
    Reach next (fun _ a => a.strong = true) s₀ s → Lossless s := by
  intro hall
  obtain ⟨s₀, s, h₀, hs, hp⟩ := exists_created 2 (fun _ a => a.strong = true)
    (fun s : QueueState ℕ => decide (s.queued = []) && decide (s.log = [.enqueue 0 7, .enqueue 1 8,
      .enqueued 1, .dequeue 2 true, .take 2 (some (1, 8)), .dequeued 2 (some (some (1, 8))),
      .enqueued 0]))
    (steps 0 36)
    ([.enqueue 1 (some 7)] ++ steps 1 12 ++ [.enqueue 2 (some 8)] ++ steps 2 14 ++
      [.dequeue 2 true] ++ steps 2 14 ++ steps 1 2)
    (by decide +kernel)
  simp only [Bool.and_eq_true, decide_eq_true_eq] at hp
  obtain ⟨hqueued, hlog⟩ := hp
  rcases (hall 2 s₀ s h₀ hs).kept 0 7 (by simp [hlog]) (by simp [hlog]) with ⟨hq, -⟩ | ⟨-, d, hd, -⟩
  · simp [hqueued] at hq
  · simp [hlog] at hd

end CoopTasks.Queue
