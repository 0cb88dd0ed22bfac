import CoopTasks.QueueCreate
import Mathlib.Data.List.Induction

/-!
The history of a queue: values leave it in the order in which they were linked, each once.

`L` lists the values in the order of their linking. What has been taken is a prefix of it, and
what the nodes hold is the rest.
-/

namespace CoopTasks.Queue

open CoopTasks.Chain CoopTasks.Append CoopTasks.Advance CoopTasks.Placement CoopTasks.Machine

variable {V : Type*}

/-! ### Pairs in a list -/

section Pairs

variable {α β : Type*} {l l' : List α} {x y z : α}

lemma pair_sublist_snoc : [x, y].Sublist (l ++ [z]) ↔ [x, y].Sublist l ∨ x ∈ l ∧ y = z := by
  induction l with
  | nil => simp
  | cons a l ih =>
    rw [List.cons_append, List.sublist_cons_iff, List.sublist_cons_iff, ih]
    by_cases ha : x = a
    · subst ha; simp; tauto
    · simp [ha]

lemma pair_sublist_left (hnd : (l ++ l').Nodup) (h : [x, y].Sublist (l ++ l')) (hy : y ∈ l) :
    [x, y].Sublist l := by
  induction l' using List.reverseRecOn with
  | nil => simpa using h
  | append_singleton l' z ih =>
    rw [← List.append_assoc] at hnd h
    refine ih (List.nodup_append.mp hnd).1 ((pair_sublist_snoc.mp h).resolve_right ?_)
    rintro ⟨-, rfl⟩
    exact (List.nodup_append.mp hnd).2.2 y (List.mem_append_left _ hy) y (by simp) rfl

lemma pair_sublist_filterMap {f : α → Option β} {b b' : β}
    (h : [b, b'].Sublist (l.filterMap f)) :
    ∃ a a', [a, a'].Sublist l ∧ f a = some b ∧ f a' = some b' := by
  induction l with
  | nil => simp at h
  | cons a l ih =>
    cases hf : f a with
    | none =>
      rw [List.filterMap_cons_none hf] at h
      obtain ⟨x, y, hs, hx, hy⟩ := ih h
      exact ⟨x, y, hs.cons a, hx, hy⟩
    | some z =>
      rw [List.filterMap_cons_some hf, List.sublist_cons_iff] at h
      rcases h with h | ⟨r, hr, h⟩
      · obtain ⟨x, y, hs, hx, hy⟩ := ih h
        exact ⟨x, y, hs.cons a, hx, hy⟩
      · obtain ⟨rfl, rfl⟩ := List.cons.inj hr
        obtain ⟨y, hy, hfy⟩ := List.mem_filterMap.mp (List.singleton_sublist.mp h)
        exact ⟨a, y, (List.singleton_sublist.mpr hy).cons_cons a, hf, hfy⟩

lemma eq_of_nodup_filterMap {f : α → Option β} {b : β} (h : (l.filterMap f).Nodup) (hx : x ∈ l)
    (hy : y ∈ l) (hfx : f x = some b) (hfy : f y = some b) : x = y := by
  induction l with
  | nil => simp at hx
  | cons a l ih =>
    have hmem : ∀ w ∈ l, f w = some b → f a ≠ some b := by
      intro w hw hfw hfa
      rw [List.filterMap_cons_some hfa] at h
      exact (List.nodup_cons.mp h).1 (List.mem_filterMap.mpr ⟨w, hw, hfw⟩)
    have hl : (l.filterMap f).Nodup := by
      cases hf : f a with
      | none => rwa [List.filterMap_cons_none hf] at h
      | some z => rw [List.filterMap_cons_some hf] at h; exact h.of_cons
    rcases List.mem_cons.mp hx with rfl | hx' <;> rcases List.mem_cons.mp hy with rfl | hy'
    · rfl
    · exact absurd hfx (hmem y hy' hfy)
    · exact absurd hfy (hmem x hx' hfx)
    · exact ih hl hx' hy'

end Pairs

/-! ### What the log says -/

/-- The number of the call an event belongs to. -/
def Event.call : Event V → ℕ
  | .enqueue a _ | .enqueued a | .dequeue a _ | .take a _ | .dequeued a _ | .failed a _ => a

def Event.taken : Event V → Option (Item V)
  | .take _ item => some item
  | _ => none

/-- What the dequeues have taken, in this order. -/
def takes (log : List (Event V)) : List (Item V) := log.filterMap Event.taken

/-- A dequeue delivers what it has taken, if it was asked for it. -/
def Delivers (log : List (Event V)) (d : ℕ) (buf : Option (Item V)) : Prop :=
  ∃ val a v, .dequeue d val ∈ log ∧ .take d (some (a, v)) ∈ log ∧
    buf = if val then some (some (a, v)) else none

/-- The numbers of the calls that linked the values. -/
abbrev ids (L : List (ℕ × V)) : List ℕ := L.map Prod.fst

/-- The log fits the order of linking. -/
structure LogOk (log : List (Event V)) (count : ℕ) (L : List (ℕ × V)) : Prop where
  nodup : (ids L).Nodup
  called : ∀ a v, (a, v) ∈ L → .enqueue a v ∈ log
  fresh : ∀ e ∈ log, e.call < count
  unique : ∀ a v v', .enqueue a v ∈ log → .enqueue a v' ∈ log → v = v'
  linked : ∀ a, .enqueued a ∈ log → a ∈ ids L
  fifo : ∀ a b v, [.enqueued a, .enqueue b v].Sublist log → b ∈ ids L → [a, b].Sublist (ids L)
  takers : ∀ d x y, .take d x ∈ log → .take d y ∈ log → x = y
  delivers : ∀ d buf, .dequeued d buf ∈ log → Delivers log d buf

/-- The events that may come next. -/
def Admits (log : List (Event V)) (count : ℕ) (L : List (ℕ × V)) : Event V → Prop
  | .enqueue a _ => count ≤ a
  | .enqueued a => a ∈ ids L
  | .take d _ => ∀ item, .take d item ∉ log
  | .dequeued d buf => Delivers log d buf
  | .dequeue _ _ | .failed _ _ => True

variable {log : List (Event V)} {k k' : ℕ} {L : List (ℕ × V)} {e : Event V}

lemma Delivers.note {d : ℕ} {buf : Option (Item V)} (h : Delivers log d buf) (es : List (Event V)) :
    Delivers (log ++ es) d buf := by
  obtain ⟨val, a, v, h1, h2, h3⟩ := h
  exact ⟨val, a, v, List.mem_append_left _ h1, List.mem_append_left _ h2, h3⟩

lemma LogOk.called_id (h : LogOk log k L) {a : ℕ} (ha : a ∈ ids L) : a < k := by
  obtain ⟨⟨a, v⟩, hm, rfl⟩ := List.mem_map.mp ha
  exact h.fresh _ (h.called a v hm)

lemma LogOk.note (h : LogOk log k L) (hk : k ≤ k') (he : e.call < k') (ha : Admits log k L e) :
    LogOk (log ++ [e]) k' L where
  nodup := h.nodup
  called a v hm := List.mem_append_left _ (h.called a v hm)
  fresh e' he' := by
    rcases List.mem_append.mp he' with h' | h'
    · exact (h.fresh e' h').trans_le hk
    · obtain rfl := List.mem_singleton.mp h'
      exact he
  unique a v v' h1 h2 := by
    have hnew : ∀ w, .enqueue a w ∈ log → ∀ w', .enqueue a w' ≠ e := by
      rintro w hw w' rfl
      exact absurd (h.fresh _ hw) (not_lt.mpr ha)
    rcases List.mem_append.mp h1 with h1 | h1 <;> rcases List.mem_append.mp h2 with h2 | h2
    · exact h.unique a v v' h1 h2
    · exact absurd (List.mem_singleton.mp h2) (hnew v h1 v')
    · exact absurd (List.mem_singleton.mp h1) (hnew v' h2 v)
    · have := (List.mem_singleton.mp h1).trans (List.mem_singleton.mp h2).symm
      simpa using this
  linked a h' := by
    rcases List.mem_append.mp h' with h' | h'
    · exact h.linked a h'
    · obtain rfl := List.mem_singleton.mp h'
      exact ha
  fifo a b v hs hb := by
    rcases pair_sublist_snoc.mp hs with hs | ⟨-, rfl⟩
    · exact h.fifo a b v hs hb
    · exact absurd (h.called_id hb) (not_lt.mpr ha)
  takers d x y hx hy := by
    rcases List.mem_append.mp hx with hx' | hx' <;> rcases List.mem_append.mp hy with hy' | hy'
    · exact h.takers d x y hx' hy'
    · obtain rfl := List.mem_singleton.mp hy'
      exact absurd hx' (ha x)
    · obtain rfl := List.mem_singleton.mp hx'
      exact absurd hy' (ha y)
    · have := (List.mem_singleton.mp hx').trans (List.mem_singleton.mp hy').symm
      simpa using this
  delivers d buf h' := by
    rcases List.mem_append.mp h' with h' | h'
    · exact (h.delivers d buf h').note _
    · obtain rfl := List.mem_singleton.mp h'
      exact Delivers.note ha _

lemma LogOk.link (h : LogOk log k L) {a : ℕ} {v : V} (hc : .enqueue a v ∈ log) (ha : a ∉ ids L) :
    LogOk log k (L ++ [(a, v)]) where
  nodup := by
    rw [ids, List.map_append]
    exact List.nodup_append.mpr ⟨h.nodup, by simp, by
      rintro x hx y hy rfl
      obtain rfl : x = a := by simpa using hy
      exact ha hx⟩
  called a' v' hm := by
    rcases List.mem_append.mp hm with hm | hm
    · exact h.called a' v' hm
    · obtain ⟨rfl, rfl⟩ : a' = a ∧ v' = v := by simpa using hm
      exact hc
  fresh := h.fresh
  unique := h.unique
  linked a' h' := by
    rw [ids, List.map_append]
    exact List.mem_append_left _ (h.linked a' h')
  fifo a' b w hs hb := by
    rw [ids, List.map_append, List.map_singleton] at hb ⊢
    rcases List.mem_append.mp hb with hb | hb
    · exact (h.fifo a' b w hs hb).trans (List.sublist_append_left _ _)
    · exact pair_sublist_snoc.mpr (.inr ⟨h.linked a' (hs.subset (by simp)), by simpa using hb⟩)
  takers := h.takers
  delivers := h.delivers

/-! ### What the threads know -/

/-- The number of the call a thread is in. -/
def Pc.call : Pc V → Option ℕ
  | .enqueueAlloc a _ _ | .enqueueLoop a _ _ | .dequeueLoop a _ _ | .dequeueFree a _ => some a
  | _ => none

/-- What a thread has to do with the history. -/
def Knows (log : List (Event V)) (C : Cells ℕ (Item V)) (L : List (ℕ × V)) : Pc V → Prop
  | .enqueueAlloc a v _ => .enqueue a v ∈ log ∧ a ∉ ids L
  | .enqueueLoop a n pc => (pc.linked = true → a ∈ ids L) ∧
    (pc.linked = false → ∃ v, C.data n = some (a, v) ∧ .enqueue a v ∈ log ∧ a ∉ ids L)
  | .dequeueLoop d val _ => .dequeue d val ∈ log ∧ ∀ item, .take d item ∉ log
  | .dequeueFree d buf => Delivers log d buf
  | _ => True

structure Hist (s : QueueState V) (c : List ℕ) (L : List (ℕ × V)) : Prop where
  log : LogOk s.log s.count L
  order : takes s.log ++ c.tail.map s.mem.cells.data = L.map some
  threads : ∀ t, Knows s.log s.mem.cells L (s.pcs t)
  calls : ∀ t a, (s.pcs t).call = some a → a < s.count
  distinct : ∀ t u a, (s.pcs t).call = some a → (s.pcs u).call = some a → t = u

variable {s s' : QueueState V} {cap t : ℕ} {c c' c₁ : List ℕ} {C C' : Cells ℕ (Item V)}
  {pc : Pc V} {weak : Bool}

lemma Knows.frame {es : List (Event V)} {ls : List (ℕ × V)} (h : Knows log C L pc)
    (call : Pool.Call (Item V)) (hdata : ∀ n, pc.held call = some n → C'.data n = C.data n)
    (hes : ∀ e ∈ es, pc.call ≠ some e.call) (hls : ∀ p ∈ ls, pc.call ≠ some p.1) :
    Knows (log ++ es) C' (L ++ ls) pc := by
  have hids : ∀ a, pc.call = some a → a ∉ ids L → a ∉ ids (L ++ ls) := by
    intro a ha hL hmem
    rw [ids, List.map_append] at hmem
    rcases List.mem_append.mp hmem with hmem | hmem
    · exact hL hmem
    · obtain ⟨p, hp, rfl⟩ := List.mem_map.mp hmem
      exact hls p hp ha
  cases pc with
  | idle | returned | createPool | createAlloc | createEnds => trivial
  | enqueueAlloc a v pc => exact ⟨List.mem_append_left _ h.1, hids a rfl h.2⟩
  | enqueueLoop a n pc =>
    refine ⟨fun hlk => ?_, fun hlk => ?_⟩
    · rw [ids, List.map_append]
      exact List.mem_append_left _ (h.1 hlk)
    · obtain ⟨v, h1, h2, h3⟩ := h.2 hlk
      exact ⟨v, (hdata n (by simp [Pc.held, hlk])).trans h1, List.mem_append_left _ h2,
        hids a rfl h3⟩
  | dequeueLoop d val pc =>
    refine ⟨List.mem_append_left _ h.1, fun item hmem => ?_⟩
    rcases List.mem_append.mp hmem with hmem | hmem
    · exact h.2 item hmem
    · exact hes _ hmem rfl
  | dequeueFree d buf => exact Delivers.note h es

lemma takes_append (es : List (Event V)) : takes (log ++ es) = takes log ++ takes es := by
  simp [takes]

lemma Hist.moved (h : Hist s c L) (hI : Inv cap s c₁ c) (hmv : Moved s s' t c c')
    {es : List (Event V)} {ls : List (ℕ × V)} (hlog : s'.log = s.log ++ es)
    (hok : LogOk s'.log s.count (L ++ ls))
    (horder : takes es ++ c'.tail.map s'.mem.cells.data =
      c.tail.map s.mem.cells.data ++ ls.map some)
    (hknows : Knows s'.log s'.mem.cells (L ++ ls) (s'.pcs t))
    (hcall : ∀ a, (s'.pcs t).call = some a → (s.pcs t).call = some a)
    (hes : ∀ e ∈ es, (s.pcs t).call = some e.call)
    (hls : ∀ p ∈ ls, (s.pcs t).call = some p.1) : Hist s' c' (L ++ ls) where
  log := by rw [hmv.count]; exact hok
  order := by
    rw [hlog, takes_append, List.append_assoc, horder, ← List.append_assoc, h.order,
      ← List.map_append]
  threads u := by
    by_cases hu : u = t
    · subst hu; exact hknows
    · rw [hmv.others u hu, hlog]
      refine (h.threads u).frame (s.mem.calls u) (fun n hn => ?_) (fun e he hc => ?_)
        fun p hp hc => ?_
      · refine hmv.data n (hI.owned_of_held (t := u) hn) fun hn' => ?_
        exact hu (hI.held_inj hn' hn)
      · exact hu (h.distinct u t _ hc (hes e he))
      · exact hu (h.distinct u t _ hc (hls p hp))
  calls u a ha := by
    rw [hmv.count]
    by_cases hu : u = t
    · subst hu; exact h.calls u a (hcall a ha)
    · rw [hmv.others u hu] at ha; exact h.calls u a ha
  distinct u w a ha hb := by
    have hback : ∀ u, (s'.pcs u).call = some a → (s.pcs u).call = some a := by
      intro u ha
      by_cases hu : u = t
      · subst hu; exact hcall a ha
      · rwa [hmv.others u hu] at ha
    exact h.distinct u w a (hback u ha) (hback w hb)

/-- What a step does to the history. -/
theorem hist_step (h : Hist s c L) (hI : Inv cap s c₁ c) (hmv : Moved s s' t c c') :
    ∃ L', Hist s' c' L' := by
  have hdata : ∀ n ∈ c, s'.mem.cells.data n = s.mem.cells.data n := fun n hn =>
    hmv.data n (hI.owned_of_mem hn) fun hn' => hI.not_mem_of_held hn' hn
  have hmap : c.tail.map s'.mem.cells.data = c.tail.map s.mem.cells.data :=
    List.map_congr_left fun n hn => hdata n (List.mem_of_mem_tail hn)
  have hthread := h.threads t
  obtain ⟨es, hm, hlog⟩ := hmv.moves
  generalize hp : s.pcs t = p at hm hthread
  generalize hp' : s'.pcs t = p' at hm
  -- most steps leave the order of linking alone
  have hplain : ∀ es', s'.log = s.log ++ es' → c' = c → LogOk s'.log s.count L → takes es' = [] →
      Knows s'.log s'.mem.cells L (s'.pcs t) →
      (∀ a, (s'.pcs t).call = some a → (s.pcs t).call = some a) →
      (∀ e ∈ es', (s.pcs t).call = some e.call) → ∃ L', Hist s' c' L' := by
    intro es' hlog' hc hok htakes hknows hcall hes
    exact ⟨L ++ [], h.moved hI hmv hlog' (by simpa using hok) (by simp [htakes, hc, hmap])
      (by simpa using hknows) hcall hes (by simp)⟩
  have hkeep : es = [] → LogOk s'.log s.count L := fun he => by
    rw [hlog, he, List.append_nil]; exact h.log
  have hnote : ∀ {a : ℕ} {e : Event V}, es = [e] → (s.pcs t).call = some a → e.call = a →
      Admits s.log s.count L e → LogOk s'.log s.count L := by
    intro a e he ha hea hadm
    rw [hlog, he]
    exact h.log.note (le_refl _) (hea ▸ h.calls t a ha) hadm
  cases hm with
  | alloc =>
    refine hplain [] hlog rfl (hkeep rfl) rfl ?_ (by simp [hp, hp', Pc.call]) (by simp)
    rw [hp', hlog, List.append_nil]
    exact hthread
  | nomem _ =>
    exact hplain _ hlog rfl (hnote rfl (by rw [hp]; rfl) rfl trivial) rfl (by rw [hp']; trivial)
      (by simp [hp', Pc.call]) (by simp [hp, Pc.call, Event.call])
  | write hdat =>
    refine hplain [] hlog rfl (hkeep rfl) rfl ?_ (by simp [hp, hp', Pc.call]) (by simp)
    rw [hp', hlog, List.append_nil]
    exact ⟨by simp [PutPc.linked], fun _ => ⟨_, hdat, hthread⟩⟩
  | loop hdat hlk =>
    refine hplain [] hlog rfl (hkeep rfl) rfl ?_ (by simp [hp, hp', Pc.call]) (by simp)
    rw [hp', hlog, List.append_nil]
    exact ⟨fun hl => hthread.1 (hlk ▸ hl), fun hl => by rw [hdat]; exact hthread.2 (hlk ▸ hl)⟩
  | done hlk =>
    exact hplain _ hlog rfl (hnote rfl (by rw [hp]; rfl) rfl (hthread.1 hlk)) rfl
      (by rw [hp']; trivial) (by simp [hp', Pc.call]) (by simp [hp, Pc.call, Event.call])
  | look =>
    refine hplain [] hlog rfl (hkeep rfl) rfl ?_ (by simp [hp, hp', Pc.call]) (by simp)
    rw [hp', hlog, List.append_nil]
    exact hthread
  | empty =>
    exact hplain _ hlog rfl (hnote rfl (by rw [hp]; rfl) rfl trivial) rfl (by rw [hp']; trivial)
      (by simp [hp', Pc.call]) (by simp [hp, Pc.call, Event.call])
  | free =>
    refine hplain [] hlog rfl (hkeep rfl) rfl ?_ (by simp [hp, hp', Pc.call]) (by simp)
    rw [hp', hlog, List.append_nil]
    exact hthread
  | ret =>
    exact hplain _ hlog rfl (hnote rfl (by rw [hp]; rfl) rfl hthread) rfl
      (by rw [hp']; trivial) (by simp [hp', Pc.call]) (by simp [hp, Pc.call, Event.call])
  | @link a n pc pc' hdat hlk hlk' =>
    obtain ⟨v, hv, hcalled, hnew⟩ := hthread.2 hlk
    have hok := h.log.link hcalled hnew
    have hne : c ≠ [] := hI.linked.ne_nil
    refine ⟨L ++ [(a, v)], h.moved hI hmv hlog (by simpa [hlog] using hok) ?_ ?_
      (by simp [hp, hp', Pc.call]) (by simp) (by simp [hp, Pc.call])⟩
    · rw [List.tail_append_of_ne_nil hne, List.map_append, hmap]
      simp [takes, hdat, hv]
    · rw [hp']
      exact ⟨fun _ => by simp [ids], fun hl => by simp [hlk'] at hl⟩
  | @take d val pc n m q hc =>
    obtain ⟨hdeq, hfirst⟩ := hthread
    have horder := h.order
    rw [hc, List.tail_cons, List.map_cons] at horder
    obtain ⟨⟨a, v⟩, -, hav⟩ : ∃ p ∈ L, some p = s.mem.cells.data m :=
      List.mem_map.mp (by rw [← horder]; simp)
    refine ⟨L ++ [], h.moved hI hmv hlog ?_ ?_ ?_ (by simp [hp, hp', Pc.call])
      (by simp [hp, Pc.call, Event.call]) (by simp)⟩
    · rw [List.append_nil]
      exact hnote rfl (by rw [hp]; rfl) rfl hfirst
    · rw [hc] at hmap ⊢
      simp only [List.tail_cons, List.map_cons, List.cons.injEq] at hmap ⊢
      simp [takes, Event.taken, hmap.2]
    · rw [hp', hlog, ← hav]
      exact ⟨val, a, v, List.mem_append_left _ hdeq, by simp, rfl⟩

end CoopTasks.Queue
