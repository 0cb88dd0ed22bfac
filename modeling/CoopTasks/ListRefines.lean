import CoopTasks.ListCreate

/-!
Calls made one at a time on a list are answered as a bounded finite map answers.
-/

namespace CoopTasks.LockFreeList

open CoopTasks.Machine CoopTasks.SizeT

variable {V : Type*}

/-! ### Requests -/

/-- A call of one thread. -/
structure Request (V : Type*) where
  thread : ℕ
  op : Op V

/-- What a thread has returned. -/
def Thread.result (th : Thread ℕ V) : Option (Res V) :=
  match th.helps, th.pc with
  | [], .returned r => some r
  | _, _ => none

/-- Make a call and run it to its end, no compare-exchange failing spuriously. -/
def runRequest (fuel : ℕ) (s : ListState V) (q : Request V) : Option (ListState V × Res V) :=
  (callStep s q.thread q.op).bind
    (runAlone (threadStep · q.thread) (fun s => (s.threads q.thread).result) fuel [])

/-- Make calls one after the other. -/
def runRequests (fuel : ℕ) : ListState V → List (Request V) → Option (ListState V × List (Res V))
  | s, [] => some (s, [])
  | s, q :: qs =>
    (runRequest fuel s q).bind fun (s₁, r) =>
      (runRequests fuel s₁ qs).map fun (s₂, rs) => (s₂, r :: rs)

/-- What is seen of a list between calls. -/
structure Shows (cap : ℕ) (s : ListState V) (M : KeyMap V) : Prop where
  first : s.chain.head? = some s.head
  last : s.chain.getLast? = s.tail
  keys : s.chain.map (fun n => (s.mem.node n).key) =
    intptrMin :: (M.keys.sort (· ≤ ·) ++ [intptrMax])
  clean : ∀ n ∈ s.chain, (s.mem.node n).succ.marked = false ∧ (s.mem.node n).succ.flagged = false
  card : M.keys.card ≤ cap
  left : s.left = cap - M.keys.card

variable {m : Mem V} {M : KeyMap V} {head tail cap t : ℕ} {c free : List ℕ} {s s₀ : ListState V}
  {op : Op V}

/-! ### Where the links lead -/

lemma path_of_isChain {link : ℕ → Chain.Tagged ℕ} {l : List ℕ}
    (h : l.IsChain fun a b => (link a).ptr = some b) (hlast : l.getLast? = some tail)
    (htail : (link tail).ptr = none) : Chain.Path link l := by
  induction l with
  | nil => simp at hlast
  | cons a r ih =>
    cases r with
    | nil =>
      obtain rfl : a = tail := by simpa using hlast
      exact htail
    | cons b r =>
      rw [List.isChain_cons_cons] at h
      exact ⟨h.1, ih h.2 (by simpa using hlast)⟩

lemma Rests.ptr_eq (h : Rests m head tail c free) {n : ℕ} (hn : n ∈ c) :
    (m.cells.link n).ptr = (m.node n).succ.node := by
  rw [h.own n hn]
  rfl

lemma Rests.path (h : Rests m head tail c free) : Chain.Path m.cells.link c := by
  refine path_of_isChain ?_ h.clean.last ?_
  · exact h.clean.path.imp_of_mem_imp fun a b ha _ hab => by rw [h.ptr_eq ha, hab]
  · rw [h.ptr_eq h.clean.tail_mem, h.clean.tail_succ]
    rfl

lemma Holds.shows (h : Holds cap s.mem s.head tail c free M) (htail : s.tail = some tail) :
    Shows cap s M := by
  have hcard := h.card
  have hroom := h.room
  have hpos : 0 < free.length := by
    have := h.ready.freeable
    omega
  have hchain : s.chain = c := by
    rw [ListState.chain, ← h.clean.first, h.capacity]
    exact Chain.follow_path h.path (by omega)
  refine ⟨?_, ?_, ?_, ?_, by omega, ?_⟩
  · rw [hchain, h.clean.first]
  · rw [hchain, h.clean.last, htail]
  · rw [hchain]
    exact h.keys
  · rw [hchain]
    exact fun n hn => ⟨h.clean.marked n hn, h.clean.flagged n hn⟩
  · rw [ListState.left, h.capacity, h.ready.linked.head,
      Chain.follow_path h.ready.linked.path (by omega)]
    omega

/-! ### One request -/

/-- The list with the memory and the thread that a step alone has left. -/
def ListState.put (s : ListState V) (t : ℕ) (x : Mem V × Thread ℕ V) : ListState V :=
  { s with mem := x.1, threads := Function.update s.threads t x.2 }

lemma put_step {x : Mem V × Thread ℕ V} {weak : Bool} :
    threadStep (s.put t x) t weak = (soloStep x weak).map (s.put t) := by
  simp only [threadStep, soloStep, ListState.put, Function.update_self]
  cases x.2.cmd (· == ·) with
  | none => rfl
  | some cmd =>
    simp only [Option.bind_some]
    cases x.1.exec weak cmd <;> simp [ListState.put]

lemma put_result {x : Mem V × Thread ℕ V} :
    ((s.put t x).threads t).result = x.2.result := by
  simp [ListState.put]

lemma result_eq_none {x y : Mem V × Thread ℕ V} {weak : Bool} (h : soloStep x weak = some y) :
    x.2.result = none := by
  rcases x with ⟨m, helps, pc⟩
  cases helps with
  | cons f fs => rfl
  | nil => cases pc <;> first | rfl | simp [soloStep, Thread.cmd, Pc.cmd] at h

/-- Between requests nobody is inside a call, and the list holds the map. -/
structure Idle (cap : ℕ) (s : ListState V) (M : KeyMap V) : Prop where
  outside : ∀ t, (s.threads t).outside = true
  holds : ∃ tail c free, s.tail = some tail ∧ Holds cap s.mem s.head tail c free M

/-- **One request** is answered as the map answers. -/
theorem Idle.request (h : Idle cap s M) (hcap : cap + 3 ≤ sizeMax) (hlow : intptrMin < op.key)
    (hhigh : op.key < intptrMax) :
    ∃ n s', (∀ fuel ≥ n, runRequest fuel s ⟨t, op⟩ = some (s', (boundedMap cap M op).1)) ∧
      Idle cap s' (boundedMap cap M op).2 := by
  obtain ⟨hout, tail, c, free, htail, hholds⟩ := h
  have hcall : callStep s t op = some (s.put t (s.mem, ⟨[], op.pc s.head⟩)) := by
    simp [callStep, hout t, hlow, hhigh, ListState.put]
  have hdone : ∀ x, Answered cap s.head tail M op x → x.2.result.isSome = true := fun x hx => by
    rw [hx.1]
    rfl
  obtain ⟨n, x, r, hrun, ⟨hx, hrest⟩, hr⟩ :=
    (hholds.serves (k := 0) hcap hlow hhigh).runAlone (fun x y => result_eq_none) hdone
  refine ⟨n, s.put t x, fun fuel hfuel => ?_, fun u => ?_, tail, ?_⟩
  · simp only [runRequest, hcall, Option.bind_some]
    rw [runAlone_map (s.put t) (fun x weak => put_step) fun x => put_result, hrun fuel hfuel]
    obtain rfl : (boundedMap cap M op).1 = r := by
      rw [hx] at hr
      exact Option.some.inj hr
    rfl
  · by_cases hu : u = t
    · subst hu
      simp only [ListState.put, Function.update_self, hx]
      rfl
    · simp only [ListState.put, Function.update_of_ne hu]
      exact hout u
  · obtain ⟨c', free', hholds'⟩ := hrest
    exact ⟨c', free', htail, hholds'⟩

/-- And so are many. -/
theorem Idle.requests (h : Idle cap s M) (hcap : cap + 3 ≤ sizeMax) (qs : List (Request V))
    (hkeys : ∀ q ∈ qs, intptrMin < q.op.key ∧ q.op.key < intptrMax) :
    ∃ n s', (∀ fuel ≥ n, runRequests fuel s qs =
        some (s', (mapRun cap M (qs.map Request.op)).1)) ∧
      Idle cap s' (mapRun cap M (qs.map Request.op)).2 := by
  induction qs generalizing s M with
  | nil => exact ⟨0, s, fun _ _ => rfl, h⟩
  | cons q qs ih =>
    obtain ⟨hlow, hhigh⟩ := hkeys q (by simp)
    obtain ⟨n, s₁, hrun, h₁⟩ := h.request (t := q.thread) hcap hlow hhigh
    obtain ⟨n', s₂, hruns, h₂⟩ := ih h₁ fun q' hq' => hkeys q' (by simp [hq'])
    refine ⟨max n n', s₂, fun fuel hfuel => ?_, h₂⟩
    simp only [runRequests, hrun fuel (le_of_max_le_left hfuel),
      hruns fuel (le_of_max_le_right hfuel), Option.bind_some, Option.map_some, List.map_cons,
      mapRun]

/-- **Refinement**: calls made one at a time on a list that `list_create` made are answered as a
bounded finite map answers, and the list shows the map. -/
theorem list_refines_map {memory : Bool} {valBytes capacity : ℕ}
    (hfit : Sizes.ListSizesFit valBytes capacity) (hmade : Made memory valBytes capacity s₀)
    (qs : List (Request V)) (hkeys : ∀ q ∈ qs, intptrMin < q.op.key ∧ q.op.key < intptrMax) :
    ∃ n s, (∀ fuel ≥ n, runRequests fuel s₀ qs =
        some (s, (mapRun capacity ∅ (qs.map Request.op)).1)) ∧
      Shows capacity s (mapRun capacity ∅ (qs.map Request.op)).2 := by
  obtain ⟨hidle, tail, free, htail, hholds⟩ := made_holds hfit hmade
  have hidle₀ : Idle capacity s₀ (∅ : KeyMap V) :=
    ⟨fun t => by rw [hidle t]; rfl, tail, _, free, htail, hholds⟩
  obtain ⟨n, s, hrun, -, tail', c, free', htail', hholds'⟩ := hidle₀.requests hfit.2 qs hkeys
  exact ⟨n, s, hrun, hholds'.shows htail'⟩

/-- A list of one key refuses a second key, and takes it when the first one was deleted. -/
theorem list_refines_map_one : ∃ s₀ : ListState ℕ, ∃ n s,
    (∀ fuel ≥ n, runRequests fuel s₀ [⟨0, .insert 10 7⟩, ⟨1, .insert 20 8⟩, ⟨2, .search 10 true⟩,
      ⟨0, .update 10 9⟩, ⟨1, .delete 10 true⟩, ⟨1, .insert 20 8⟩, ⟨2, .delete 10 false⟩] =
      some (s, [.ok none, .fail (some .enomem), .ok (some (some 7)), .ok none, .ok (some (some 9)),
        .ok none, .fail (some .enoent)])) ∧
    Shows 1 s (Finmap.singleton 20 8) := by
  obtain ⟨s₀, hmade, -⟩ := exists_made 1 1 3 26 (fun _ : ListState ℕ => true) rfl
    (by decide +kernel)
  exact ⟨s₀, list_refines_map ⟨by decide, by decide⟩ hmade _ (by decide)⟩

/-- On a list without a tail no call returns: it follows the null pointer in the head. -/
lemma runRequest_no_tail (h : (s.mem.node s.head).succ.node = none) (fuel : ℕ) :
    runRequest fuel s ⟨t, op⟩ = none := by
  simp only [runRequest, callStep]
  split
  · refine runAlone_diverges (I := fun v => v.threads t = ⟨[], .null⟩ ∨
      v.mem = s.mem ∧ v.threads t = ⟨[], op.pc s.head⟩) (fun v hv => ?_)
      (fun v weak w hv hw => .inl ?_) (.inr ⟨rfl, by simp⟩) fuel []
    · rcases hv with hv | ⟨-, hv⟩ <;> rw [hv]
      · rfl
      · cases op <;> rfl
    · rcases hv with hv | ⟨hm, hv⟩
      · simp [threadStep, hv, Thread.cmd, Pc.cmd] at hw
      · have hload : ∀ ctx key, op.pc s.head = .searchFrom ctx key (.load s.head) →
            w.threads t = ⟨[], .null⟩ := fun ctx key hpc => by
          have hnode : (refOf (s.mem.cells.link s.head)).node = none := h
          rw [hpc] at hv
          simp only [threadStep, hv, hm, Thread.cmd, Pc.cmd, searchFrom, Cmd.map, Mem.exec,
            Function.comp, SearchRes.follow, hnode, Option.bind_some, Option.map_some,
            Option.some.injEq] at hw
          rw [← hw]
          simp
        cases op <;> exact hload _ _ rfl
  · rfl

/-- A list of `SIZE_MAX` keys has no tail, and the first call never returns. -/
theorem list_breaks_map : ¬ ∀ (valBytes capacity : ℕ) (s₀ : ListState ℕ) (qs : List (Request ℕ)),
    Made true valBytes capacity s₀ →
    (∀ q ∈ qs, intptrMin < q.op.key ∧ q.op.key < intptrMax) →
    ∃ n s, (∀ fuel ≥ n, runRequests fuel s₀ qs =
        some (s, (mapRun capacity ∅ (qs.map Request.op)).1)) ∧
      Shows capacity s (mapRun capacity ∅ (qs.map Request.op)).2 := by
  intro hall
  obtain ⟨s₀, hmade, hnull⟩ := exists_made 1 sizeMax 1 10
    (fun s : ListState ℕ => decide ((s.mem.node s.head).succ.node = none)) rfl (by decide +kernel)
  obtain ⟨n, s, hrun, -⟩ := hall 1 sizeMax s₀ [⟨0, .insert 10 7⟩] hmade (by decide)
  have hrun := hrun n le_rfl
  rw [runRequests, runRequest_no_tail (by simpa using hnull)] at hrun
  cases hrun

end CoopTasks.LockFreeList
