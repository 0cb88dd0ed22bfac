import CoopTasks.ListRefines

/-!
The sentinels of a list survive the calls that are made on it.

Calls are made one at a time, with any key that `lkey_t` has. Those with a key strictly between the
keys of the sentinels, and `list_insert` with the key of the head, leave both sentinels alone and
find only what was inserted; the others do not.
-/

namespace CoopTasks.LockFreeList

open CoopTasks.Machine CoopTasks.SizeT

variable {V : Type*}

/-! ### Sessions -/

/-- A list with the call that is being made on it, and the calls that have returned, last first. -/
structure Session (V : Type*) where
  list : ListState V
  busy : Option (ℕ × Op V)
  calls : List (Op V × Res V)

inductive SessionAct (V : Type*)
  | call (t : ℕ) (op : Op V)
  | step (weak : Bool)
  deriving DecidableEq

/-- No call was made yet. -/
def Session.start (list : ListState V) : Session V := ⟨list, none, []⟩

/-- A call begins when no other one is being made, or the one being made takes a step. -/
def Session.next (s : Session V) : SessionAct V → Option (Session V)
  | .call t op =>
    if s.busy.isNone ∧ intptrMin ≤ op.key ∧ op.key ≤ intptrMax then
      some { s with
        list := s.list.put t (s.list.mem, ⟨[], op.pc s.list.head⟩)
        busy := some (t, op) }
    else none
  | .step weak =>
    s.busy.bind fun (t, op) => (threadStep s.list t weak).map fun list =>
      match (list.threads t).result with
      | some r => ⟨list, none, (op, r) :: s.calls⟩
      | none => ⟨list, some (t, op), s.calls⟩

/-- A call that is good for the sentinels. -/
def Op.Mild : Op V → Prop
  | .insert key _ => intptrMin ≤ key ∧ key < intptrMax
  | .delete key _ | .search key _ | .update key _ => intptrMin < key ∧ key < intptrMax

instance (op : Op V) : Decidable op.Mild := by
  cases op <;> exact inferInstanceAs (Decidable (_ ∧ _))

/-- Calls are good for the sentinels, and the compare-exchange of `help_marked` does not fail
spuriously. -/
def Mild (s : Session V) : SessionAct V → Prop
  | .call _ op => op.Mild
  | .step weak => weak = true → ∀ x ∈ s.busy, (s.list.threads x.1).unlinking = false

instance (s : Session V) (a : SessionAct V) : Decidable (Mild s a) :=
  match a with
  | .call _ op => inferInstanceAs (Decidable op.Mild)
  | .step weak => inferInstanceAs
    (Decidable (weak = true → ∀ x ∈ s.busy, (s.list.threads x.1).unlinking = false))

/-- A call that reports its key. -/
def Op.reports : Op V → Res V → Bool
  | .insert _ _, _ => false
  | _, .ok _ => true
  | _, .fail _ => false

/-- Each reported key had been inserted before. -/
def Known (calls : List (Op V × Res V)) : Prop :=
  ∀ later op r earlier, calls = later ++ (op, r) :: earlier → op.reports r = true →
    ∃ val, (Op.insert op.key val, Res.ok none) ∈ earlier

/-- The sentinels are what they were, the next access leaves them alone, and only keys that had
been inserted were reported. -/
structure Survives (head : ℕ) (tail : Option ℕ) (s : Session V) : Prop where
  sameHead : s.list.head = head
  sameTail : s.list.tail = tail
  spared : ∀ x ∈ s.busy, ∀ n ∈ tail, Spared head n (s.list.threads x.1)
  known : Known s.calls

/-! ### What a call does to the map -/

variable {m : Mem V} {M M' : KeyMap V} {head tail cap k t : ℕ} {c free : List ℕ}
  {s s' : Session V} {s₀ : ListState V} {op : Op V} {r : Res V} {val : V}

/-- A call reports only a key of the map, and adds its key only when it inserts it. -/
def Honest (M : KeyMap V) (op : Op V) (r : Res V) (M' : KeyMap V) : Prop :=
  (op.reports r = true → op.key ∈ M) ∧
    ∀ key ∈ M', key ∈ M ∨ ∃ val, op = .insert key val ∧ r = .ok none

lemma boundedMap_honest : Honest M op (boundedMap cap M op).1 (boundedMap cap M op).2 := by
  cases op with
  | insert key val =>
    refine ⟨fun h => (by cases h), fun k hk => ?_⟩
    simp only [boundedMap] at hk ⊢
    split at hk
    · exact .inl hk
    · rename_i hnew
      split at hk
      · exact .inl hk
      · rename_i hspace
        rw [Finmap.mem_insert] at hk
        rcases hk with rfl | hk
        · exact .inr ⟨val, rfl, by rw [if_neg hnew, if_neg hspace]⟩
        · exact .inl hk
  | delete key wants =>
    simp only [boundedMap]
    cases hv : M.lookup key with
    | none => exact ⟨fun h => (by cases h), fun k hk => .inl hk⟩
    | some v =>
      exact ⟨fun _ => Finmap.mem_of_lookup_eq_some hv,
        fun k hk => .inl (Finmap.mem_erase.mp hk).2⟩
  | search key wants =>
    simp only [boundedMap]
    cases hv : M.lookup key with
    | none => exact ⟨fun h => (by cases h), fun k hk => .inl hk⟩
    | some v => exact ⟨fun _ => Finmap.mem_of_lookup_eq_some hv, fun k hk => .inl hk⟩
  | update key val =>
    simp only [boundedMap]
    by_cases hin : key ∈ M
    · rw [if_pos hin]
      refine ⟨fun _ => hin, fun k hk => .inl ?_⟩
      rcases Finmap.mem_insert.mp hk with rfl | hk
      · exact hin
      · exact hk
    · rw [if_neg hin]
      exact ⟨fun h => (by cases h), fun k hk => .inl hk⟩

/-- The call has returned honestly, and the list is at rest. -/
def Returned (cap head tail : ℕ) (M : KeyMap V) (op : Op V) (x : Mem V × Thread ℕ V) : Prop :=
  ∃ r M', x.2 = ⟨[], .returned r⟩ ∧ Honest M op r M' ∧
    ∃ c free, Holds cap x.1 head tail c free M'

lemma Holds.serves_insert_min (h : Holds cap m head tail c free M) :
    Serves head tail (Returned cap head tail M (.insert intptrMin val)) k
      (m, ⟨[], (Op.insert intptrMin val).pc head⟩) := by
  refine h.search le_rfl (by decide) fun prev next hb => .exists ?_ (.done ?_)
  · exact le_antisymm hb.le (h.clean.key_le hb.on)
  · exact ⟨_, M, rfl, ⟨fun hr => (by cases hr), fun k hk => .inl hk⟩, c, free, h⟩

/-- **A call** that is good for the sentinels leaves them alone and returns. -/
theorem Holds.returns (h : Holds cap m head tail c free M) (hcap : cap + 3 ≤ sizeMax)
    (hop : op.Mild) :
    Serves head tail (Returned cap head tail M op) k (m, ⟨[], op.pc head⟩) := by
  have hinside : intptrMin < op.key → op.key < intptrMax →
      Serves head tail (Returned cap head tail M op) k (m, ⟨[], op.pc head⟩) := fun hlow hhigh => by
    refine (h.serves hcap hlow hhigh).bind fun x ⟨hx, hrest⟩ => .done ?_
    exact ⟨_, _, hx, boundedMap_honest, hrest⟩
  cases op with
  | insert key val =>
    rcases hop.1.eq_or_lt with rfl | hlow
    · exact h.serves_insert_min
    · exact hinside hlow hop.2
  | delete | search | update => exact hinside hop.1 hop.2

/-! ### Every run -/

lemma Known.cons {calls : List (Op V × Res V)} (h : Known calls)
    (hr : op.reports r = true → ∃ val, (Op.insert op.key val, Res.ok none) ∈ calls) :
    Known ((op, r) :: calls) := fun later op' r' earlier heq hreports => by
  cases later with
  | nil =>
    obtain ⟨hop, rfl⟩ := List.cons.inj heq
    cases hop
    exact hr hreports
  | cons a later => exact h later op' r' earlier (List.cons.inj heq).2 hreports

/-- Between calls the list holds a map whose keys were all inserted; a call leads to its answer. -/
structure SessionInv (cap head tail : ℕ) (M : KeyMap V) (s : Session V) : Prop where
  sameHead : s.list.head = head
  sameTail : s.list.tail = some tail
  kept : ∀ key ∈ M, ∃ val, (Op.insert key val, Res.ok none) ∈ s.calls
  known : Known s.calls
  rest : s.busy = none → ∃ c free, Holds cap s.list.mem head tail c free M
  call : ∀ t op, s.busy = some (t, op) → (s.list.threads t).result = none ∧
    ∀ k, Serves head tail (Returned cap head tail M op) k (s.list.mem, s.list.threads t)

lemma threadStep_eq {s : ListState V} {weak : Bool} :
    threadStep s t weak = (soloStep (s.mem, s.threads t) weak).map (s.put t) := by
  have hput : s.put t (s.mem, s.threads t) = s := by simp [ListState.put]
  rw [← put_step, hput]

lemma Returned.result {x : Mem V × Thread ℕ V} (h : Returned cap head tail M op x) :
    x.2.result.isSome = true := by
  obtain ⟨r, M', hx, -⟩ := h
  rw [hx]
  rfl

lemma SessionInv.begin (h : SessionInv cap head tail M s) (hcap : cap + 3 ≤ sizeMax)
    (hop : op.Mild) (hs : s.next (.call t op) = some s') : SessionInv cap head tail M s' := by
  simp only [Session.next] at hs
  split at hs
  · rename_i hfree
    obtain rfl := Option.some.inj hs
    obtain ⟨c, free, hholds⟩ := h.rest (by simpa using hfree.1)
    refine ⟨h.sameHead, h.sameTail, h.kept, h.known, fun hb => by simp at hb, fun u op' hb => ?_⟩
    obtain ⟨rfl, rfl⟩ := by simpa using hb
    simp only [ListState.put, Function.update_self]
    refine ⟨by cases op <;> rfl, fun k => ?_⟩
    rw [h.sameHead]
    exact hholds.returns hcap hop
  · cases hs

lemma SessionInv.advance {weak : Bool} (h : SessionInv cap head tail M s)
    (hmild : Mild s (.step weak)) (hs : s.next (.step weak) = some s') :
    ∃ M', SessionInv cap head tail M' s' := by
  simp only [Session.next, Option.bind_eq_some_iff, Option.map_eq_some_iff] at hs
  obtain ⟨⟨t, op⟩, hbusy, list, hstep, hs⟩ := hs
  obtain ⟨hres, hserves⟩ := h.call t op hbusy
  rw [threadStep_eq, Option.map_eq_some_iff] at hstep
  obtain ⟨x, hx, rfl⟩ := hstep
  have hnext : ∀ k, Serves head tail (Returned cap head tail M op) k x := by
    rcases Ensures.step_all hserves with hret | ⟨-, hall⟩
    · have := hret.result
      simp [hres] at this
    · exact hall weak x (fun hw => hmild hw (t, op) hbusy) hx
  rw [put_result] at hs
  cases hr : x.2.result with
  | none =>
    rw [hr] at hs
    subst hs
    refine ⟨M, h.sameHead, h.sameTail, h.kept, h.known, fun hb => by simp at hb, fun u op' hb => ?_⟩
    obtain ⟨rfl, rfl⟩ := by simpa using hb
    simp only [ListState.put, Function.update_self]
    exact ⟨hr, hnext⟩
  | some r =>
    rw [hr] at hs
    subst hs
    -- the call has returned
    obtain ⟨r', M', hx', hhonest, hholds⟩ : Returned cap head tail M op x := by
      cases hnext 0 with
      | done hret => exact hret
      | step _ hstep =>
        rw [result_eq_none hstep] at hr
        cases hr
    obtain rfl : r' = r := by
      rw [hx'] at hr
      exact Option.some.inj hr
    refine ⟨M', h.sameHead, h.sameTail, fun key hkey => ?_, h.known.cons fun hreports => ?_,
      fun _ => hholds, fun u op' hb => by simp at hb⟩
    · rcases hhonest.2 key hkey with hold | ⟨val, rfl, rfl⟩
      · obtain ⟨val, hval⟩ := h.kept key hold
        exact ⟨val, List.mem_cons_of_mem _ hval⟩
      · exact ⟨val, List.mem_cons_self⟩
    · exact h.kept op.key (hhonest.1 hreports)

lemma SessionInv.survives (h : SessionInv cap head tail M s) : Survives head (some tail) s where
  sameHead := h.sameHead
  sameTail := h.sameTail
  spared := by
    rintro ⟨t, op⟩ hbusy n hn
    obtain rfl := Option.some.inj hn
    obtain ⟨hres, hserves⟩ := h.call t op hbusy
    rcases Ensures.step_all hserves with hret | ⟨hspared, -⟩
    · have := hret.result
      simp [hres] at this
    · exact hspared
  known := h.known

/-- **The sentinels survive** every sequence of calls with keys strictly between theirs, or with
the key of the head in `list_insert`. -/
theorem sentinels_survive {memory : Bool} {valBytes capacity : ℕ}
    (hfit : Sizes.ListSizesFit valBytes capacity) (hmade : Made memory valBytes capacity s₀)
    (h : Reach Session.next Mild (.start s₀) s) : Survives s₀.head s₀.tail s := by
  obtain ⟨-, tail, free, htail, hholds⟩ := made_holds hfit hmade
  rw [htail]
  have hstart : SessionInv capacity s₀.head tail ∅ (Session.start s₀) :=
    ⟨rfl, htail, fun key hkey => absurd hkey Finmap.notMem_empty,
      fun later op r earlier heq => by simp [Session.start] at heq,
      fun _ => ⟨_, free, hholds⟩, fun t op hb => by cases hb⟩
  obtain ⟨M, hinv⟩ := h.inv (I := fun s => ∃ M, SessionInv capacity s₀.head tail M s)
    ⟨∅, hstart⟩ fun u act v ⟨M, hu⟩ hmild hv => by
      cases act with
      | call t op => exact ⟨M, hu.begin hfit.2 hmild hv⟩
      | step weak => exact hu.advance hmild hv
  exact hinv.survives

/-- A key is inserted, found and deleted, with some compare-exchanges failing spuriously, and the
key of the head is inserted in vain. -/
theorem sentinels_survive_two : ∃ (s₀ : ListState ℕ) (s : Session ℕ), Made true 1 2 s₀ ∧
    s.calls = [(.search 10 true, .fail (some .enoent)), (.delete 10 true, .ok (some (some 7))),
      (.search 10 true, .ok (some (some 7))), (.insert intptrMin 8, .fail (some .eexist)),
      (.insert 10 7, .ok none)] ∧
    Survives s₀.head s₀.tail s := by
  obtain ⟨s₀, hmade, hp⟩ := exists_made 1 2 4 34 (fun s₀ : ListState ℕ =>
    (runIf Session.next Mild (.start s₀)
      (List.flatten [.call 0 (.insert 10 7) :: List.replicate 9 (.step true),
        List.replicate 2 (.step false),
        .call 1 (.insert intptrMin 8) :: List.replicate 3 (.step true),
        .call 2 (.search 10 true) :: List.replicate 6 (.step true), List.replicate 5 (.step false),
        .call 1 (.delete 10 true) :: List.replicate 14 (.step true),
        List.replicate 15 (.step false),
        .call 0 (.search 10 true) :: List.replicate 3 (.step false)])).any fun s : Session ℕ =>
      decide (s.calls = [(.search 10 true, .fail (some .enoent)),
        (.delete 10 true, .ok (some (some 7))), (.search 10 true, .ok (some (some 7))),
        (.insert intptrMin 8, .fail (some .eexist)), (.insert 10 7, .ok none)])) rfl
    (by decide +kernel)
  obtain ⟨s, hs, hcalls⟩ := exists_reach _ _ _ _ _ hp
  exact ⟨s₀, s, hmade, of_decide_eq_true hcalls,
    sentinels_survive ⟨by decide, by decide⟩ hmade hs⟩

/-- Calls that harm the sentinels of an empty list, and how many steps they take until then: they
read the value of the head or write to it, take 1 from the smallest number, follow the null
pointer of the tail, or flag a node on the tail. -/
def harmful : List (Op ℕ × ℕ) :=
  [(.search intptrMin true, 5), (.update intptrMin 7, 5), (.delete intptrMin false, 0),
    (.insert intptrMax 7, 5), (.search intptrMax false, 5), (.update intptrMax 7, 5),
    (.delete intptrMax true, 6)]

/-- Whether a call harms a sentinel after a number of steps. -/
def harms (s₀ : ListState ℕ) (op : Op ℕ) (n : ℕ) : Bool :=
  (runIf Session.next (fun _ a => a = .call 0 op ∨ a = .step false) (.start s₀)
    (.call 0 op :: List.replicate n (.step false))).any fun s =>
      decide (s.busy = some (0, op)) &&
      s₀.tail.any fun tail => !decide (Spared s₀.head tail (s.list.threads 0))

lemma harmful_calls : ∃ s₀ : ListState ℕ, Made true 1 1 s₀ ∧ ∀ x ∈ harmful, ∃ s,
    Reach Session.next (fun _ a => a = .call 0 x.1 ∨ a = .step false) (.start s₀) s ∧
    ¬ Survives s₀.head s₀.tail s := by
  obtain ⟨s₀, hmade, hp⟩ := exists_made 1 1 3 26
    (fun s₀ : ListState ℕ => harmful.all fun x => harms s₀ x.1 x.2) rfl (by decide +kernel)
  refine ⟨s₀, hmade, fun x hx => ?_⟩
  obtain ⟨s, hs, hbad⟩ := exists_reach _ _ _ _ _ (List.all_eq_true.mp hp x hx)
  simp only [Bool.and_eq_true, decide_eq_true_eq, Option.any_eq_true, Bool.not_eq_true',
    decide_eq_false_iff_not] at hbad
  obtain ⟨hbusy, tail, htail, hspared⟩ := hbad
  exact ⟨s, hs, fun h => hspared (h.spared _ hbusy tail htail)⟩

/-- The sentinels do not survive every key. -/
theorem sentinels_lost : ¬ ∀ (valBytes capacity : ℕ) (s₀ : ListState ℕ) (s : Session ℕ),
    Sizes.ListSizesFit valBytes capacity → Made true valBytes capacity s₀ →
    Reach Session.next (fun _ a => a ≠ .step true) (.start s₀) s →
    Survives s₀.head s₀.tail s := by
  intro hall
  obtain ⟨s₀, hmade, hharm⟩ := harmful_calls
  obtain ⟨s, hs, hbad⟩ := hharm (.update intptrMin 7, 5) (by decide)
  refine hbad (hall 1 1 s₀ s ⟨by decide, by decide⟩ hmade (hs.mono fun u a ha => ?_))
  rintro rfl
  simp at ha

end CoopTasks.LockFreeList
