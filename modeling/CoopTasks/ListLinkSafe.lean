import CoopTasks.ListLinkSteps

/-!
The linking algorithm keeps the list in order, whatever the threads do, as long as `try_flag`
does not take a flag on another node for a flag on its target.
-/

namespace CoopTasks.LockFreeList

open CoopTasks.Machine

variable {N V R : Type*} [DecidableEq N] {s s' s₀ : LinkState N V} {a : LinkAct N V} {c : List N}

/-! ### The invariant -/

structure LinkInv (s : LinkState N V) (c : List N) : Prop where
  chained : Chained s.node s.linked s.head s.tail c
  won : Won s.node s.linked s.won
  threads : ∀ t, ThreadOk s.node s.linked s.used (s.threads t)
  used : ∀ n ∈ s.linked, n ∈ s.used
  distinct : ∀ t u n, (s.threads t).pc.holds = some n → (s.threads u).pc.holds = some n → t = u
  plain : ∀ n, n ∉ s.linked → (s.node n).succ.flagged = false

omit [DecidableEq N] in
lemma outside_cases {th : Thread N V} (h : th.outside = true) :
    th = ⟨[], .idle⟩ ∨ ∃ r, th = ⟨[], .returned r⟩ := by
  obtain ⟨helps, pc⟩ := th
  cases helps <;> cases pc <;> simp_all [Thread.outside]

omit [DecidableEq N] in
lemma created_linkInv (h : LinkCreated s) : LinkInv s [s.head, s.tail] := by
  have hth : ∀ t, (s.threads t).pc.holds = none ∧
      ThreadOk s.node s.linked s.used (s.threads t) := fun t => by
    rcases outside_cases (h.threads t) with ht | ⟨r, ht⟩ <;> rw [ht] <;>
      exact ⟨rfl, by simp, trivial⟩
  have hchain : Chained s.node s.linked s.head s.tail [s.head, s.tail] := by
    have hmem : ∀ n ∈ s.linked, n = s.head ∨ n = s.tail := by simp [h.linked]
    have hunmarked : ∀ n ∈ s.linked, (s.node n).succ.marked = false := fun n hn => by
      rcases hmem n hn with rfl | rfl
      · simp [h.head]
      · simp [h.tail]
    constructor
    · rfl
    · rfl
    · simp [h.head]
    · simp [h.linked]
    · intro n hn _
      simpa using hmem n hn
    · intro n hn ht
      obtain rfl := (hmem n hn).resolve_right ht
      exact ⟨s.tail, by simp [h.linked], by simp [h.head],
        by simp [h.head, h.tail, intptrMin, intptrMax]⟩
    · simp [h.tail]
    · simp [h.head]
    · simp [h.tail]
    · intro n hn hh
      obtain rfl := (hmem n hn).resolve_left hh
      simp [h.tail, intptrMin, intptrMax]
    · exact fun n _ _ => h.unflagged n
    · intro n hn hm
      have := hunmarked n (by simpa [h.linked] using hn)
      simp [this] at hm
    · intro n hn hm
      simp [hunmarked n hn] at hm
    · intro n _ hf
      simp [h.unflagged n] at hf
  refine ⟨hchain, ?_, fun t => (hth t).2, ?_, ?_, fun n _ => h.unflagged n⟩
  · constructor <;> simp [h.won]
  · intro n hn
    rwa [h.used, ← h.linked]
  · intro t u n ht
    simp [(hth t).1] at ht

lemma exec_fixed (s : LinkState N V) (weak : Bool) (fresh : Option N) (cmd : Cmd N V R) :
    (s.exec weak fresh cmd).1.head = s.head ∧
    (s.exec weak fresh cmd).1.tail = s.tail ∧ (s.exec weak fresh cmd).1.linked = s.linked ∧
      (s.exec weak fresh cmd).1.won = s.won ∧ (s.exec weak fresh cmd).1.threads = s.threads := by
  cases cmd with
  | cas n exp new k =>
    cases h : s.casOk weak (.cas n exp new k) <;> simp [LinkState.exec, h]
  | casReaders exp new k =>
    cases h : !weak && decide (s.readers = exp) <;> simp [LinkState.exec, h]
  | _ => simp [LinkState.exec]

/-- What an action does to a list. -/
structure Stepped (s : LinkState N V) (e : Effect N) (s' : LinkState N V) : Prop where
  move : Move s.node s.linked e s'.node
  linked : s'.linked = e.link s.linked
  won : s'.won = e.win s.won
  head : s'.head = s.head
  tail : s'.tail = s.tail

omit [DecidableEq N] in
lemma linkInv_call (h : LinkInv s c) {t : ℕ} {op : Op V} (hout : (s.threads t).outside = true)
    (hlow : intptrMin < op.key) (hhigh : op.key < intptrMax) :
    LinkInv { s with threads := Function.update s.threads t ⟨[], op.pc s.head⟩ } c := by
  have hholds : (op.pc s.head).holds = none := by cases op <;> rfl
  have hhead : ∀ key, intptrMin ≤ key → Before s.node s.linked key s.head := fun key hk =>
    ⟨h.chained.sub _ h.chained.head_mem, by rw [h.chained.head_key]; exact hk⟩
  have hok : PcOk s.node s.linked s.used (op.pc s.head) := by
    cases op <;> simp only [Op.key] at hlow hhigh
    · exact ⟨hlow.le, hhigh, hhead _ hlow.le, hlow⟩
    · exact ⟨by omega, by omega, hhead _ (by omega), by show _ + 1 < _; omega⟩
    · exact ⟨hlow.le, hhigh, hhead _ hlow.le, trivial⟩
    · exact ⟨hlow.le, hhigh, hhead _ hlow.le, trivial⟩
  refine { h with threads := fun u => ?_, distinct := fun u w n hu hw => ?_ }
  · by_cases hu : u = t
    · subst hu
      simpa using ⟨by simp, hok⟩
    · simpa [hu] using h.threads u
  · by_cases hut : u = t
    · subst hut
      simp [hholds] at hu
    · by_cases hwt : w = t
      · subst hwt
        simp [hholds] at hw
      · exact h.distinct u w n (by simpa [hut] using hu) (by simpa [hwt] using hw)

theorem linkInv_step (h : LinkInv s c) (hone : OneWord s a) (hs : s.next a = some s') :
    ∃ c', LinkInv s' c' ∧ Stepped s (s.effect a) s' ∧
      Evolves s.node s.linked s'.node s'.linked := by
  cases a with
  | call t op =>
    simp only [LinkState.next] at hs
    split at hs
    · rename_i hop
      cases hs
      exact ⟨c, linkInv_call h hop.1 hop.2.1 hop.2.2,
        ⟨.outside fun _ _ => ⟨rfl, rfl, rfl⟩, rfl, rfl, rfl, rfl⟩, .refl⟩
    · cases hs
  | step t weak fresh =>
    simp only [LinkState.next] at hs
    split at hs
    · rename_i hfresh
      obtain ⟨cmd, hcmd, rfl⟩ := Option.map_eq_some_iff.mp hs
      have hout := thread_leads h.chained h.won h.used (h.threads t) hone hcmd weak fresh hfresh
      have heff : s.effect (.step t weak fresh) =
          bif s.casOk weak cmd then (s.threads t).effect else .none := by
        simp [LinkState.effect, hcmd]
      rw [← heff] at hout
      obtain ⟨hhead, htail, hlinked, hwon, hthreads⟩ := exec_fixed s weak fresh cmd
      set e := s.effect (.step t weak fresh)
      set x := s.exec weak fresh cmd
      obtain ⟨c', hc', hw', hev⟩ := h.chained.move h.won hout.move
      refine ⟨c', ⟨?_, ?_, fun u => ?_, fun n hn => ?_, fun u w n hu hw => ?_, fun n hn => ?_⟩,
        ⟨hout.move, by rw [hlinked], by rw [hwon], hhead, htail⟩, by rw [hlinked]; exact hev⟩
      · rw [hlinked, hhead, htail]
        exact hc'
      · rw [hlinked, hwon]
        exact hw'
      · rw [hlinked, hthreads]
        by_cases hu : u = t
        · subst hu
          simpa using hout.ok
        · simp only [Function.update_of_ne hu]
          refine (h.threads u).evolves hev hout.used fun n hn => ?_
          have hnew := ((h.threads u).pc.holds_fresh hn).2
          have hother : (s.threads t).pc.holds ≠ some n := fun ht => hu (h.distinct u t n hn ht)
          refine ⟨hout.frame n hnew hother, fun hmem => ?_⟩
          rcases Effect.mem_link hmem with hmem | heq
          · exact hnew hmem
          · exact hother (hout.linked n heq)
      · rw [hlinked] at hn
        refine hout.used n ?_
        rcases Effect.mem_link hn with hn | heq
        · exact h.used n hn
        · exact ((h.threads t).pc.holds_fresh (hout.linked n heq)).1
      · -- what the thread holds it held before, or nobody did
        simp only [hthreads] at hu hw
        have hback : ∀ u, u ≠ t → (s.threads u).pc.holds = some n → x.2.pc.holds ≠ some n :=
          fun u hut hu ht => by
            rcases hout.holds n ht with ht | hnew
            · exact hut (h.distinct u t n hu ht)
            · exact hnew ((h.threads u).pc.holds_fresh hu).1
        by_cases hut : u = t <;> by_cases hwt : w = t
        · rw [hut, hwt]
        · subst hut
          exact absurd (by simpa using hu) (hback w hwt (by simpa [hwt] using hw))
        · subst hwt
          exact absurd (by simpa using hw) (hback u hut (by simpa [hut] using hu))
        · exact h.distinct u w n (by simpa [hut] using hu) (by simpa [hwt] using hw)
      · rw [hlinked] at hn
        have hold : n ∉ s.linked := fun hmem => hn (Effect.link_of_mem hmem)
        exact hout.plain n hold (h.plain n hold)
    · cases hs

/-! ### What holds in every state -/

/-- The keys of the unmarked nodes on the chain. -/
def LinkState.keys (s : LinkState N V) : Set ℤ :=
  {k | ∃ n ∈ s.chain, (s.node n).succ.marked = false ∧ (s.node n).key = k}

/-- The chain is sorted and leads to the tail; a marked node has its way back, and as long as it
is on the chain an unmarked predecessor flagged on it; no target is won twice. -/
structure LinkSafe (s : LinkState N V) : Prop where
  first : s.chain.head? = some s.head
  last : s.chain.getLast? = some s.tail
  sorted : s.chain.Pairwise fun a b => (s.node a).key < (s.node b).key
  both : ∀ n, ¬ ((s.node n).succ.marked = true ∧ (s.node n).succ.flagged = true)
  back : ∀ n ∈ s.linked, (s.node n).succ.marked = true → Back s.node s.linked n
  flagger : ∀ n ∈ s.chain, (s.node n).succ.marked = true →
    ∃ p ∈ s.chain, (s.node p).succ = ⟨some n, false, true⟩
  won : s.won.Nodup

/-- The keys change only when the compare-exchange of a `list_insert` of the key goes through, or
that of a `try_mark` of the key's node. -/
structure KeysStep (s : LinkState N V) (a : LinkAct N V) (s' : LinkState N V) : Prop where
  moved : KeysMoved (fun n => (s.node n).key) s.keys s'.keys (s.effect a)
  linked : ∀ n, s.effect a = .linked n → ∃ t fresh val prev next, a = .step t false fresh ∧
    s.threads t = ⟨[], .insert (s.node n).key val (.cas prev next n)⟩
  marked : ∀ n, s.effect a = .marked n → ∃ t fresh prev next fs pc, a = .step t false fresh ∧
    s.threads t = ⟨⟨prev, n, .tryMark (.cas next)⟩ :: fs, pc⟩

omit [DecidableEq N] in
lemma follow_eq {node : N → Node N V} {c : List N} {n m : N} {k : ℕ}
    (hp : c.IsChain fun a b => (node a).succ.node = some b) (hn : c.head? = some n)
    (hm : c.getLast? = some m) (hend : (node m).succ.node = none) (hk : c.length ≤ k) :
    follow node k (some n) = c := by
  induction c generalizing n k with
  | nil => simp at hn
  | cons a r ih =>
    obtain rfl : a = n := by simpa using hn
    obtain ⟨k, rfl⟩ : ∃ j, k = j + 1 := ⟨k - 1, by simp at hk; omega⟩
    rw [follow]
    cases r with
    | nil =>
      obtain rfl : a = m := by simpa using hm
      cases k <;> simp [hend, follow]
    | cons b r =>
      rw [List.isChain_cons_cons] at hp
      rw [hp.1, ih hp.2 rfl (by simpa using hm) (by simpa using hk)]

omit [DecidableEq N] in
lemma LinkInv.chain_eq (h : LinkInv s c) : s.chain = c := by
  have hlen : c.length ≤ s.linked.length :=
    h.chained.nodup.length_le_of_subset h.chained.sub
  exact follow_eq h.chained.path h.chained.first h.chained.last (by simp [h.chained.tail_succ]) hlen

omit [DecidableEq N] in
lemma LinkInv.keys_eq (h : LinkInv s c) : s.keys = keysOf s.node s.linked := by
  ext k
  rw [LinkState.keys, h.chain_eq]
  constructor
  · rintro ⟨n, hn, hm, hk⟩
    exact ⟨n, h.chained.sub n hn, hm, hk⟩
  · rintro ⟨n, hn, hm, hk⟩
    exact ⟨n, h.chained.kept n hn hm, hm, hk⟩

omit [DecidableEq N] in
lemma LinkInv.safe (h : LinkInv s c) : LinkSafe s := by
  have hc := h.chained
  have heq := h.chain_eq
  refine ⟨heq ▸ hc.first, heq ▸ hc.last, heq ▸ hc.sorted, ?_, hc.back, ?_, h.won.nodup⟩
  · rintro n ⟨hm, hf⟩
    by_cases hn : n ∈ s.linked
    · simp [hc.both n hn hm] at hf
    · simp [h.plain n hn] at hf
  · intro n hn hm
    rw [heq] at hn ⊢
    obtain ⟨p, hp, hs⟩ := hc.flagger n hn hm
    exact ⟨p, hc.kept p hp (by simp [hs]), hs⟩

lemma effect_step {e : Effect N} (he : s.effect a = e) (hne : e ≠ .none) :
    ∃ t fresh, a = .step t false fresh ∧ (s.threads t).effect = e := by
  cases a with
  | call t op => exact absurd he.symm hne
  | step t weak fresh =>
    simp only [LinkState.effect] at he
    cases hok : ((s.threads t).cmd (· == ·)).any (s.casOk weak) with
    | false => rw [hok] at he; exact absurd he.symm hne
    | true =>
      rw [hok] at he
      refine ⟨t, fresh, ?_, he⟩
      obtain ⟨cmd, -, hcas⟩ := (Option.any_eq_true _ _).mp hok
      have : weak = false := by
        cases cmd <;> simp_all [LinkState.casOk]
      rw [this]

omit [DecidableEq N] in
lemma effect_linked {th : Thread N V} {n : N} (h : th.effect = .linked n) :
    ∃ key val prev next, th = ⟨[], .insert key val (.cas prev next n)⟩ := by
  obtain ⟨helps, pc⟩ := th
  unfold Thread.effect at h
  simp only [] at h
  split at h <;> cases h
  exact ⟨_, _, _, _, rfl⟩

omit [DecidableEq N] in
lemma effect_marked {th : Thread N V} {n : N} (h : th.effect = .marked n) :
    ∃ prev next fs pc, th = ⟨⟨prev, n, .tryMark (.cas next)⟩ :: fs, pc⟩ := by
  obtain ⟨helps, pc⟩ := th
  unfold Thread.effect at h
  simp only [] at h
  split at h <;> cases h
  exact ⟨_, _, _, _, rfl⟩

lemma LinkInv.keysStep (h : LinkInv s c) (hone : OneWord s a) (hs : s.next a = some s') :
    KeysStep s a s' := by
  obtain ⟨c', h', hst, -⟩ := linkInv_step h hone hs
  refine ⟨?_, fun n he => ?_, fun n he => ?_⟩
  · have hkeys := h.chained.keys_move hst.move
    rw [← hst.linked, ← h.keys_eq, ← h'.keys_eq] at hkeys
    exact hkeys
  · obtain ⟨t, fresh, ha, heff⟩ := effect_step he (by simp)
    obtain ⟨key, val, prev, next, hth⟩ := effect_linked heff
    have hpc := (h.threads t).pc
    rw [hth] at hpc
    obtain rfl : (s.node n).key = key := hpc.2.2.2.2.2.1
    exact ⟨t, fresh, val, prev, next, ha, hth⟩
  · obtain ⟨t, fresh, ha, heff⟩ := effect_step he (by simp)
    obtain ⟨prev, next, fs, pc, hth⟩ := effect_marked heff
    exact ⟨t, fresh, prev, next, fs, pc, ha, hth⟩

lemma linkInv_reach (h : LinkInv s c) (hr : Reach LinkState.next OneWord s s') :
    (∃ c', LinkInv s' c') ∧ ∀ n ∈ s.linked, (s.node n).succ.marked = true →
      n ∈ s'.linked ∧ (s'.node n).succ = (s.node n).succ := by
  induction hr with
  | refl => exact ⟨⟨c, h⟩, fun n hn _ => ⟨hn, rfl⟩⟩
  | step _ hok hn ih =>
    obtain ⟨⟨c', h'⟩, hfrozen⟩ := ih
    obtain ⟨c'', h'', -, hev⟩ := linkInv_step h' hok hn
    refine ⟨⟨c'', h''⟩, fun n hn hm => ?_⟩
    obtain ⟨hmem, hs⟩ := hfrozen n hn hm
    exact ⟨hev.grows n hmem, by rw [hev.frozen n hmem (by rw [hs]; exact hm), hs]⟩

/-- **The list stays in order**: in every run in which the loads of `try_flag` do not take a flag
on another node for one on its target, the chain is as it should be in every state, its keys
change only by the compare-exchanges of `list_insert` and `try_mark`, and the word of a marked
node is final. -/
theorem list_links (h₀ : LinkCreated s₀) (h : Reach LinkState.next OneWord s₀ s) :
    LinkSafe s ∧
    (∀ a s', OneWord s a → s.next a = some s' → KeysStep s a s') ∧
    ∀ s', Reach LinkState.next OneWord s s' → ∀ n ∈ s.linked, (s.node n).succ.marked = true →
      (s'.node n).succ = (s.node n).succ := by
  obtain ⟨⟨c, hI⟩, -⟩ := linkInv_reach (created_linkInv h₀) h
  exact ⟨hI.safe, fun a s' => hI.keysStep, fun s' hr n hn hm => ((linkInv_reach hI hr).2 n hn hm).2⟩

/-! ### Runs of a list of numbered nodes -/

lemma new_created {head tail : N} (h : head ≠ tail) :
    LinkCreated (LinkState.new head tail : LinkState N V) := by
  have hnode : ∀ n, ((LinkState.new head tail : LinkState N V).node n).succ.flagged = false :=
    fun n => by
      simp only [LinkState.new]
      split_ifs <;> rfl
  constructor <;> simp [LinkState.new, h, h.symm, Thread.outside]
  simpa [LinkState.new] using hnode

/-- Steps of a thread, its compare-exchanges not failing spuriously. -/
def linkSteps (t k : ℕ) : List (LinkAct ℕ ℕ) := List.replicate k (.step t false none)

/-- An insertion that nothing disturbs, with a new node and no smaller key in the list. -/
def linkInsert (t : ℕ) (key : ℤ) (fresh : ℕ) : List (LinkAct ℕ ℕ) :=
  [.call t (.insert key 0)] ++ linkSteps t 3 ++ [.step t false (some fresh)] ++ linkSteps t 7

/-- Keys 10 and 5 are inserted, and 5 is deleted up to its mark while another thread inserts 7
behind it. -/
theorem list_links_two : ∃ s : LinkState ℕ ℕ, LinkCreated (LinkState.new 0 1 : LinkState ℕ ℕ) ∧
    Reach LinkState.next OneWord (LinkState.new 0 1) s ∧ s.chain = [0, 4, 2, 1] ∧ LinkSafe s := by
  obtain ⟨s, hs, hp⟩ := exists_reach LinkState.next OneWord (LinkState.new 0 1 : LinkState ℕ ℕ)
    (fun s => decide (s.chain = [0, 4, 2, 1]))
    (linkInsert 0 10 2 ++ linkInsert 0 5 3 ++ [.call 1 (.delete 5 false)] ++ linkSteps 1 11 ++
      [.call 2 (.insert 7 0)] ++ linkSteps 2 12 ++ [.step 2 false (some 4)] ++ linkSteps 2 7 ++
      linkSteps 1 5)
    (by decide +kernel)
  exact ⟨s, new_created (by decide), hs, by simpa using hp,
    (list_links (new_created (by decide)) hs).1⟩

/-- Thread 1 deletes 10 and has seen the head point to its node when thread 2 inserts 5 in front
of it; thread 1 sees the head unmarked; thread 3 deletes 5 and flags the head; and thread 1 takes
that flag for one on its own node, which it marks. -/
theorem try_flag_deceived : ¬ ∀ s : LinkState ℕ ℕ,
    Reach LinkState.next (fun _ _ => True) (LinkState.new 0 1) s → LinkSafe s := by
  intro hall
  obtain ⟨s, hs, hp⟩ := exists_reach LinkState.next (fun _ _ => True)
    (LinkState.new 0 1 : LinkState ℕ ℕ)
    (fun s => decide (s.chain = [0, 3, 2, 1]) && decide ((s.node 2).succ.marked = true) &&
      [0, 3, 2, 1].all fun p => decide ((s.node p).succ ≠ ⟨some 2, false, true⟩))
    (linkInsert 0 10 2 ++ [.call 1 (.delete 10 false)] ++ linkSteps 1 4 ++ linkInsert 2 5 3 ++
      linkSteps 1 1 ++ [.call 3 (.delete 5 false)] ++ linkSteps 3 7 ++ linkSteps 1 5)
    (by decide +kernel)
  simp only [Bool.and_eq_true, decide_eq_true_eq, List.all_eq_true] at hp
  obtain ⟨⟨hchain, hmark⟩, hnone⟩ := hp
  obtain ⟨p, hp, hps⟩ := (hall s hs).flagger 2 (by simp [hchain]) hmark
  rw [hchain] at hp
  exact hnone p hp hps

end CoopTasks.LockFreeList
