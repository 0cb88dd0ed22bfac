import CoopTasks.Endless
import CoopTasks.ListAloneEnds
import CoopTasks.ListLinear
import Mathlib.Tactic.IntervalCases

/-!
Threads that work on one list get in each other's way only so often.

A call of `list_insert` links one node, and the word of a predecessor is flagged, a node marked and
unlinked at most once for each node. A step that changes none of these words and not `readers`
leaves all other threads where they were, and brings its own closer to its end as if it ran alone.
-/

namespace CoopTasks.LockFreeList

open CoopTasks.Machine CoopTasks.Linearize CoopTasks.Progress CoopTasks.Endless ListMachine

variable {N V R : Type*} {mem mem' : N → Node N V} {linked won c : List N} {n x : N}
  {e : Effect N} {th : Thread N V} {readers : ℕ}

/-! ### The words of the nodes -/

/-- How often a word can still change if its node's predecessor is not flagged again. -/
def Ref.weight (r : Ref N) : ℕ := r.flagged.toNat + (!r.marked).toNat

variable [DecidableEq N]

/-- How often the words of the linked nodes can still change if no further node is linked. -/
def changes (mem : N → Node N V) (linked won : List N) : ℕ :=
  2 * (linked.toFinset.card - won.length) + ∑ n ∈ linked.toFinset, (mem n).succ.weight

lemma Won.length_le (h : Won mem linked won) : won.length ≤ linked.toFinset.card := by
  rw [← List.toFinset_card_of_nodup h.nodup]
  refine Finset.card_le_card fun d hd => ?_
  rw [List.mem_toFinset] at hd ⊢
  exact (h.seen d hd).1

lemma sum_setSucc (mem : N → Node N V) {p : N} {r : Ref N} (hp : p ∈ linked) :
    ∑ n ∈ linked.toFinset, (setSucc mem p r n).succ.weight + (mem p).succ.weight =
      ∑ n ∈ linked.toFinset, (mem n).succ.weight + r.weight := by
  have hsum := sum_one (fun n => (mem n).succ.weight) (fun n => (setSucc mem p r n).succ.weight)
    (List.mem_toFinset.mpr hp) fun q hq => by rw [setSucc_ne hq]
  rwa [setSucc_self] at hsum

/-- A move changes no word of a linked node, or leaves fewer changes to come; only a new node brings
further ones. -/
lemma Move.changes (h : Move mem linked e mem') (hw : Won mem linked won)
    (hw' : Won mem' (e.link linked) (e.win won)) :
    (e = .none ∧ ∀ n ∈ linked, (mem' n).succ = (mem n).succ ∧ (mem' n).key = (mem n).key) ∨
      ((∀ n, e ≠ .linked n) ∧
        changes mem' (e.link linked) (e.win won) < changes mem linked won) ∨
      ((∃ n, e = .linked n) ∧
        changes mem' (e.link linked) (e.win won) < changes mem linked won + 4) := by
  cases h with
  | outside hsame => exact .inl ⟨rfl, fun n hn => ⟨(hsame n hn).1, (hsame n hn).2.1⟩⟩
  | @backlink p d hp hd hk =>
    refine .inl ⟨rfl, fun n _ => ?_⟩
    unfold setBacklink
    by_cases hn : n = d
    · subst hn
      simp
    · simp [hn]
  | @link p x m hp hx hs hxs hpx hxm =>
    refine .inr (.inr ⟨⟨x, rfl⟩, ?_⟩)
    have hne : x ≠ p := by
      rintro rfl
      exact hx hp
    have hsum := sum_setSucc mem (r := getUnmarkedRef (some x)) hp
    have hcard : (x :: linked).toFinset.card = linked.toFinset.card + 1 := by
      rw [List.toFinset_cons, Finset.card_insert_of_notMem (by simpa using hx)]
    have hnew : ∑ n ∈ (x :: linked).toFinset,
        (setSucc mem p (getUnmarkedRef (some x)) n).succ.weight = 1 +
          ∑ n ∈ linked.toFinset, (setSucc mem p (getUnmarkedRef (some x)) n).succ.weight := by
      rw [List.toFinset_cons, Finset.sum_insert (by simpa using hx), setSucc_ne hne, hxs]
      rfl
    have hle := hw.length_le
    rw [hs] at hsum
    have hone : ∀ m : Option N, (getUnmarkedRef m).weight = 1 := fun _ => rfl
    rw [hone, hone] at hsum
    unfold LockFreeList.changes
    show 2 * ((x :: linked).toFinset.card - won.length) + _ < _
    rw [hcard]
    show _ + ∑ n ∈ (x :: linked).toFinset, _ < _
    rw [hnew]
    omega
  | @flag p d hp hs hd =>
    refine .inr (.inl ⟨by simp, ?_⟩)
    have hsum := sum_setSucc mem (r := getFlaggedRef (some d)) hp
    have hle : (d :: won).length ≤ linked.toFinset.card := hw'.length_le
    rw [hs] at hsum
    have hone : (getUnflaggedRef (some d)).weight = 1 ∧ (getFlaggedRef (some d)).weight = 2 :=
      ⟨rfl, rfl⟩
    rw [hone.1, hone.2] at hsum
    unfold LockFreeList.changes
    show 2 * (linked.toFinset.card - (d :: won).length) + ∑ n ∈ linked.toFinset, _ < _
    rw [List.length_cons] at hle ⊢
    omega
  | @mark p d next hp hd hs hds hb =>
    refine .inr (.inl ⟨by simp, ?_⟩)
    have hsum := sum_setSucc mem (r := getMarkedRef next) hd
    rw [hds] at hsum
    have hone : (getUnmarkedRef next).weight = 1 ∧ (getMarkedRef next).weight = 0 := ⟨rfl, rfl⟩
    rw [hone.1, hone.2] at hsum
    unfold LockFreeList.changes
    show 2 * (linked.toFinset.card - won.length) + ∑ n ∈ linked.toFinset, _ < _
    omega
  | @unlink p d hp hs hd =>
    refine .inr (.inl ⟨by simp, ?_⟩)
    have hsum := sum_setSucc mem (r := getUnflaggedRef (mem d).succ.node) hp
    rw [hs] at hsum
    have hone : (getFlaggedRef (some d)).weight = 2 ∧
        (getUnflaggedRef (mem d).succ.node).weight = 1 := ⟨rfl, rfl⟩
    rw [hone.1, hone.2] at hsum
    unfold LockFreeList.changes
    show 2 * (linked.toFinset.card - won.length) + ∑ n ∈ linked.toFinset, _ < _
    omega

/-! ### What a call may still do -/

def ReadPc.credit : ReadPc V → ℕ
  | .load | .cas _ => 2
  | .copy | .sub _ => 1

def WritePc.credit : WritePc → ℕ
  | .load | .cas _ => 2
  | .copy | .init => 1

/-- What a call may add to the changes to come, or make to `readers`. -/
def Pc.credit : Pc N V → ℕ
  | .idle | .returned _ | .null | .delete _ _ _ (.free _) => 0
  | .searchFrom _ _ _ | .insert _ _ _ | .tryFlag _ _ _ _ _ | .delete _ _ _ (.check _)
  | .searchCheck _ _ _ | .updateCheck _ _ _ => 4
  | .delete _ _ _ (.read pc) | .searchRead _ _ pc => pc.credit
  | .updateWrite _ _ _ pc => pc.credit

/-- An access spends nothing, or spends some of a credit by a change of `readers`. -/
inductive Spends (k : ℕ) : Cmd N V (Thread N V) → Prop
  | quiet {cmd : Cmd N V (Thread N V)} (hquiet : cmd.quiet = true)
      (h : cmd.All fun th => th.pc.credit ≤ k) : Spends k cmd
  | lock {exp new : ℕ} {f : Bool → Thread N V} (hin : (f true).pc.credit < k)
      (hout : (f false).pc.credit ≤ k) : Spends k (.casReaders exp new f)
  | sub {th : Thread N V} (h : th.pc.credit < k) : Spends k (.subReaders th)
  | init {th : Thread N V} (h : th.pc.credit < k) : Spends k (.initReaders th)

omit [DecidableEq N] in
lemma Pc.credit_le (pc : Pc N V) : pc.credit ≤ 4 := by
  cases pc with
  | delete key val del pc =>
    cases pc with
    | read pc => cases pc <;> simp [Pc.credit, ReadPc.credit]
    | _ => simp [Pc.credit]
  | searchRead key target pc => cases pc <;> simp [Pc.credit, ReadPc.credit]
  | updateWrite key val target pc => cases pc <;> simp [Pc.credit, WritePc.credit]
  | _ => simp [Pc.credit]

omit [DecidableEq N] in
lemma readVal_spends {pc : ReadPc V} {f : ReadRes V → Thread N V}
    (hmore : ∀ pc', (f (.more pc')).pc.credit = pc'.credit)
    (hret : ∀ v, (f (.ret v)).pc.credit = 0) : Spends pc.credit ((readVal n pc).map f) := by
  cases pc with
  | load =>
    refine .quiet rfl fun orig => ?_
    by_cases h : orig = uint32Max <;> simp [h, hmore, ReadPc.credit]
  | cas orig =>
    exact .lock (by simp [hmore, ReadPc.credit]) (by simp [hmore, ReadPc.credit])
  | copy => exact .quiet rfl fun v => by simp [hmore, ReadPc.credit]
  | sub v => exact .sub (by simp [hret, ReadPc.credit])

omit [DecidableEq N] in
lemma writeVal_spends {val : V} {pc : WritePc} {f : Option WritePc → Thread N V}
    (hmore : ∀ pc', (f (some pc')).pc.credit = pc'.credit) (hret : (f none).pc.credit = 0) :
    Spends pc.credit ((writeVal n val pc).map f) := by
  cases pc with
  | load =>
    refine .quiet rfl fun orig => ?_
    by_cases h : orig = 0 <;> simp [h, hmore, WritePc.credit]
  | cas orig =>
    exact .lock (by simp [hmore, WritePc.credit]) (by simp [hmore, WritePc.credit])
  | copy =>
    refine .quiet rfl ?_
    show (f (some .init)).pc.credit ≤ 1
    rw [hmore]
    exact le_rfl
  | init => exact .init (by simp [hret, WritePc.credit])

omit [DecidableEq N] in
lemma thread_spends {same : N → N → Bool} {cmd : Cmd N V (Thread N V)}
    (h : th.cmd same = some cmd) : Spends th.pc.credit cmd := by
  have hfour : ∀ {cmd : Cmd N V (Thread N V)}, cmd.quiet = true → Spends 4 cmd :=
    fun hquiet => .quiet hquiet (Cmd.all_of_forall (fun th => th.pc.credit_le) _)
  obtain ⟨helps, pc⟩ := th
  cases helps with
  | cons f fs =>
    cases h
    refine .quiet ?_ (Cmd.all_map.mpr (Cmd.all_of_forall (fun r => ?_) _))
    · rw [Cmd.quiet_map]
      obtain ⟨prev, del, pc⟩ := f
      cases pc with
      | tryMark pc => cases pc <;> rfl
      | helpMarked pc => cases pc <;> rfl
      | _ => rfl
    · cases r with
      | none => exact Nat.zero_le _
      | some gs => exact le_rfl
  | nil =>
    cases pc with
    | idle | returned | null => cases h
    | searchFrom ctx key pc =>
      cases h
      refine hfour ?_
      rw [Cmd.quiet_map]
      cases pc with
      | helpMarked curr next pc => cases pc <;> rfl
      | _ => rfl
    | insert key val pc =>
      cases h
      exact hfour (by cases pc <;> rfl)
    | tryFlag key val prev target pc =>
      cases h
      exact hfour (by cases pc <;> rfl)
    | delete key val del pc =>
      cases h
      cases pc with
      | check prev => exact hfour rfl
      | read pc => exact readVal_spends (fun _ => rfl) fun _ => rfl
      | free v => exact .quiet rfl (Nat.zero_le _)
    | searchCheck | updateCheck =>
      cases h
      exact hfour rfl
    | searchRead key target pc =>
      cases h
      exact readVal_spends (fun _ => rfl) fun _ => rfl
    | updateWrite key val target pc =>
      cases h
      exact writeVal_spends (fun _ => rfl) rfl

variable {s s' : LinkState N V} {t k : ℕ} {weak : Bool} {fresh : Option N}
  {cmd : Cmd N V (Thread N V)}

lemma Spends.exec (h : Spends k cmd) (weak : Bool) (fresh : Option N) :
    (s.exec weak fresh cmd).2.pc.credit ≤ k ∧
      ((s.exec weak fresh cmd).1.readers ≠ s.readers →
        (s.exec weak fresh cmd).2.pc.credit < k) := by
  cases h with
  | quiet hquiet h =>
    refine ⟨h.exec weak fresh, fun hne => absurd ?_ hne⟩
    cases cmd with
    | cas n exp new f =>
      cases hok : s.casOk weak (.cas n exp new f) <;> simp [LinkState.exec, hok]
    | casReaders | subReaders | initReaders => cases hquiet
    | _ => rfl
  | @lock exp new f hin hout =>
    by_cases hok : weak = false ∧ s.readers = exp
    · have hexec : s.exec weak fresh (.casReaders exp new f) =
          ({ s with readers := new }, f true) := by simp [LinkState.exec, hok]
      rw [hexec]
      exact ⟨hin.le, fun _ => hin⟩
    · have hexec : s.exec weak fresh (.casReaders exp new f) = (s, f false) := by
        simp [LinkState.exec, hok]
      rw [hexec]
      exact ⟨hout, fun hne => absurd rfl hne⟩
  | sub h | init h => exact ⟨h.le, fun _ => h⟩

lemma linked_spends (fresh : Option N) (hcmd : th.cmd (· == ·) = some cmd)
    (hok : s.casOk weak cmd = true)
    (he : th.effect = .linked n) :
    th.pc.credit = 4 ∧ (s.exec weak fresh cmd).2.pc.credit = 0 := by
  obtain ⟨helps, pc⟩ := th
  unfold Thread.effect at he
  split at he
  · cases he
  · rename_i hhelps hpc
    subst hhelps hpc
    cases hcmd
    refine ⟨rfl, ?_⟩
    simp only [LinkState.exec, listInsert] at hok ⊢
    rw [hok]
    rfl
  · cases he
  · cases he

/-! ### Threads that are left alone -/

/-- The words and keys of the linked nodes are as they were. -/
def SameWords (mem mem' : N → Node N V) (linked : List N) : Prop :=
  ∀ n ∈ linked, (mem' n).succ = (mem n).succ ∧ (mem' n).key = (mem n).key

variable {key : ℤ} {used : List N}

omit [DecidableEq N] in
lemma SameWords.agrees {p m : N} (h : SameWords mem mem' linked) (hp : p ∈ linked) :
    Agrees mem' p m ↔ Agrees mem p m := by
  unfold Agrees
  rw [(h p hp).1]

lemma SameWords.searchRank {pc : SearchPc N} (h : SameWords mem mem' linked)
    (hok : SearchOk mem linked key pc) :
    searchAloneRank mem' key pc = searchAloneRank mem key pc := by
  have hword : ∀ {n}, n ∈ linked → (mem' n).succ = (mem n).succ := fun hn => (h _ hn).1
  have hkey : ∀ {n}, n ∈ linked → (mem' n).key = (mem n).key := fun hn => (h _ hn).2
  cases pc with
  | load curr | reload curr => simp only [searchAloneRank, distance, hkey hok.1]
  | testKey curr next | advance curr next =>
    simp only [searchAloneRank, distance, h.agrees hok.1.1, hkey hok.1.1, hkey hok.2]
  | nextMarked curr next =>
    simp only [searchAloneRank, distance, h.agrees hok.1.1, hkey hok.1.1]
  | currMarked curr next | differs curr next =>
    simp only [searchAloneRank, distance, h.agrees hok.1.1, hkey hok.1.1]
  | agrees curr next =>
    simp only [searchAloneRank, distance, h.agrees hok.1.1, hkey hok.1.1, hword hok.1.1]
  | helpMarked curr next pc =>
    cases pc <;>
      simp only [searchAloneRank, distance, h.agrees hok.1.1, hkey hok.1.1, hword hok.1.1]

omit [DecidableEq N] in
lemma SameWords.searchFresh {pc : SearchPc N} (h : SameWords mem mem' linked)
    (hok : SearchOk mem linked key pc) : SearchFresh mem' pc ↔ SearchFresh mem pc := by
  have hword : ∀ {n}, n ∈ linked → (mem' n).succ = (mem n).succ := fun hn => (h _ hn).1
  cases pc with
  | load curr | reload curr => simp only [SearchFresh, hword hok.1]
  | testKey curr next | nextMarked curr next =>
    simp only [SearchFresh, h.agrees hok.1.1, hword hok.1.1]
  | advance curr next =>
    simp only [SearchFresh, h.agrees hok.1.1, hword hok.1.1, hword hok.2]
  | currMarked curr next | agrees curr next | helpMarked curr next pc =>
    simp only [SearchFresh, hword hok.1.1]
  | differs curr next => rfl

lemma SameWords.insertTier {pc : InsertPc N} (h : SameWords mem mem' linked)
    (hok : InsertOk mem linked used key pc) : insertTier mem' pc = insertTier mem pc := by
  have hword : ∀ {n}, n ∈ linked → (mem' n).succ = (mem n).succ := fun hn => (h _ hn).1
  have hkey : ∀ {n}, n ∈ linked → (mem' n).key = (mem n).key := fun hn => (h _ hn).2
  have hlink : ∀ {p m}, p ∈ linked → (CanLink mem' p m ↔ CanLink mem p m) := fun hp => by
    unfold CanLink
    rw [hword hp]
  cases pc with
  | free node => rfl
  | result prev node | marked prev node | backlink prev node =>
    simp only [LockFreeList.insertTier, depth, hword hok.1.1, hkey hok.1.1]
  | _ => simp only [LockFreeList.insertTier, hlink hok.1.1]

lemma SameWords.tryFlagTier {prev target : N} {pc : TryFlagPc} (h : SameWords mem mem' linked)
    (hp : prev ∈ linked) :
    tryFlagTier mem' prev target pc = tryFlagTier mem prev target pc := by
  have hflag : CanFlag mem' prev target ↔ CanFlag mem prev target := by
    unfold CanFlag
    rw [h.agrees hp, (h prev hp).1]
  cases pc <;>
    simp only [LockFreeList.tryFlagTier, depth, hflag, (h prev hp).1, (h prev hp).2]

lemma SameWords.tier {pc : Pc N V} (h : SameWords mem mem' linked) (hok : PcOk mem linked used pc) :
    pc.tier mem' readers = pc.tier mem readers := by
  cases pc with
  | searchFrom ctx key pc =>
    have hs := hok.2.2.1
    cases ctx <;> simp only [Pc.tier, h.searchRank hs, h.searchFresh hs]
  | insert key val pc => exact h.insertTier hok.2.2
  | tryFlag key val prev target pc => exact h.tryFlagTier hok.2.2.1.1
  | delete key val del pc => cases pc <;> rfl
  | _ => rfl

/-- A thread is as far from its end as before if no word of a linked node has changed. -/
lemma SameWords.aloneRank (h : SameWords mem mem' linked) (hok : ThreadOk mem linked used th) :
    aloneRank mem' linked readers th = aloneRank mem linked readers th := by
  obtain ⟨helps, pc⟩ := th
  have hflags : flags mem' linked = flags mem linked :=
    List.countP_congr fun n hn => by rw [(h n hn).1]
  have hpending : ∀ f ∈ helps, f.pending mem' = f.pending mem := fun f hf => by
    unfold HelpFlagged.pending
    rw [(h _ (hok.helps f hf).prev).1]
  have hany : helps.any (·.pending mem') = helps.any (·.pending mem) := by
    rw [Bool.eq_iff_iff, List.any_eq_true, List.any_eq_true]
    exact exists_congr fun f => and_congr_right fun hf => by rw [hpending f hf]
  have hcount : helps.countP (!·.pending mem') = helps.countP (!·.pending mem) :=
    List.countP_congr fun f hf => by rw [hpending f hf]
  have hinner : innerRank mem' helps = innerRank mem helps := by
    cases helps with
    | nil => rfl
    | cons f fs =>
      obtain ⟨hword, hkey⟩ := h _ (hok.helps f (by simp)).del
      simp only [innerRank, hword, hkey]
  simp only [LockFreeList.aloneRank, hflags, hany, hcount, hinner, h.tier hok.pc]

lemma exec_waits (hwait : th.waits s.readers = true) (hcmd : th.cmd (· == ·) = some cmd) :
    s.exec weak fresh cmd = (s, th) := by
  obtain ⟨helps, pc⟩ := th
  unfold Thread.waits at hwait
  split at hwait
  · rename_i hhelps hpc
    subst hhelps hpc
    cases hcmd
    have hfull : s.readers = uint32Max := by simpa using hwait
    simp [LinkState.exec, listDelete, readVal, Cmd.map, hfull]
  · rename_i hhelps hpc
    subst hhelps hpc
    cases hcmd
    have hfull : s.readers = uint32Max := by simpa using hwait
    simp [LinkState.exec, readVal, Cmd.map, hfull]
  · rename_i hhelps hpc
    subst hhelps hpc
    cases hcmd
    have hbusy : s.readers ≠ 0 := by simpa using hwait
    simp [LinkState.exec, writeVal, Cmd.map, hbusy]
  · cases hwait

/-! ### One step -/

/-- How often the first `k` threads may still change a word. -/
def LinkState.wins (s : LinkState N V) (k : ℕ) : ℕ :=
  changes s.node s.linked s.won + ∑ t ∈ Finset.range k, (s.threads t).pc.credit

/-- How far a thread is from its end if it is left alone. -/
def LinkState.rank (s : LinkState N V) (t : ℕ) : ℕ ×ₗ ℕ ×ₗ ℕ ×ₗ ℕ ×ₗ ℕ ×ₗ ℕ :=
  LockFreeList.aloneRank s.node s.linked s.readers (s.threads t)

lemma SameWords.changes (h : SameWords mem mem' linked) :
    LockFreeList.changes mem' linked won = LockFreeList.changes mem linked won := by
  unfold LockFreeList.changes
  congr 1
  refine Finset.sum_congr rfl fun n hn => ?_
  rw [(h n (List.mem_toFinset.mp hn)).1]

/-- A step changes a word, or brings its thread on, or leaves everything as it is. -/
theorem step_strives (h : LinkInv s c) (hone : OneWord s (.step t false fresh)) (ht : t < k)
    (hs : s.next (.step t false fresh) = some s') :
    Strives (Finset.range k) (s.wins k) (s'.wins k) s.rank s'.rank
      ((s.threads t).waits s.readers = false) := by
  obtain ⟨c', h', hst, hev⟩ := linkInv_step h hone hs
  obtain ⟨cmd, hcmd, hnode, hreaders, -, hth⟩ := next_step hs
  have hself : s'.threads t = (s.exec false fresh cmd).2 := by
    rw [hth, Function.update_self]
  have hothers : ∀ q, q ≠ t → s'.threads q = s.threads q := fun q hq => by
    rw [hth, Function.update_of_ne hq]
  obtain ⟨hle, hlt⟩ := (thread_spends hcmd).exec (s := s) false fresh
  rw [← hself, ← hreaders] at hlt
  rw [← hself] at hle
  have hcredit := sum_one (fun t => (s.threads t).pc.credit) (fun t => (s'.threads t).pc.credit)
    (Finset.mem_range.mpr ht) fun q hq => by rw [hothers q hq]
  have hwon' := h'.won
  rw [hst.linked, hst.won] at hwon'
  have hchanges : LockFreeList.changes s'.node s'.linked s'.won =
      LockFreeList.changes s'.node ((s.effect (.step t false fresh)).link s.linked)
        ((s.effect (.step t false fresh)).win s.won) := by
    rw [hst.linked, hst.won]
  rcases hst.move.changes h.won hwon' with ⟨he, hsame⟩ | ⟨-, hfewer⟩ | ⟨⟨n, he⟩, hmore⟩
  · -- no word changes
    have hlinked : s'.linked = s.linked := by
      rw [hst.linked, he]
      rfl
    have hequal : LockFreeList.changes s'.node s'.linked s'.won =
        LockFreeList.changes s.node s.linked s.won := by
      rw [hchanges, he]
      exact SameWords.changes hsame
    by_cases hr : s'.readers = s.readers
    · have hwins : s'.wins k ≤ s.wins k := by
        unfold LinkState.wins
        omega
      have hrest : ∀ q, q ≠ t → s'.rank q = s.rank q := fun q hq => by
        unfold LinkState.rank
        rw [hothers q hq, hlinked, hr]
        exact SameWords.aloneRank hsame (h.threads q)
      cases hwait : (s.threads t).waits s.readers with
      | true =>
        refine .wait (by simp) hwins fun q => ?_
        by_cases hq : q = t
        · subst hq
          have hstay : s'.threads q = s.threads q := by rw [hself, exec_waits hwait hcmd]
          unfold LinkState.rank
          rw [hstay, hlinked, hr, SameWords.aloneRank hsame (h.threads q)]
        · rw [hrest q hq]
      | false =>
        exact .on t (Finset.mem_range.mpr ht) hwins (aloneRank_next h hwait hs) fun q hq =>
          (hrest q hq).le
    · refine .win ?_
      have := hlt hr
      unfold LinkState.wins
      omega
  · refine .win ?_
    unfold LinkState.wins
    omega
  · -- the new node brings three further changes, and its call makes none
    obtain ⟨cmd', hcmd', hok, heff, -, hth'⟩ := next_effect hs (by rw [he]; simp)
    obtain ⟨hfour, hzero⟩ := linked_spends fresh hcmd' hok (heff.symm.trans he)
    rw [← hth'] at hzero
    refine .win ?_
    unfold LinkState.wins
    omega

/-! ### Runs -/

/-- Whether one of the first `k` threads moves. -/
def LinkAct.within (k : ℕ) : LinkAct N V → Bool
  | .call t _ | .step t _ _ => decide (t < k)

/-- Whether this is a step whose compare-exchange, if it makes one, fails spuriously. -/
def LinkAct.fails : LinkAct N V → Bool
  | .call _ _ => false
  | .step _ weak _ => weak

/-- A step, but for the load of a thread that waits for the other users of the values. -/
def LinkState.Goes (s : LinkState N V) : LinkAct N V → Prop
  | .call _ _ => False
  | .step t _ _ => (s.threads t).waits s.readers = false

omit [DecidableEq N] in
lemma shown_call {u : ℕ} {op : Op V} : .call u op ∉ th.shown t := by
  unfold Thread.shown
  split <;> simp

lemma link_lock_free {v : ℕ → LinkState N V} {b : ℕ → LinkAct N V} (h₀ : LinkCreated (v 0))
    (h : Forever LinkState.next (fun s a => Orderly s a ∧ a.within k = true) v b)
    (hfails : {i | (b i).fails = true}.Finite) (hgoes : {i | (v i).Goes (b i)}.Infinite) :
    {i | ∃ t r, .ret t r ∈ linkMachine.events (v i) (b i)}.Infinite := by
  have hmono : ∀ {ls s}, Trace LinkState.next (fun s a => Orderly s a ∧ a.within k = true) (v 0)
      ls s → Trace LinkState.next Orderly (v 0) ls s := fun htrace =>
    htrace.mono fun _ _ hok => hok.1
  refine h.returns (M := linkMachine.serving) (Finset.range k) Answers LinkState.Goes
    (fun _ a => a.fails = true) (fun s => s.wins k) LinkState.rank
    (fun ls s a s' htrace hok hs => link_turns h₀ (hmono htrace) hok.1 hs)
    (fun s a hok t op hmem => ?_)
    (fun ls s a s' htrace hok hs hcalls hsound => ?_) hfails hgoes
  · have hin := hok.2
    cases a with
    | call u op' =>
      obtain ⟨rfl, -⟩ : t = u ∧ op = op' := by
        simpa [ListMachine.serving, ListMachine.events, linkMachine] using hmem
      simpa [LinkAct.within] using hin
    | step u weak fresh =>
      have hmem : .call t op ∈ (s.next (.step u weak fresh)).elim []
        fun s' => (s'.threads u).shown u := hmem
      cases hs : s.next (.step u weak fresh) with
      | none => simp [hs] at hmem
      | some s' =>
        rw [hs] at hmem
        exact absurd hmem shown_call
  · cases a with
    | call u op => exact absurd (List.mem_singleton_self _) (hcalls u op)
    | step u weak fresh =>
      obtain ⟨c, hI⟩ := (history_trace h₀ (hmono htrace)).link
      obtain rfl : weak = false := by simpa [LinkAct.fails] using hsound
      exact step_strives hI hok.1.oneWord (by simpa [LinkAct.within] using hok.2) hs

variable {A : Type*} [DecidableEq A] {w : ℕ → ReuseState A V} {a : ℕ → ReuseAct A V} {capacity : ℕ}

/-- Whether one of the first `k` threads moves. -/
def ReuseAct.within (k : ℕ) : ReuseAct A V → Bool
  | .call t _ | .step t _ _ => decide (t < k)

omit [DecidableEq A] in
lemma ReuseAct.within_mono {j k : ℕ} {m : ReuseAct A V} (hjk : j ≤ k) (h : m.within j = true) :
    m.within k = true := by
  cases m <;> simp only [ReuseAct.within, decide_eq_true_eq] at h ⊢ <;> omega

/-- Whether this is a step whose compare-exchange, if it makes one, fails spuriously. -/
def ReuseAct.fails : ReuseAct A V → Bool
  | .call _ _ => false
  | .step _ weak _ => weak

/-- A step, but for the load of a thread that waits for the other users of the values. -/
def ReuseState.Goes (s : ReuseState A V) : ReuseAct A V → Prop
  | .call _ _ => False
  | .step t _ _ => (s.threads t).waits s.readers = false

lemma forever_follows (h₀ : ReuseCreated capacity (w 0))
    (h : Forever ReuseState.next (fun s a => s.Orderly a ∧ a.within k = true) w a) :
    ∃ v b, LinkCreated (v 0) ∧
      Forever LinkState.next (fun s a => Orderly s a ∧ a.within k = true) v b ∧
      ∀ i, Follows reuseMachine linkMachine (w i, a i) (v i, b i) ∧
        (b i).fails = (a i).fails ∧ ((v i).Goes (b i) ↔ (w i).Goes (a i)) := by
  obtain ⟨hcreated, hshadow⟩ := created_shadow h₀
  have hstep : ∀ s a s' ls u,
      Trace LinkState.next (fun s a => Orderly s a ∧ a.within k = true) _ ls u →
      (Shadow s u ∧ ∃ c, LinkInv u c) → s.Orderly a ∧ a.within k = true → s.next a = some s' →
      ∃ b u', (Orderly u b ∧ b.within k = true) ∧ u.next b = some u' ∧
        (reuseMachine.call a = linkMachine.call b ∧ reuseMachine.mover a = linkMachine.mover b ∧
          b.fails = a.fails) ∧ Shadow s' u' ∧ ∃ c, LinkInv u' c :=
    fun s a s' ls u htrace hR hok hs => by
      have hist := history_trace hcreated (htrace.mono fun _ _ hok => hok.1)
      obtain ⟨c, hI⟩ := hist.link
      have hoku := hR.1.orderly hI hok.1
      obtain ⟨u', hu, hshadow'⟩ := hR.1.step hist hok.1 hs
      obtain ⟨c', hI', -, -⟩ := linkInv_step hI hoku.oneWord hu
      refine ⟨s.shadow a, u', ⟨hoku, ?_⟩, hu, ?_, hshadow', c', hI'⟩
      · cases a <;> exact hok.2
      · cases a <;> exact ⟨rfl, rfl, rfl⟩
  obtain ⟨v, b, hv, hforever, hall⟩ :=
    h.simulate hstep ⟨hshadow, _, created_linkInv hcreated⟩
  refine ⟨v, b, by rw [hv]; exact hcreated, hforever, fun i => ?_⟩
  obtain ⟨⟨hs, c, hI⟩, ⟨hcall, hmover, hfails⟩, s', u', hs', hu', hsh, c', hI'⟩ := hall i
  refine ⟨⟨hs.mirrors hI, hcall, hmover, s', u', hs', hu', hsh.mirrors hI'⟩, hfails, ?_⟩
  have hthreads : (v i).threads = (w i).threads := hs.threads
  have hreaders : (v i).readers = (w i).readers := hs.readers
  cases ha : a i <;> cases hb : b i <;> rw [ha, hb] at hcall hmover
  · rfl
  · cases hcall
  · cases hcall
  · obtain rfl := Option.some.inj hmover
    unfold LinkState.Goes ReuseState.Goes
    rw [hthreads, hreaders]

/-- **Lock-freedom**: in every endless run of `k` threads that uses no stale pointer, calls return
again and again, if again and again some thread makes a step other than to wait for the other users
of the values, and only so many steps fail spuriously. A thread that stops between two accesses to
the list does not keep the others from returning, unless it holds a value that they wait for. -/
theorem list_lock_free (h₀ : ReuseCreated capacity (w 0))
    (h : Forever ReuseState.next (fun s a => s.Orderly a ∧ a.within k = true) w a)
    (hfails : {i | (a i).fails = true}.Finite) (hgoes : {i | (w i).Goes (a i)}.Infinite) :
    {i | ∃ t r, .ret t r ∈ reuseMachine.events (w i) (a i)}.Infinite := by
  obtain ⟨v, b, hcreated, hforever, hall⟩ := forever_follows h₀ h
  have hreturns := link_lock_free hcreated hforever
    (hfails.subset fun i hi => (hall i).2.1.symm.trans hi)
    (hgoes.mono fun i hi => (hall i).2.2.mpr hi)
  refine hreturns.mono ?_
  rintro i ⟨t, r, hmem⟩
  refine ⟨t, r, ?_⟩
  rwa [(hall i).1.events]

/-! ### A thread that stops, and one that does not -/

/-- A list with room for two keys. -/
def twoKeyList : ReuseState ℕ ℕ := .new 0 1 [2, 3, 4]

/-- Only 3 is on the chain, and thread 0 has just not found 5 there. -/
structure OnlyThree (s : ReuseState ℕ ℕ) : Prop where
  head : s.head = (0, 0)
  live : (0, 0) ∈ s.live ∧ (1, 0) ∈ s.live ∧ (3, 2) ∈ s.live
  first : (s.mem 0).succ = getUnmarkedRef (some (3, 2))
  three : (s.mem 3).succ = getUnmarkedRef (some (1, 0)) ∧ (s.mem 3).key = 3
  tail : (s.mem 1).key = intptrMax
  searched : s.threads 0 = ⟨[], .returned (.fail (some .enoent))⟩

lemma onlyThree_iff {s : ReuseState ℕ ℕ} : OnlyThree s ↔ s.head = (0, 0) ∧
    ((0, 0) ∈ s.live ∧ (1, 0) ∈ s.live ∧ (3, 2) ∈ s.live) ∧
    (s.mem 0).succ = getUnmarkedRef (some (3, 2)) ∧
    ((s.mem 3).succ = getUnmarkedRef (some (1, 0)) ∧ (s.mem 3).key = 3) ∧
    (s.mem 1).key = intptrMax ∧ s.threads 0 = ⟨[], .returned (.fail (some .enoent))⟩ :=
  ⟨fun ⟨h1, h2, h3, h4, h5, h6⟩ => ⟨h1, h2, h3, h4, h5, h6⟩,
    fun ⟨h1, h2, h3, h4, h5, h6⟩ => ⟨h1, h2, h3, h4, h5, h6⟩⟩

instance (s : ReuseState ℕ ℕ) : Decidable (OnlyThree s) := decidable_of_iff _ onlyThree_iff.symm

/-- Where thread 0 stands while it searches for 5, over and over again. -/
def searching : ℕ → Pc (ℕ × ℕ) ℕ
  | 0 => .returned (.fail (some .enoent))
  | 1 => .searchFrom (.search false) 5 (.load (0, 0))
  | 2 => .searchFrom (.search false) 5 (.testKey (0, 0) (3, 2))
  | 3 => .searchFrom (.search false) 5 (.nextMarked (0, 0) (3, 2))
  | 4 => .searchFrom (.search false) 5 (.advance (0, 0) (3, 2))
  | 5 => .searchFrom (.search false) 5 (.load (3, 2))
  | 6 => .searchFrom (.search false) 5 (.testKey (3, 2) (1, 0))
  | _ => .searchCheck 5 false (3, 2)

def searchState (s : ReuseState ℕ ℕ) (j : ℕ) : ReuseState ℕ ℕ :=
  { s with threads := Function.update s.threads 0 ⟨[], searching j⟩ }

def searchMove : ℕ → ReuseAct ℕ ℕ
  | 0 => .call 0 (.search 5 false)
  | _ => .step 0 false fun _ => ⟨none, false, false⟩

section Search

variable {s : ReuseState ℕ ℕ} {j : ℕ}

lemma searchMove_orderly (h : OnlyThree s) (hj : j < 8) :
    (searchState s j).Orderly (searchMove j) := by
  obtain ⟨-, hlive, hfirst, hthree, htail, -⟩ := h
  interval_cases j <;>
    simp [ReuseState.orderly_iff, ReuseState.FollowsLive, ReuseState.TellsApart,
      ReuseState.OneWord, ReuseState.Unlinks, ReuseState.WritesLive, searchState, searchMove,
      searching, Thread.cmd, Pc.cmd, searchFrom, Cmd.map, Cmd.node, ReuseState.casOk,
      ReuseState.answer, SearchRes.follow, Thread.lastTest, Thread.unlinks, Thread.overwrites,
      found, intptrMax, hlive, hfirst, hthree, htail]

lemma searchState_next (h : OnlyThree s) (hj : j < 8) :
    (searchState s j).next (searchMove j) = some (searchState s ((j + 1) % 8)) := by
  obtain ⟨hhead, -, hfirst, hthree, htail, -⟩ := h
  interval_cases j <;>
    simp [searchState, searchMove, searching, ReuseState.next, Thread.outside, Op.key, Op.pc,
      Thread.cmd, Pc.cmd, searchFrom, Cmd.map, ReuseState.casOk, ReuseState.write,
      ReuseState.answer, SearchRes.follow, found, intptrMin, intptrMax, hhead, hfirst, hthree,
      htail]

lemma searchMove_within : (searchMove j).within 1 = true := by cases j <;> rfl

lemma searchMove_sound : (searchMove j).fails = false := by cases j <;> rfl

lemma search_forever (h : OnlyThree s) :
    Forever ReuseState.next (fun s a => s.Orderly a ∧ a.within 1 = true)
      (fun i => searchState s (i % 8)) fun i => searchMove (i % 8) :=
  forever_cycle (by decide) (fun _ hj => ⟨searchMove_orderly h hj, searchMove_within⟩)
    fun _ hj => searchState_next h hj

end Search

/-- Thread 1 stops for ever when it has flagged the predecessor of 5; thread 0 deletes 5 in its
place, inserts 3, and searches for 5 over and over again. -/
theorem list_lock_free_stopped : ∃ (states : ℕ → ReuseState ℕ ℕ) (moves : ℕ → ReuseAct ℕ ℕ)
    (n : ℕ), ReuseCreated 2 (states 0) ∧
    Forever ReuseState.next (fun s a => s.Orderly a ∧ a.within 2 = true) states moves ∧
    (states n).threads 1 = ⟨[.call (0, 0) (2, 1)], .delete 5 false (2, 1) (.free none)⟩ ∧
    ((states n).mem 0).succ = getFlaggedRef (some (2, 1)) ∧
    (∀ i ≥ n, (moves i).within 1 = true) ∧
    {i | ∃ t r, .ret t r ∈ reuseMachine.events (states i) (moves i)}.Infinite := by
  obtain ⟨ls, s, h, -, hp⟩ := exists_trace ReuseState.next
    (fun s a => s.Orderly a ∧ a.within 2 = true) twoKeyList
    (fun s => decide (s.threads 1 =
        ⟨[.call (0, 0) (2, 1)], .delete 5 false (2, 1) (.free none)⟩) &&
      decide ((s.mem 0).succ = getFlaggedRef (some (2, 1))) &&
      (runIf ReuseState.next (fun s a => s.Orderly a ∧ a.within 1 = true) s
        (reuseCall 0 (.insert 3 30) 23 ++ reuseCall 0 (.search 5 false) 7)).any
          fun u => decide (OnlyThree u))
    (reuseCall 1 (.insert 5 50) 11 ++ reuseCall 1 (.delete 5 false) 7) (by decide +kernel)
  simp only [Bool.and_eq_true, decide_eq_true_eq] at hp
  obtain ⟨⟨hthread, hflag⟩, hrun⟩ := hp
  obtain ⟨u, hu, hthree⟩ := (Option.any_eq_true _ _).mp hrun
  have hthree : OnlyThree u := of_decide_eq_true hthree
  obtain ⟨ls', h', -⟩ := trace_of_runIf hu
  have hu₀ : searchState u (0 % 8) = u := by
    simp [searchState, searching, ← hthree.searched]
  obtain ⟨w, a, hw, hw', hall⟩ := (search_forever hthree).after h' hu₀
  obtain ⟨states, moves, hs, hstates, hall'⟩ :=
    (hw'.mono fun s a hok => ⟨hok.1, ReuseAct.within_mono (by decide) hok.2⟩).after h hw
  have hend : ∀ i, states (i + ls'.length + ls.length) = searchState u (i % 8) ∧
      moves (i + ls'.length + ls.length) = searchMove (i % 8) := fun i =>
    ⟨(hall' _).1.trans (hall i).1, (hall' _).2.trans (hall i).2⟩
  have hn := hall' 0
  rw [Nat.zero_add, hw] at hn
  have h₀ : ReuseCreated 2 (states 0) := by
    rw [hs]
    constructor <;> simp [twoKeyList, ReuseState.new, Thread.outside]
  refine ⟨states, moves, ls.length, h₀, hstates, by rw [hn.1, hthread], by rw [hn.1, hflag],
    fun i hi => ?_, list_lock_free h₀ hstates ?_ ?_⟩
  · obtain ⟨j, rfl⟩ := Nat.exists_eq_add_of_le' hi
    rw [(hall' j).2]
    exact (hw'.ok j).2
  · refine (Set.finite_Iio (ls'.length + ls.length)).subset fun i hi => ?_
    by_contra hlate
    obtain ⟨j, rfl⟩ := Nat.exists_eq_add_of_le' (not_lt.mp hlate)
    have hfails : (moves (j + (ls'.length + ls.length))).fails = true := hi
    rw [← Nat.add_assoc, (hend j).2, searchMove_sound] at hfails
    cases hfails
  · refine Set.infinite_of_injective_forall_mem
      (f := fun m => 8 * m + 1 + ls'.length + ls.length) (fun m m' h => by simpa using h)
      fun m => ?_
    obtain ⟨hstate, hmove⟩ := hend (8 * m + 1)
    have hm : (8 * m + 1) % 8 = 1 := by omega
    show (states _).Goes (moves _)
    rw [hstate, hmove, hm]
    rfl

end CoopTasks.LockFreeList
