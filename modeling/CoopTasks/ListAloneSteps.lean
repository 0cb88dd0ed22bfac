import CoopTasks.ListAlone
import Mathlib.Data.Finset.Max

/-!
Each step of an operation that runs alone brings it closer to its end.
-/

namespace CoopTasks.LockFreeList

open CoopTasks.Machine

variable {N V : Type*} [DecidableEq N] {mem mem' : N → Node N V} {linked linked' c : List N}
  {readers readers' : ℕ} {th th' : Thread N V} {pc pc' : Pc N V} {head tail n m p d : N} {key : ℤ}
  {s : LinkState N V}

/-! ### Comparing ranks -/

lemma aloneRank_stage (h : th'.pc.stage < th.pc.stage) :
    aloneRank mem' linked' readers' th' < aloneRank mem linked readers th := by
  simp only [aloneRank, Prod.Lex.toLex_lt_toLex]
  exact .inl h

lemma aloneRank_base (hstage : pc'.stage = pc.stage)
    (h : flags mem' linked' < flags mem linked ∨ flags mem' linked' = flags mem linked ∧
      ((pc'.tier mem' readers').1 < (pc.tier mem readers).1 ∨
        (pc'.tier mem' readers').1 = (pc.tier mem readers).1 ∧
          (pc'.tier mem' readers').2 < (pc.tier mem readers).2)) :
    aloneRank mem' linked' readers' ⟨[], pc'⟩ < aloneRank mem linked readers ⟨[], pc⟩ := by
  simp only [aloneRank, Prod.Lex.toLex_lt_toLex, List.any_nil, cond_false, Bool.toNat_false,
    Nat.sub_zero, hstage, lt_irrefl, true_and, false_or]
  omega

omit [DecidableEq N] in
lemma flags_pos (hn : n ∈ linked) (hf : (mem n).succ.flagged = true) : 0 < flags mem linked :=
  List.countP_pos_iff.mpr ⟨n, hn, hf⟩

lemma aloneRank_push (hstage : pc'.stage = pc.stage) (hp : p ∈ linked)
    (hs : (mem p).succ = getFlaggedRef (some d)) :
    aloneRank mem linked readers ⟨[.call p d], pc'⟩ < aloneRank mem linked readers ⟨[], pc⟩ := by
  have hpos : 0 < flags mem linked := flags_pos hp (by simp [hs])
  simp only [aloneRank, Prod.Lex.toLex_lt_toLex, List.any_nil, cond_false, Bool.toNat_false,
    Nat.sub_zero, hstage, lt_irrefl, true_and, false_or]
  left
  simp only [HelpFlagged.call, HelpFlagged.pending, hs, List.any_cons, List.any_nil, decide_true,
    Bool.or_false, Bool.toNat_true]
  omega

lemma flags_unlink (hp : p ∈ linked) (hs : (mem p).succ.flagged = true) {r : Ref N}
    (hr : r.flagged = false) : flags (setSucc mem p r) linked < flags mem linked := by
  have hle : ∀ l : List N, flags (setSucc mem p r) l ≤ flags mem l := fun l =>
    List.countP_mono_left fun n _ hn => by
      by_cases hnp : n = p
      · subst hnp
        simp [hr] at hn
      · rwa [setSucc_ne hnp] at hn
  obtain ⟨l, l', rfl⟩ := List.append_of_mem hp
  have hl := hle l
  have hl' := hle l'
  unfold flags at *
  rw [List.countP_append, List.countP_append, List.countP_cons, List.countP_cons]
  simp only [setSucc_self, hr, hs, if_true, Bool.false_eq_true, if_false]
  omega

omit [DecidableEq N] in
/-- An unmarked node that points to a marked one is flagged on it. -/
lemma Chained.flagged_of_marked (h : Chained mem linked head tail c) (hn : n ∈ linked)
    (hm : (mem n).succ.marked = false) (hs : Agrees mem n m) (hmm : (mem m).succ.marked = true) :
    (mem n).succ = getFlaggedRef (some m) := by
  have hnc := h.kept n hn hm
  obtain ⟨q, hq, hqs⟩ := h.flagger m (h.succ_mem hnc hs) hmm
  have hqc := h.kept q hq (by simp [hqs])
  rw [h.pred_unique hnc hqc hs (by simp [hqs])]
  exact hqs

omit [DecidableEq N] in
lemma Chained.distance_le (key : ℤ) (h : Chained mem linked head tail c) (hn : n ∈ linked) :
    distance mem key n + 32 ≤ afar key := by
  have := h.key_le hn
  unfold distance afar
  omega

/-- Whatever an allocation returns, an access of a thread brings it closer to its end. -/
def Nearer (s : LinkState N V) (th : Thread N V) (cmd : Cmd N V (Thread N V)) : Prop :=
  ∀ fresh, aloneRank (s.exec false fresh cmd).1.node
    ((bif s.casOk false cmd then th.effect else .none).link s.linked)
    (s.exec false fresh cmd).1.readers (s.exec false fresh cmd).2 <
      aloneRank s.node s.linked s.readers th

lemma nearer_load {k : Ref N → Thread N V}
    (h : aloneRank s.node s.linked s.readers (k (s.node n).succ) <
      aloneRank s.node s.linked s.readers th) : Nearer s th (.load n k) := fun _ => h

lemma nearer_loadKey {k : ℤ → Thread N V}
    (h : aloneRank s.node s.linked s.readers (k (s.node n).key) <
      aloneRank s.node s.linked s.readers th) : Nearer s th (.loadKey n k) := fun _ => h

lemma nearer_loadBacklink {k : Option N → Thread N V}
    (h : aloneRank s.node s.linked s.readers (k (s.node n).backlink) <
      aloneRank s.node s.linked s.readers th) : Nearer s th (.loadBacklink n k) := fun _ => h

lemma nearer_cas {exp new : Ref N} {k : Bool → Thread N V}
    (htrue : (s.node n).succ = exp → aloneRank (setSucc s.node n new) (th.effect.link s.linked)
      s.readers (k true) < aloneRank s.node s.linked s.readers th)
    (hfalse : (s.node n).succ ≠ exp → aloneRank s.node s.linked s.readers (k false) <
      aloneRank s.node s.linked s.readers th) : Nearer s th (.cas n exp new k) := fun fresh => by
  by_cases h : (s.node n).succ = exp
  · simpa [LinkState.exec, LinkState.casOk, h] using htrue h
  · simpa [LinkState.exec, LinkState.casOk, h, Effect.link] using hfalse h

lemma nearer_casReaders {exp new : ℕ} {k : Bool → Thread N V}
    (htrue : s.readers = exp → aloneRank s.node s.linked new (k true) <
      aloneRank s.node s.linked s.readers th)
    (hfalse : s.readers ≠ exp → aloneRank s.node s.linked s.readers (k false) <
      aloneRank s.node s.linked s.readers th) :
    Nearer s th (.casReaders exp new k) := fun fresh => by
  by_cases h : s.readers = exp
  · simpa [LinkState.exec, LinkState.casOk, h, Effect.link] using htrue h
  · simpa [LinkState.exec, LinkState.casOk, h, Effect.link] using hfalse h

/-! ### Helping -/

lemma aloneRank_congr (h : ∀ n, (mem' n).succ = (mem n).succ ∧ (mem' n).key = (mem n).key) :
    aloneRank mem' linked readers th = aloneRank mem linked readers th := by
  have hsucc : ∀ n, (mem' n).succ = (mem n).succ := fun n => (h n).1
  have hkey : ∀ n, (mem' n).key = (mem n).key := fun n => (h n).2
  have hpending : ∀ f : HelpFlagged N, f.pending mem' = f.pending mem := fun f => by
    simp only [HelpFlagged.pending, hsucc]
  have hinner : ∀ fs, innerRank mem' fs = innerRank mem fs := fun fs => by
    cases fs <;> simp only [innerRank, hsucc, hkey]
  have hagree : ∀ p n, Agrees mem' p n ↔ Agrees mem p n := fun p n => by
    simp only [Agrees, hsucc]
  have hfresh : ∀ pc, SearchFresh mem' pc ↔ SearchFresh mem pc := fun pc => by
    cases pc <;> simp only [SearchFresh, hagree, hsucc]
  have hsearch : ∀ key pc, searchAloneRank mem' key pc = searchAloneRank mem key pc :=
    fun key pc => by
      cases pc with
      | helpMarked curr next pc =>
        cases pc <;> simp only [searchAloneRank, distance, hagree, hsucc, hkey]
      | _ => simp only [searchAloneRank, distance, hagree, hsucc, hkey]
  have hlink : ∀ p n, CanLink mem' p n ↔ CanLink mem p n := fun p n => by
    simp only [CanLink, hsucc]
  have hflag : ∀ p n, CanFlag mem' p n ↔ CanFlag mem p n := fun p n => by
    simp only [CanFlag, hagree, hsucc]
  have htier : th.pc.tier mem' readers = th.pc.tier mem readers := by
    cases th.pc with
    | searchFrom ctx key pc => cases ctx <;> simp only [Pc.tier, hfresh, hsearch]
    | insert key val pc => cases pc <;> simp only [Pc.tier, insertTier, hlink, depth, hsucc, hkey]
    | tryFlag key val prev target pc =>
      cases pc <;> simp only [Pc.tier, tryFlagTier, hflag, depth, hsucc, hkey]
    | delete key val del pc => cases pc <;> rfl
    | _ => rfl
  simp only [aloneRank, flags, hpending, hinner, htier, hsucc]

lemma helpFlagged_step {fpc fpc' : HelpFlaggedPc N} {fs : List (HelpFlagged N)}
    (h : helpFlaggedRank (mem d).succ fpc' < helpFlaggedRank (mem d).succ fpc) :
    aloneRank mem linked readers ⟨[⟨p, d, fpc'⟩] ++ fs, pc⟩ <
      aloneRank mem linked readers ⟨⟨p, d, fpc⟩ :: fs, pc⟩ := by
  simp only [aloneRank, Prod.Lex.toLex_lt_toLex, innerRank, List.cons_append, List.nil_append,
    List.any_cons, List.countP_cons, HelpFlagged.pending, lt_irrefl, true_and, false_or]
  omega

omit [DecidableEq N] in
lemma Chained.le_key (h : Chained mem linked head tail c) (hn : n ∈ linked) :
    (mem n).key ≤ intptrMax := by
  obtain ⟨m, hm, hmax⟩ := Multiset.exists_max_image (fun m => (mem m).key)
    (s := (linked : Multiset N)) (by rintro heq; simp_all)
  simp only [Multiset.mem_coe] at hm hmax
  by_cases hmt : m = tail
  · rw [← h.tail_key, ← hmt]
    exact hmax n hn
  · obtain ⟨x, hx, -, hk⟩ := h.next m hm hmt
    have := hmax x hx
    omega

lemma Pc.tier_lt : (pc.tier mem readers).1 < 9 := by
  cases pc with
  | searchFrom ctx key pc =>
    cases ctx <;> simp only [Pc.tier] <;> first | omega | (split <;> omega)
  | insert key val pc =>
    cases pc <;> simp only [Pc.tier, insertTier] <;> first | omega | (split <;> omega) | skip
    case result => cases (mem _).succ.flagged <;> simp
  | tryFlag key val prev target pc =>
    cases pc <;> simp only [Pc.tier, tryFlagTier] <;> first | omega | (split <;> omega) | skip
    case key => cases (mem _).succ.marked <;> simp
  | delete key val del pc => cases pc <;> simp [Pc.tier]
  | _ => simp [Pc.tier]

lemma helpFlagged_unlinked {fpc : HelpFlaggedPc N} {fs : List (HelpFlagged N)}
    (hs : (mem p).succ = getFlaggedRef (some d)) (h : flags mem' linked < flags mem linked)
    (hpos : fs.any (·.pending mem') = true → 0 < flags mem' linked) :
    aloneRank mem' linked readers ⟨fs, pc⟩ <
      aloneRank mem linked readers ⟨⟨p, d, fpc⟩ :: fs, pc⟩ := by
  have hlt : (pc.tier mem' readers).1 < 9 := pc.tier_lt
  simp only [aloneRank, Prod.Lex.toLex_lt_toLex, List.any_cons, HelpFlagged.pending, hs,
    decide_true, Bool.true_or, Bool.toNat_true, cond_true, lt_irrefl, true_and, false_or]
  simp only [HelpFlagged.pending] at hpos
  cases hp : fs.any fun f => decide ((mem' f.prev).succ = getFlaggedRef (some f.del)) with
  | true =>
    have := hpos hp
    simp only [Bool.toNat_true, cond_true]
    omega
  | false =>
    simp only [Bool.toNat_false, cond_false]
    omega

lemma helpFlagged_idle {fpc : HelpFlaggedPc N} {fs : List (HelpFlagged N)}
    (hs : (mem p).succ ≠ getFlaggedRef (some d)) :
    aloneRank mem linked readers ⟨fs, pc⟩ <
      aloneRank mem linked readers ⟨⟨p, d, fpc⟩ :: fs, pc⟩ := by
  simp only [aloneRank, Prod.Lex.toLex_lt_toLex, List.any_cons, List.countP_cons,
    HelpFlagged.pending, hs, decide_false, Bool.false_or, Bool.not_false, if_true, lt_irrefl,
    true_and, false_or]
  omega

lemma helpFlagged_nested {next : N} {fs : List (HelpFlagged N)} {fpc : HelpFlaggedPc N}
    (hd : d ∈ linked) (hm : (mem d).succ = getFlaggedRef (some next))
    (hk : (mem d).key < (mem next).key) (hmax : (mem next).key ≤ intptrMax) :
    aloneRank mem linked readers ⟨[.call d next, ⟨p, d, fpc⟩] ++ fs, pc⟩ <
      aloneRank mem linked readers ⟨⟨p, d, .tryMark .result⟩ :: fs, pc⟩ := by
  have hpos : 0 < flags mem linked := flags_pos hd (by simp [hm])
  simp only [aloneRank, Prod.Lex.toLex_lt_toLex, List.cons_append, List.nil_append, List.any_cons,
    List.countP_cons, HelpFlagged.call, HelpFlagged.pending, hm, decide_true, Bool.true_or,
    Bool.toNat_true, cond_true, Bool.not_true, Bool.false_eq_true, if_false, innerRank,
    helpFlaggedRank, lt_irrefl, true_and, false_or]
  cases decide ((mem p).succ = getFlaggedRef (some d)) ||
    fs.any fun f => decide ((mem f.prev).succ = getFlaggedRef (some f.del)) with
  | true =>
    simp only [Bool.toNat_true, cond_true, lt_irrefl, true_and, false_or, add_zero, getFlaggedRef,
      cond_false]
    omega
  | false =>
    simp only [Bool.toNat_false]
    omega

lemma helpFlagged_marks {next : Option N} {fs : List (HelpFlagged N)}
    (hp : (mem p).succ = getFlaggedRef (some d)) (hd : (mem d).succ = getUnmarkedRef next) :
    aloneRank (setSucc mem d (getMarkedRef next)) linked readers
        ⟨[⟨p, d, .tryMark .result⟩] ++ fs, pc⟩ <
      aloneRank mem linked readers ⟨⟨p, d, .tryMark (.cas next)⟩ :: fs, pc⟩ := by
  have hflagged : ∀ n, (setSucc mem d (getMarkedRef next) n).succ.flagged =
      (mem n).succ.flagged := fun n => by
    by_cases hn : n = d
    · subst hn
      simp [hd]
    · rw [setSucc_ne hn]
  have hpending : ∀ g : HelpFlagged N, g.pending (setSucc mem d (getMarkedRef next)) =
      g.pending mem := fun g => by
    unfold HelpFlagged.pending
    by_cases hg : g.prev = d
    · simp [hg, hd, getMarkedRef, getUnmarkedRef, getFlaggedRef]
    · rw [setSucc_ne hg]
  have hmine : HelpFlagged.pending mem ⟨p, d, .tryMark .result⟩ = true := by
    simp [HelpFlagged.pending, hp]
  have hmine' : HelpFlagged.pending mem ⟨p, d, .tryMark (.cas next)⟩ = true := by
    simp [HelpFlagged.pending, hp]
  simp only [aloneRank, Prod.Lex.toLex_lt_toLex, List.cons_append, List.nil_append, List.any_cons,
    List.countP_cons, flags, hflagged, hpending, hmine, hmine', Bool.true_or, cond_true, innerRank,
    setSucc_key, setSucc_self, helpFlaggedRank, hd, getMarkedRef_marked, getUnmarkedRef_marked,
    getUnmarkedRef_flagged, getUnmarkedRef_node, cond_false, if_true, lt_irrefl, true_and, false_or]
  omega

/-! ### Searching -/

lemma isNode_self : isNode (· == ·) (some n) n = true := by simp [isNode]

lemma isNode_ne {p : Option N} (h : p ≠ some n) : isNode (· == ·) p n = false := by
  cases p with
  | none => rfl
  | some q =>
    have hne : n ≠ q := by
      rintro rfl
      exact h rfl
    simp [isNode, hne]

lemma search_nearer {ctx : Ctx N V} {spc spc' : SearchPc N}
    (hlt : searchAloneRank mem key spc' < searchAloneRank mem key spc)
    (hfresh : SearchFresh mem spc → SearchFresh mem spc') :
    aloneRank mem linked readers ⟨[], .searchFrom ctx key spc'⟩ <
      aloneRank mem linked readers ⟨[], .searchFrom ctx key spc⟩ := by
  refine aloneRank_base rfl (.inr ⟨rfl, ?_⟩)
  cases ctx with
  | insertFirst | insertAgain | tryFlag =>
    simp only [Pc.tier]
    by_cases h : SearchFresh mem spc
    · rw [if_pos h, if_pos (hfresh h)]
      exact .inr ⟨rfl, hlt⟩
    · rw [if_neg h]
      by_cases h' : SearchFresh mem spc'
      · rw [if_pos h']
        exact .inl (by omega)
      · rw [if_neg h']
        exact .inr ⟨rfl, hlt⟩
  | delete | search | update => exact .inr ⟨rfl, hlt⟩

omit [DecidableEq N] in
lemma canLink_of_fresh (hm : (mem p).succ.marked = false) (hs : Agrees mem p n) :
    CanLink mem p n := by
  unfold CanLink
  cases hr : (mem p).succ with
  | mk node marked flagged =>
    simp only [Agrees, hr] at hm hs
    cases flagged <;> simp [hm, hs, getUnmarkedRef]

lemma found_nearer {ctx : Ctx N V} {curr next : N} :
    aloneRank mem linked readers ⟨[], found (· == ·) key curr next ctx⟩ <
      aloneRank mem linked readers ⟨[], .searchFrom ctx key (.testKey curr next)⟩ := by
  have hinsert : ∀ {b : ℕ}, (if CanLink mem curr next then 1 else 4) <
      (if SearchFresh mem (.testKey curr next) then 2 else 5) := fun {_} => by
    by_cases h : SearchFresh mem (.testKey curr next)
    · rw [if_pos h, if_pos (canLink_of_fresh h.1 h.2)]
      omega
    · rw [if_neg h]
      split <;> omega
  cases ctx with
  | insertFirst val => exact aloneRank_base rfl (.inr ⟨rfl, .inl (hinsert (b := 0))⟩)
  | insertAgain val node => exact aloneRank_base rfl (.inr ⟨rfl, .inl (hinsert (b := 0))⟩)
  | delete val => exact aloneRank_base rfl (.inr ⟨rfl, .inl (by simp [found, Pc.tier])⟩)
  | tryFlag k val target =>
    by_cases ht : next = target
    · subst ht
      simp only [found, beq_self_eq_true, cond_true]
      refine aloneRank_base rfl (.inr ⟨rfl, .inl ?_⟩)
      simp only [Pc.tier, tryFlagTier]
      by_cases h : SearchFresh mem (.testKey curr next)
      · have hflag : CanFlag mem curr next := ⟨h.1, h.2⟩
        rw [if_pos h, if_pos hflag]
        omega
      · rw [if_neg h]
        split <;> omega
    · simp only [found, beq_eq_false_iff_ne.mpr ht, cond_false]
      exact aloneRank_stage (by simp [Pc.stage])
  | search val => exact aloneRank_stage (by simp [found, Pc.stage])
  | update val => exact aloneRank_stage (by simp [found, Pc.stage])

section

variable (hc : Chained s.node s.linked s.head s.tail c)
include hc

/-- The innermost call of `help_flagged`. -/
theorem helpFlagged_nearer {f : HelpFlagged N} {fs : List (HelpFlagged N)}
    (h : ThreadOk s.node s.linked s.used ⟨f :: fs, pc⟩) :
    Nearer s ⟨f :: fs, pc⟩ ((helpFlagged f).map fun
      | some gs => ⟨gs ++ fs, pc⟩
      | none => ⟨[], .null⟩) := by
  have hf := h.helps f (by simp)
  have hfs : ∀ g ∈ fs, HelpOk s.node s.linked g := fun g hg => h.helps g (by simp [hg])
  obtain ⟨prev, del, fpc⟩ := f
  obtain ⟨hp, hd, hk, hflag, hpc⟩ := hf
  simp only [] at hp hd hk hflag hpc
  have hboth := hc.both del hd
  cases fpc with
  | backlink =>
    intro fresh
    show aloneRank (setBacklink s.node del (some prev)) s.linked s.readers
      ⟨[⟨prev, del, .test⟩] ++ fs, pc⟩ < _
    rw [aloneRank_congr fun n => ?_]
    · exact helpFlagged_step (by simp [helpFlaggedRank])
    · by_cases hnd : n = del
      · subst hnd
        simp [setBacklink]
      · simp [setBacklink, hnd]
  | test =>
    refine nearer_load ?_
    simp only [Function.comp]
    cases hm : (s.node del).succ.marked with
    | true => exact helpFlagged_step (by simp [helpFlaggedRank])
    | false =>
      refine helpFlagged_step ?_
      simp only [helpFlaggedRank, hm]
      cases (s.node del).succ.flagged <;> simp
  | tryMark pc' =>
    cases pc' with
    | load =>
      refine nearer_load (helpFlagged_step ?_)
      simp only [helpFlaggedRank]
      cases (s.node del).succ.marked <;> cases (s.node del).succ.flagged <;> simp
    | cas next =>
      refine nearer_cas (fun hs => ?_) fun hs => ?_
      · -- not marked yet, so the predecessor is still flagged
        have hpf : (s.node prev).succ = getFlaggedRef (some del) := by
          rcases hflag with hm | hpf
          · simp [hs] at hm
          · exact hpf
        exact helpFlagged_marks hpf hs
      · refine helpFlagged_step ?_
        simp only [helpFlaggedRank]
        cases hr : (s.node del).succ with
        | mk node marked flagged =>
          rw [hr] at hs
          cases marked <;> cases flagged <;> simp
          -- unmarked and not flagged, so it does not point where it did
          have hne : node ≠ next := by
            rintro rfl
            exact hs rfl
          simp [hne]
    | result =>
      refine nearer_load ?_
      simp only [Function.comp, Ref.isFlag]
      cases hf : !(s.node del).succ.marked && (s.node del).succ.flagged with
      | false =>
        refine helpFlagged_step ?_
        simp only [helpFlaggedRank]
        cases hm : (s.node del).succ.marked <;> simp_all
      | true =>
        simp only [Bool.and_eq_true, Bool.not_eq_true'] at hf
        obtain ⟨m, hm, hs, hk'⟩ := hc.flag_next hd hf.2
        have : (s.node del).succ.node = some m := by simp [hs]
        simp only [cond_true, this, Option.map_some]
        exact helpFlagged_nested hd hs hk' (hc.le_key hm)
    | test =>
      refine nearer_load ?_
      simp only [Function.comp]
      cases hm : (s.node del).succ.marked with
      | true => exact helpFlagged_step (by simp [helpFlaggedRank, hm])
      | false =>
        refine helpFlagged_step ?_
        simp only [helpFlaggedRank, hm]
        cases (s.node del).succ.flagged <;> simp
  | helpMarked pc' =>
    cases pc' with
    | load => exact nearer_load (helpFlagged_step (by simp [helpFlaggedRank]))
    | cas next =>
      refine nearer_cas (fun hs => ?_) fun hs => helpFlagged_idle hs
      refine helpFlagged_unlinked hs (flags_unlink hp (by simp [hs]) rfl) fun hany => ?_
      obtain ⟨g, hg, hgs⟩ := List.any_eq_true.mp hany
      have hgs : (setSucc s.node prev (getUnflaggedRef next) g.prev).succ =
        getFlaggedRef (some g.del) := by simpa [HelpFlagged.pending] using hgs
      exact flags_pos (hfs g hg).prev (by simp [hgs])

/-- `search_from` on behalf of `ctx`. -/
theorem searchFrom_nearer {ctx : Ctx N V} {pc : SearchPc N}
    (h : PcOk s.node s.linked s.used (.searchFrom ctx key pc)) :
    Nearer s ⟨[], .searchFrom ctx key pc⟩ ((searchFrom (· == ·) key pc).map fun
      | .more pc' => ⟨[], .searchFrom ctx key pc'⟩
      | .ret curr next => ⟨[], found (· == ·) key curr next ctx⟩
      | .null => ⟨[], .null⟩) := by
  obtain ⟨hlow, hhigh, hs, hctx⟩ := h
  have hnext : ∀ curr, Before s.node s.linked key curr →
      ∃ m ∈ s.linked, Agrees s.node curr m ∧ (s.node curr).key < (s.node m).key := fun curr hb => by
    have hne : curr ≠ s.tail := by
      rintro rfl
      have := hb.2
      rw [hc.tail_key] at this
      omega
    obtain ⟨m, hm, hs, hk⟩ := hc.next curr hb.1 hne
    exact ⟨m, hm, hs, hk⟩
  cases pc with
  | load curr =>
    obtain ⟨m, hm, hcm, -⟩ := hnext curr hs
    refine nearer_load ?_
    simp only [Function.comp, show (s.node curr).succ.node = some m from hcm, SearchRes.follow]
    refine search_nearer ?_ fun hf => ⟨hf, hcm⟩
    simp only [searchAloneRank, if_pos hcm]
    split <;> omega
  | testKey curr next =>
    refine nearer_loadKey ?_
    by_cases hk : (s.node next).key ≤ key
    · simp only [Function.comp, if_pos hk]
      refine search_nearer ?_ id
      simp only [searchAloneRank, if_neg (show ¬ key < (s.node next).key by omega)]
      split <;> omega
    · simp only [Function.comp, if_neg hk]
      exact found_nearer
  | nextMarked curr next =>
    have hd := hc.distance_le key hs.1.1
    refine nearer_load ?_
    simp only [Function.comp]
    cases hm : (s.node next).succ.marked with
    | true =>
      refine search_nearer ?_ fun hf => hf.1
      simp only [searchAloneRank]
      split <;> omega
    | false =>
      refine search_nearer ?_ fun hf => ⟨hf.1, hf.2, hm⟩
      simp only [searchAloneRank]
      split <;> split <;> omega
  | currMarked curr next =>
    refine nearer_load ?_
    simp only [Function.comp]
    cases hm : (s.node curr).succ.marked with
    | true =>
      refine search_nearer ?_ fun hf => ?_
      · simp only [searchAloneRank]
        split <;> omega
      · rw [SearchFresh, hm] at hf
        cases hf
    | false =>
      refine search_nearer ?_ id
      simp only [searchAloneRank, hm, cond_false]
      split <;> omega
  | differs curr next =>
    have hd := hc.distance_le key hs.1.1
    refine nearer_load ?_
    simp only [Function.comp]
    by_cases ha : Agrees s.node curr next
    · rw [show (s.node curr).succ.node = some next from ha, isNode_self, cond_true]
      refine search_nearer ?_ False.elim
      simp only [searchAloneRank, if_pos ha]
      split <;> omega
    · rw [isNode_ne ha, cond_false]
      refine search_nearer ?_ False.elim
      simp only [searchAloneRank, if_neg ha]
      omega
  | agrees curr next =>
    have hd := hc.distance_le key hs.1.1
    refine nearer_load ?_
    simp only [Function.comp]
    by_cases ha : Agrees s.node curr next
    · rw [show (s.node curr).succ.node = some next from ha, isNode_self, cond_true]
      refine search_nearer ?_ id
      simp only [searchAloneRank, if_pos ha]
      cases (s.node curr).succ.marked <;> simp
    · rw [isNode_ne ha, cond_false]
      refine search_nearer ?_ id
      simp only [searchAloneRank, if_neg ha]
      omega
  | helpMarked curr next pc' =>
    have hd := hc.distance_le key hs.1.1
    cases pc' with
    | load =>
      refine nearer_load (search_nearer ?_ id)
      simp only [searchAloneRank]
      cases (s.node curr).succ.marked <;> split <;> simp
    | cas _ =>
      obtain ⟨hcurr, hn, hm, rfl⟩ := hs
      refine nearer_cas (fun hw => ?_) fun hw => ?_
      · exact aloneRank_base rfl (.inl (flags_unlink hcurr.1 (by simp [hw]) rfl))
      · refine search_nearer ?_ id
        simp only [searchAloneRank]
        by_cases ha : Agrees s.node curr next
        · -- an unmarked `curr` would be flagged on `next`
          have hcm : (s.node curr).succ.marked = true := by
            by_contra hcm
            exact hw (hc.flagged_of_marked hcurr.1 (by simpa using hcm) ha hm)
          simp [if_pos ha, hcm]
        · rw [if_neg ha]
          omega
  | reload curr =>
    obtain ⟨m, hm, hcm, -⟩ := hnext curr hs
    refine nearer_load ?_
    simp only [Function.comp, show (s.node curr).succ.node = some m from hcm, SearchRes.follow]
    refine search_nearer ?_ fun hf => ⟨hf, hcm⟩
    simp only [searchAloneRank, if_pos hcm]
    omega
  | advance curr next =>
    have hd := hc.distance_le key hs.1.1
    refine nearer_loadKey ?_
    by_cases hk : (s.node next).key ≤ key
    · simp only [Function.comp, if_pos hk]
      refine search_nearer ?_ fun hf => hf.2.2
      simp only [searchAloneRank, if_neg (show ¬ key < (s.node next).key by omega)]
      have hd' := hc.distance_le key hs.2
      by_cases ha : Agrees s.node curr next
      · have := (hc.succ_key hs.1.1 ha).2
        rw [if_pos ha]
        unfold distance
        omega
      · rw [if_neg ha]
        omega
    · simp only [Function.comp, if_neg hk]
      refine search_nearer ?_ fun hf => ⟨hf.1, hf.2.1⟩
      simp only [searchAloneRank, if_pos (show key < (s.node next).key by omega)]
      omega

omit hc in
lemma init_nearer {val : V} {node : N} {y : Node N V} {pc pc' : InsertPc N}
    {prev next : N} (hp : prev ∈ s.linked) (hnew : node ∉ s.linked) {k k' : ℕ}
    (hpc : ∀ mem : N → Node N V, insertTier mem pc = (if CanLink mem prev next then 1 else 4, k))
    (hpc' : ∀ mem : N → Node N V, insertTier mem pc' = (if CanLink mem prev next then 1 else 4, k'))
    (hk : k' < k) :
    aloneRank (Function.update s.node node y) s.linked s.readers ⟨[], .insert key val pc'⟩ <
      aloneRank s.node s.linked s.readers ⟨[], .insert key val pc⟩ := by
  have hsame : ∀ n ∈ s.linked, Function.update s.node node y n = s.node n := fun n hn =>
    Function.update_of_ne (by rintro rfl; exact hnew hn) ..
  have hflags : flags (Function.update s.node node y) s.linked = flags s.node s.linked :=
    List.countP_congr fun n hn => by rw [hsame n hn]
  have hlink : CanLink (Function.update s.node node y) prev next ↔ CanLink s.node prev next := by
    simp only [CanLink, hsame prev hp]
  refine aloneRank_base rfl (.inr ⟨hflags, .inr ?_⟩)
  simp only [Pc.tier, hpc, hpc', hlink, true_and]
  exact hk

/-- `list_insert` outside `search_from`. -/
theorem listInsert_nearer {val : V} {pc : InsertPc N}
    (h : PcOk s.node s.linked s.used (.insert key val pc)) :
    Nearer s ⟨[], .insert key val pc⟩ (listInsert key val pc) := by
  obtain ⟨hlow, hhigh, hok⟩ := h
  cases pc with
  | checkFirst prev next =>
    refine nearer_loadKey ?_
    by_cases hk : (s.node prev).key = key
    · simp only [if_pos hk]
      exact aloneRank_stage (by simp [Pc.stage])
    · simp only [if_neg hk]
      exact aloneRank_base rfl (.inr ⟨rfl, .inr ⟨rfl, by simp [Pc.tier, insertTier]⟩⟩)
  | alloc prev next =>
    intro fresh
    cases fresh with
    | none => exact aloneRank_stage Nat.zero_lt_one
    | some x => exact aloneRank_base rfl (.inr ⟨rfl, .inr ⟨rfl, by simp [Pc.tier, insertTier]⟩⟩)
  | initSucc prev next node =>
    exact fun _ => init_nearer hok.1.1 hok.2.2.2 (fun _ => rfl) (fun _ => rfl) (by omega)
  | initBacklink prev next node =>
    exact fun _ => init_nearer hok.1.1 hok.2.2.2 (fun _ => rfl) (fun _ => rfl) (by omega)
  | initKey prev next node =>
    exact fun _ => init_nearer hok.1.1 hok.2.2.2 (fun _ => rfl) (fun _ => rfl) (by omega)
  | initVal prev next node =>
    exact fun _ => init_nearer hok.1.1 hok.2.2.1.2 (fun _ => rfl) (fun _ => rfl) (by omega)
  | store prev next node =>
    exact fun _ => init_nearer hok.1.1 hok.2.2.1.2 (fun _ => rfl) (fun _ => rfl) (by omega)
  | load prev next node =>
    refine nearer_load ?_
    cases hf : (s.node prev).succ.flagged with
    | false => exact aloneRank_base rfl (.inr ⟨rfl, .inr ⟨rfl, by simp [Pc.tier, insertTier]⟩⟩)
    | true =>
      obtain ⟨m, hm, hs, hk⟩ := hc.flag_next hok.1.1 hf
      have hnode : (s.node prev).succ.node = some m := by simp [hs]
      simp only [cond_true, hnode]
      exact aloneRank_push rfl hok.1.1 hs
  | cas prev next node =>
    refine nearer_cas (fun _ => aloneRank_stage (by simp [Pc.stage])) fun hs => ?_
    refine aloneRank_base rfl (.inr ⟨rfl, ?_⟩)
    by_cases hl : CanLink s.node prev next
    · simp [Pc.tier, insertTier, hl, hl.resolve_right hs]
    · have hf : (s.node prev).succ.flagged = false := by
        by_contra hf
        exact hl (.inl (by simpa using hf))
      simp [Pc.tier, insertTier, hl, hf]
  | result prev node =>
    refine nearer_load ?_
    cases hf : (s.node prev).succ.flagged with
    | true =>
      obtain ⟨m, hm, hs, hk⟩ := hc.flag_next hok.1.1 hf
      simp only [hs, Ref.isFlag, getFlaggedRef, Bool.not_false, Bool.and_self]
      exact aloneRank_push rfl hok.1.1 hs
    | false =>
      simp only [Ref.isFlag, hf, Bool.and_false]
      exact aloneRank_base rfl (.inr ⟨rfl, .inr (by simp [Pc.tier, insertTier, hf])⟩)
  | marked prev node =>
    refine nearer_load ?_
    cases hm : (s.node prev).succ.marked with
    | true => exact aloneRank_base rfl (.inr ⟨rfl, .inr (by simp [Pc.tier, insertTier])⟩)
    | false =>
      exact aloneRank_base rfl (.inr ⟨rfl, .inl (by simp [Pc.tier, insertTier, SearchFresh, hm])⟩)
  | backlink prev node =>
    refine nearer_loadBacklink ?_
    obtain ⟨b, hb, hback, hk⟩ := hc.back prev hok.1.1 hok.2.2.2
    have := hc.key_le hb
    simp only [hback]
    refine aloneRank_base rfl (.inr ⟨rfl, .inr ⟨rfl, ?_⟩⟩)
    simp only [Pc.tier, insertTier, depth]
    omega
  | checkAgain prev next node =>
    refine nearer_loadKey ?_
    by_cases hk : (s.node prev).key = key
    · simp only [if_pos hk]
      refine aloneRank_base rfl (.inr ⟨rfl, ?_⟩)
      simp only [Pc.tier, insertTier]
      split <;> omega
    · simp only [if_neg hk]
      exact aloneRank_base rfl (.inr ⟨rfl, .inr ⟨rfl, by simp [Pc.tier, insertTier]⟩⟩)
  | free node => exact fun _ => aloneRank_stage Nat.zero_lt_one

/-- `try_flag` outside `search_from`. -/
theorem tryFlag_nearer {val : Bool} {prev target : N} {pc : TryFlagPc}
    (h : PcOk s.node s.linked s.used (.tryFlag key val prev target pc : Pc N V)) :
    Nearer s ⟨[], .tryFlag key val prev target pc⟩
      (tryFlag (· == ·) key val prev target pc) := by
  obtain ⟨hlow, hhigh, hp, ht, hk, hm⟩ := h
  have hgo : ∀ {k k' : ℕ} {pc'},
      tryFlagTier s.node prev target pc = (if CanFlag s.node prev target then 1 else 4, k) →
      tryFlagTier s.node prev target pc' = (if CanFlag s.node prev target then 1 else 4, k') →
      k' < k → aloneRank s.node s.linked s.readers ⟨[], .tryFlag key val prev target pc'⟩ <
        aloneRank s.node s.linked s.readers (⟨[], .tryFlag key val prev target pc⟩ : Thread N V) :=
    fun hpc hpc' hlt => aloneRank_base rfl (.inr ⟨rfl, .inr (by
      simp only [Pc.tier, hpc, hpc', true_and]
      exact hlt)⟩)
  have hflag : ∀ {x}, CanFlag s.node prev target → (s.node prev).succ = x →
      x.flagged = false → x = getUnflaggedRef (some target) := fun {x} hf hx hfl => by
    obtain ⟨node, marked, flagged⟩ := x
    simp only [CanFlag, Agrees, hx] at hf hfl
    simp [hf.1, hf.2, hfl, getUnflaggedRef]
  cases pc with
  | testNode =>
    refine nearer_load ?_
    cases isNode (· == ·) (s.node prev).succ.node target with
    | true => exact hgo rfl rfl (by omega)
    | false => exact hgo rfl rfl (by omega)
  | testMarked =>
    refine nearer_load ?_
    cases (s.node prev).succ.marked with
    | true => exact hgo rfl rfl (by omega)
    | false => exact hgo rfl rfl (by omega)
  | testFlagged =>
    refine nearer_load ?_
    cases (s.node prev).succ.flagged with
    | false => exact hgo rfl rfl (by omega)
    | true => exact aloneRank_stage (by simp [flagged, Pc.stage])
  | cas =>
    refine nearer_cas (fun _ => aloneRank_stage ?_) fun hs => ?_
    · cases val <;> simp [flagged, Pc.stage]
    · refine aloneRank_base rfl (.inr ⟨rfl, ?_⟩)
      by_cases hf : CanFlag s.node prev target
      · have hfl : (s.node prev).succ.flagged = true := by
          by_contra hfl
          exact hs (hflag hf rfl (by simpa using hfl))
        simp [Pc.tier, tryFlagTier, hf, hfl]
      · simp [Pc.tier, tryFlagTier, hf]
  | result =>
    refine nearer_load ?_
    cases hf : isNode (· == ·) (s.node prev).succ.node target && (s.node prev).succ.isFlag with
    | true => exact aloneRank_stage Nat.zero_lt_one
    | false =>
      refine aloneRank_base rfl (.inr ⟨rfl, .inr ?_⟩)
      have hno : ¬ (CanFlag s.node prev target ∧ (s.node prev).succ.flagged = true) := by
        rintro ⟨hcan, hfl⟩
        rw [show (s.node prev).succ.node = some target from hcan.2, isNode_self] at hf
        simp [Ref.isFlag, hcan.1, hfl] at hf
      simp [Pc.tier, tryFlagTier, hno]
  | marked =>
    refine nearer_load ?_
    cases hm : (s.node prev).succ.marked with
    | true => exact aloneRank_base rfl (.inr ⟨rfl, .inr (by simp [Pc.tier, tryFlagTier])⟩)
    | false => exact aloneRank_base rfl (.inr ⟨rfl, .inr (by simp [Pc.tier, tryFlagTier, hm])⟩)
  | backlink =>
    refine nearer_loadBacklink ?_
    obtain ⟨b, hb, hback, hbk⟩ := hc.back prev hp.1 (hm rfl)
    have := hc.key_le hb
    simp only [hback]
    refine aloneRank_base rfl (.inr ⟨rfl, .inr ⟨rfl, ?_⟩⟩)
    simp only [Pc.tier, tryFlagTier, depth]
    omega
  | key =>
    refine nearer_loadKey (aloneRank_base rfl (.inr ⟨rfl, .inl ?_⟩))
    cases hm : (s.node prev).succ.marked <;> simp [Pc.tier, tryFlagTier, SearchFresh, hm]

end

/-! ### Copying values -/

lemma readVal_nearer {pc : ReadPc V} {f : ReadPc V → Pc N V} {g : Option V → Pc N V}
    (hstage : ∀ pc, (f pc).stage = 0) (hgstage : ∀ v, (g v).stage = 0)
    (hf : ∀ pc readers, (f pc).tier s.node readers = (0, readTier readers pc))
    (hg : ∀ v readers, ((g v).tier s.node readers).1 = 0 ∧ ((g v).tier s.node readers).2 < 2)
    (hfree : pc = .load → s.readers ≠ uint32Max) :
    Nearer s ⟨[], f pc⟩ ((readVal n pc).map fun
      | .more pc' => ⟨[], f pc'⟩
      | .ret v => ⟨[], g v⟩) := by
  have hgo : ∀ readers' pc', readTier readers' pc' < readTier s.readers pc →
      aloneRank s.node s.linked readers' ⟨[], f pc'⟩ <
        aloneRank s.node s.linked s.readers ⟨[], f pc⟩ := fun _ _ hlt =>
    aloneRank_base (by rw [hstage, hstage]) (.inr ⟨rfl, .inr (by rw [hf, hf]; exact ⟨rfl, hlt⟩)⟩)
  cases pc with
  | load =>
    intro fresh
    simp only [LinkState.exec, readVal, Cmd.map, Function.comp, if_neg (hfree rfl)]
    exact hgo _ _ (by simp [readTier])
  | cas orig =>
    refine nearer_casReaders (fun ho => ?_) fun ho => ?_
    · exact hgo (orig + 1) .copy (by simp [readTier, ho])
    · exact hgo s.readers .load (by simp [readTier, Ne.symm ho])
  | copy => exact fun _ => hgo _ _ (by simp [readTier])
  | sub v =>
    refine fun _ => aloneRank_base (by rw [hstage, hgstage]) (.inr ⟨rfl, .inr ?_⟩)
    rw [hf]
    exact hg v _

lemma writeVal_nearer {val : V} {target : N} {pc : WritePc}
    (hfree : pc = .load → s.readers = 0) :
    Nearer s ⟨[], .updateWrite key val target pc⟩ ((writeVal target val pc).map fun
      | some pc' => ⟨[], .updateWrite key val target pc'⟩
      | none => ⟨[], .returned (.ok none)⟩) := by
  cases pc with
  | load =>
    intro fresh
    simp only [LinkState.exec, writeVal, Cmd.map, Function.comp, hfree rfl, ne_eq,
      not_true_eq_false, if_false]
    exact aloneRank_base rfl (.inr ⟨rfl, .inr ⟨rfl, by simp [Pc.tier, writeTier]⟩⟩)
  | cas orig =>
    refine nearer_casReaders (fun ho => ?_) fun ho => ?_
    · exact aloneRank_base rfl (.inr ⟨rfl, .inr ⟨rfl, by simp [Pc.tier, writeTier, ho]⟩⟩)
    · exact aloneRank_base rfl (.inr ⟨rfl, .inr ⟨rfl, by simp [Pc.tier, writeTier, Ne.symm ho]⟩⟩)
  | copy =>
    refine fun _ => aloneRank_base rfl (.inr ⟨List.countP_congr fun n _ => ?_, .inr ⟨rfl, ?_⟩⟩)
    · by_cases hn : n = target
      · subst hn
        simp [LinkState.exec, writeVal, Cmd.map]
      · simp [LinkState.exec, writeVal, Cmd.map, hn]
    · simp [Pc.tier, writeTier]
  | init => exact fun _ => aloneRank_base rfl (.inr ⟨rfl, .inr ⟨rfl, by simp [Pc.tier, writeTier]⟩⟩)

/-- **Each step counts**: whatever an operation does when it runs alone and does not wait brings
it closer to its end. -/
theorem thread_nearer (hc : Chained s.node s.linked s.head s.tail c)
    (h : ThreadOk s.node s.linked s.used th) (hfree : th.waits s.readers = false)
    {cmd : Cmd N V (Thread N V)} (hcmd : th.cmd (· == ·) = some cmd) : Nearer s th cmd := by
  obtain ⟨helps, pc⟩ := th
  cases helps with
  | cons f fs =>
    cases hcmd
    exact helpFlagged_nearer hc h
  | nil =>
    cases pc with
    | idle | returned | null => simp [Thread.cmd, Pc.cmd] at hcmd
    | searchFrom ctx key pc =>
      cases hcmd
      exact searchFrom_nearer hc h.pc
    | insert key val pc =>
      cases hcmd
      exact listInsert_nearer hc h.pc
    | tryFlag key val prev target pc =>
      cases hcmd
      exact tryFlag_nearer hc h.pc
    | delete key val del pc =>
      cases hcmd
      cases pc with
      | check prev =>
        refine nearer_loadKey ?_
        by_cases hk : (s.node del).key = key
        · simp only [if_pos hk]
          refine aloneRank_base rfl (.inr ⟨rfl, .inl ?_⟩)
          simp only [Pc.tier, tryFlagTier]
          split <;> omega
        · simp only [if_neg hk]
          exact aloneRank_stage Nat.zero_lt_one
      | read pc =>
        exact readVal_nearer (f := fun pc => .delete key val del (.read pc))
          (g := fun v => .delete key val del (.free (some v))) (fun _ => rfl) (fun _ => rfl)
          (fun _ _ => rfl) (fun _ _ => ⟨rfl, by simp [Pc.tier]⟩)
          fun hpc => by subst hpc; simpa [Thread.waits] using hfree
      | free v => exact fun _ => aloneRank_base rfl (.inr ⟨rfl, .inr ⟨rfl, Nat.zero_lt_one⟩⟩)
    | searchCheck key val curr =>
      cases hcmd
      refine nearer_loadKey ?_
      by_cases hk : (s.node curr).key = key
      · simp only [if_pos hk]
        cases val with
        | true => exact aloneRank_base rfl (.inr ⟨rfl, .inr ⟨rfl, by simp [Pc.tier, readTier]⟩⟩)
        | false => exact aloneRank_base rfl (.inr ⟨rfl, .inr ⟨rfl, by simp [Pc.tier]⟩⟩)
      · simp only [if_neg hk]
        exact aloneRank_base rfl (.inr ⟨rfl, .inr ⟨rfl, by simp [Pc.tier]⟩⟩)
    | searchRead key target pc =>
      cases hcmd
      exact readVal_nearer (f := fun pc => .searchRead key target pc)
        (g := fun v => .returned (.ok (some v))) (fun _ => rfl) (fun _ => rfl)
        (fun _ _ => rfl) (fun _ _ => ⟨rfl, by simp [Pc.tier]⟩)
        fun hpc => by subst hpc; simpa [Thread.waits] using hfree
    | updateCheck key val curr =>
      cases hcmd
      refine nearer_loadKey ?_
      by_cases hk : (s.node curr).key = key
      · simp only [if_pos hk]
        exact aloneRank_base rfl (.inr ⟨rfl, .inr ⟨rfl, by simp [Pc.tier, writeTier]⟩⟩)
      · simp only [if_neg hk]
        exact aloneRank_base rfl (.inr ⟨rfl, .inr ⟨rfl, by simp [Pc.tier]⟩⟩)
    | updateWrite key val target pc =>
      cases hcmd
      exact writeVal_nearer fun hpc => by subst hpc; simpa [Thread.waits] using hfree

end CoopTasks.LockFreeList
