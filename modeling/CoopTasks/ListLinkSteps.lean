import CoopTasks.ListLinkInv

/-!
Each place of each list operation, when no node is given back.
-/

namespace CoopTasks.LockFreeList

variable {N V : Type*} [DecidableEq N] {s : LinkState N V} {c : List N}

section

variable (hc : Chained s.node s.linked s.head s.tail c) (hw : Won s.node s.linked s.won)
include hc hw

theorem helpFlagged_leads {f : HelpFlagged N} {fs : List (HelpFlagged N)} {pc : Pc N V}
    (h : ThreadOk s.node s.linked s.used ⟨f :: fs, pc⟩) :
    Leads s ⟨f :: fs, pc⟩ ((helpFlagged f).map fun
      | some gs => ⟨gs ++ fs, pc⟩
      | none => ⟨[], .null⟩) := by
  have hf := h.helps f (by simp)
  have hfs : ∀ g ∈ fs, HelpOk s.node s.linked g := fun g hg => h.helps g (by simp [hg])
  obtain ⟨prev, del, fpc⟩ := f
  obtain ⟨hp, hd, hk, hflag, hpc⟩ := hf
  simp only [] at hp hd hk hflag hpc
  have hgo : ∀ gs, (∀ g ∈ gs, HelpOk s.node s.linked g) →
      Quiet s ⟨⟨prev, del, fpc⟩ :: fs, pc⟩ ⟨gs ++ fs, pc⟩ := fun gs hgs =>
    ⟨fun _ hn => hn, fun g hg => (List.mem_append.mp hg).elim (hgs g) (hfs g), h.pc⟩
  have hone : ∀ fpc', HelpFlaggedOk s.node s.linked del fpc' →
      Quiet s ⟨⟨prev, del, fpc⟩ :: fs, pc⟩ ⟨[⟨prev, del, fpc'⟩] ++ fs, pc⟩ := fun fpc' hpc' =>
    hgo _ (by simpa using ⟨hp, hd, hk, hflag, hpc'⟩)
  cases fpc with
  | backlink =>
    intro weak fresh _
    refine outcome_linked hc hw h.pc (.backlink hp hd hk) rfl (fun n hn => ?_) ?_ (fun _ hn => hn)
      fun hev hx => ?_
    · have hnd : n ≠ del := by rintro rfl; exact hn hd
      simp [LinkState.exec, helpFlagged, Cmd.map, setBacklink, hnd]
    · intro n hn
      cases hn
    · have hok := (hone .backlink trivial).ok.evolves hev (fun _ h => h) hx
      refine ⟨fun g hg => ?_, hok.pc⟩
      rcases List.mem_cons.mp hg with rfl | hg
      · refine { hok.helps _ (List.mem_cons_self ..) with pc := ⟨prev, hp, ?_, ?_⟩ }
        · simp [LinkState.exec, helpFlagged, Cmd.map, setBacklink]
        · simpa [LinkState.exec, helpFlagged, Cmd.map] using hk
      · exact hok.helps g (List.mem_cons_of_mem _ hg)
  | test =>
    refine leads_load ?_
    simp only [Function.comp]
    cases hm : (s.node del).succ.marked with
    | true => exact hone (.helpMarked .load) hm
    | false => exact hone (.tryMark .load) hpc
  | tryMark pc' =>
    cases pc' with
    | load => exact leads_load (hone (.tryMark (.cas _)) hpc)
    | cas next =>
      -- not marked yet, so the predecessor is still flagged
      refine leads_cas hc hw h.pc hd (fun hs => ?_) (fun n hn => by cases hn) (fun _ hn => hn)
        (fun _ hev hx => (hone (.tryMark .result) hpc).ok.evolves hev (fun _ h => h) hx)
        (hone (.tryMark .result) hpc)
      have hpf : (s.node prev).succ = getFlaggedRef (some del) := by
        rcases hflag with hm | hpf
        · simp [hs] at hm
        · exact hpf
      exact .mark hp hd hpf hs hpc
    | result =>
      refine leads_load ?_
      simp only [Function.comp, Ref.isFlag]
      cases hf : !(s.node del).succ.marked && (s.node del).succ.flagged with
      | false => exact hone (.tryMark .test) hpc
      | true =>
        simp only [Bool.and_eq_true, Bool.not_eq_true'] at hf
        obtain ⟨m, hm, hs, hk'⟩ := hc.flag_next hd hf.2
        have : (s.node del).succ.node = some m := by simp [hs]
        simp only [cond_true, this, Option.map_some]
        refine hgo [.call del m, ⟨prev, del, .tryMark .test⟩] fun g hg => ?_
        simp only [List.mem_cons, List.not_mem_nil, or_false] at hg
        rcases hg with rfl | rfl
        · exact ⟨hd, hm, hk', .inr hs, trivial⟩
        · exact ⟨hp, hd, hk, hflag, hpc⟩
    | test =>
      refine leads_load ?_
      simp only [Function.comp]
      cases hm : (s.node del).succ.marked with
      | true => exact hone (.helpMarked .load) hm
      | false => exact hone (.tryMark .load) hpc
  | helpMarked pc' =>
    cases pc' with
    | load => exact leads_load (hone (.helpMarked (.cas _)) ⟨hpc, rfl⟩)
    | cas next =>
      obtain ⟨hm, rfl⟩ := hpc
      have hdone := hgo [] (by simp)
      exact leads_cas hc hw h.pc hp (fun hs => .unlink hp hs hm) (fun n hn => by cases hn)
        (fun _ hn => hn) (fun _ hev hx => hdone.ok.evolves hev (fun _ h => h) hx) hdone

omit hc hw in
lemma found_quiet {ctx : Ctx N V} {key : ℤ} {pc : SearchPc N} {curr next : N}
    (h : PcOk s.node s.linked s.used (.searchFrom ctx key pc))
    (hcurr : Before s.node s.linked key curr) (hnext : After s.node s.linked key next) :
    Quiet s ⟨[], .searchFrom ctx key pc⟩ ⟨[], found (· == ·) key curr next ctx⟩ := by
  obtain ⟨hlow, hhigh, -, hctx⟩ := h
  cases ctx with
  | insertFirst val =>
    exact ⟨fun _ hn => by simp [found, Pc.holds] at hn, by simp, hctx, hhigh, hcurr, hnext⟩
  | insertAgain val node =>
    exact ⟨fun _ hn => hn, by simp, hctx.1, hhigh, hcurr, hnext, hctx.2⟩
  | delete val =>
    refine ⟨fun _ hn => by simp [found, Pc.holds] at hn, by simp, ?_, hctx, ?_, hnext.1⟩
    · show intptrMin < key + 1
      omega
    · simpa using hcurr
  | tryFlag k val target =>
    obtain ⟨rfl, ht, hk, hmax⟩ := hctx
    cases heq : next == target with
    | false =>
      simp only [found, heq, cond_false]
      exact ⟨fun _ hn => by simp [Pc.holds] at hn, by simp, trivial⟩
    | true =>
      simp only [found, heq, cond_true]
      refine ⟨fun _ hn => by simp [Pc.holds] at hn, by simp, ?_, hmax, hcurr, ht.1, hk, by simp⟩
      omega
  | search val => exact ⟨fun _ hn => by simp [found, Pc.holds] at hn, by simp, trivial⟩
  | update val => exact ⟨fun _ hn => by simp [found, Pc.holds] at hn, by simp, hcurr.1⟩

/-- `search_from` on behalf of `ctx`. -/
theorem searchFrom_leads {ctx : Ctx N V} {key : ℤ} {pc : SearchPc N}
    (h : ThreadOk s.node s.linked s.used ⟨[], .searchFrom ctx key pc⟩) :
    Leads s ⟨[], .searchFrom ctx key pc⟩ ((searchFrom (· == ·) key pc).map fun
      | .more pc' => ⟨[], .searchFrom ctx key pc'⟩
      | .ret curr next => ⟨[], found (· == ·) key curr next ctx⟩
      | .null => ⟨[], .null⟩) := by
  obtain ⟨hlow, hhigh, hs, hctx⟩ := h.pc
  have hholds : ∀ pc' n, (Pc.searchFrom ctx key pc').holds = some n →
      (Pc.searchFrom ctx key pc).holds = some n := fun _ _ hn => by
    cases ctx <;> exact hn
  have hgo : ∀ pc', SearchOk s.node s.linked key pc' →
      Quiet s ⟨[], .searchFrom ctx key pc⟩ ⟨[], .searchFrom ctx key pc'⟩ := fun pc' hpc' =>
    ⟨hholds pc', by simp, hlow, hhigh, hpc', hctx⟩
  have hnext : ∀ curr, Before s.node s.linked key curr →
      ∃ m ∈ s.linked, (s.node curr).succ.node = some m := fun curr hb => by
    have hne : curr ≠ s.tail := by
      rintro rfl
      have := hb.2
      rw [hc.tail_key] at this
      omega
    obtain ⟨m, hm, hs, -⟩ := hc.next curr hb.1 hne
    exact ⟨m, hm, hs⟩
  cases pc with
  | load curr =>
    obtain ⟨m, hm, hcm⟩ := hnext curr hs
    refine leads_load ?_
    simp only [Function.comp, hcm, SearchRes.follow]
    exact hgo (.testKey curr m) ⟨hs, hm⟩
  | testKey curr next =>
    refine leads_loadKey ?_
    by_cases hk : (s.node next).key ≤ key
    · simp only [Function.comp, if_pos hk]
      exact hgo (.nextMarked curr next) hs
    · simp only [Function.comp, if_neg hk]
      exact found_quiet h.pc hs.1 ⟨hs.2, by omega⟩
  | nextMarked curr next =>
    refine leads_load ?_
    simp only [Function.comp]
    cases hm : (s.node next).succ.marked with
    | true => exact hgo (.currMarked curr next) ⟨hs.1, hs.2, hm⟩
    | false => exact hgo (.advance curr next) hs
  | currMarked curr next =>
    refine leads_load ?_
    simp only [Function.comp]
    cases (s.node curr).succ.marked with
    | true => exact hgo (.differs curr next) hs
    | false => exact hgo (.agrees curr next) hs
  | differs curr next =>
    refine leads_load ?_
    simp only [Function.comp]
    cases isNode (· == ·) (s.node curr).succ.node next with
    | true => exact hgo (.advance curr next) ⟨hs.1, hs.2.1⟩
    | false => exact hgo (.agrees curr next) hs
  | agrees curr next =>
    refine leads_load ?_
    simp only [Function.comp]
    cases isNode (· == ·) (s.node curr).succ.node next with
    | true => exact hgo (.helpMarked curr next .load) hs
    | false => exact hgo (.reload curr) hs.1
  | helpMarked curr next pc' =>
    have hdone := hgo (.reload curr) hs.1
    cases pc' with
    | load => exact leads_load (hgo (.helpMarked curr next (.cas _)) ⟨hs.1, hs.2.1, hs.2.2, rfl⟩)
    | cas _ =>
      obtain ⟨hcurr, hn, hm, rfl⟩ := hs
      exact leads_cas hc hw h.pc hcurr.1 (fun hs => .unlink hcurr.1 hs hm) (fun n hn => by cases hn)
        (hholds _) (fun _ hev hx => hdone.ok.evolves hev (fun _ h => h) hx) hdone
  | reload curr =>
    obtain ⟨m, hm, hcm⟩ := hnext curr hs
    refine leads_load ?_
    simp only [Function.comp, hcm, SearchRes.follow]
    exact hgo (.nextMarked curr m) ⟨hs, hm⟩
  | advance curr next =>
    refine leads_loadKey ?_
    by_cases hk : (s.node next).key ≤ key
    · simp only [Function.comp, if_pos hk]
      exact hgo (.load next) ⟨hs.2, hk⟩
    · simp only [Function.comp, if_neg hk]
      exact hgo (.testKey curr next) hs

/-- `list_insert` outside `search_from`. -/
theorem listInsert_leads {key : ℤ} {val : V} {pc : InsertPc N} (hused : ∀ n ∈ s.linked, n ∈ s.used)
    (h : ThreadOk s.node s.linked s.used ⟨[], .insert key val pc⟩) :
    Leads s ⟨[], .insert key val pc⟩ (listInsert key val pc) := by
  obtain ⟨hlow, hhigh, hok⟩ := h.pc
  have hgo : ∀ pc',
      (∀ n, (Pc.insert key val pc').holds = some n → (Pc.insert key val pc).holds = some n) →
      InsertOk s.node s.linked s.used key pc' →
      Quiet s ⟨[], .insert key val pc⟩ ⟨[], .insert key val pc'⟩ := fun pc' hh hpc' =>
    ⟨hh, by simp, hlow, hhigh, hpc'⟩
  have hret : ∀ r, Quiet s ⟨[], .insert key val pc⟩ ⟨[], .returned r⟩ := fun r =>
    ⟨fun _ hn => by simp [Pc.holds] at hn, by simp, trivial⟩
  have hnone : ∀ (node : N → Node N V), ∀ f ∈ ([] : List (HelpFlagged N)), HelpOk node s.linked f :=
    fun _ _ hf => (List.not_mem_nil hf).elim
  cases pc with
  | checkFirst prev next =>
    refine leads_loadKey ?_
    by_cases hk : (s.node prev).key = key
    · simpa only [if_pos hk] using hret _
    · simp only [if_neg hk]
      have := hok.1.2
      exact hgo (.alloc prev next) (by simp [Pc.holds]) ⟨⟨hok.1.1, by omega⟩, hok.2⟩
  | alloc prev next =>
    intro weak fresh hfresh
    cases fresh with
    | none => exact (hret _).outcome rfl rfl
    | some x =>
      have hnew : x ∉ s.used := hfresh x rfl
      constructor
      · exact .outside fun _ _ => ⟨rfl, rfl, rfl⟩
      · exact fun _ _ _ => rfl
      · exact fun _ _ hf => hf
      · exact fun _ hn => List.mem_cons_of_mem _ hn
      · intro n hn
        obtain rfl : x = n := by simpa [LinkState.exec, listInsert, Pc.holds] using hn
        exact .inr hnew
      · intro n hn
        cases hn
      · exact ⟨hnone _, hlow, hhigh, hok.1, hok.2, List.mem_cons_self ..,
          fun hl => hnew (hused x hl)⟩
  | initSucc prev next node =>
    intro weak fresh _
    refine outcome_held h.pc rfl rfl rfl rfl (fun _ => rfl) fun hev =>
      ⟨hnone _, hlow, hhigh, ?_⟩
    exact ⟨hok.1.evolves hev, hok.2.1.evolves hev, hok.2.2⟩
  | initBacklink prev next node =>
    intro weak fresh _
    refine outcome_held h.pc rfl rfl rfl rfl id fun hev =>
      ⟨hnone _, hlow, hhigh, ?_⟩
    exact ⟨hok.1.evolves hev, hok.2.1.evolves hev, hok.2.2⟩
  | initKey prev next node =>
    intro weak fresh _
    refine outcome_held h.pc rfl rfl rfl rfl id fun hev =>
      ⟨hnone _, hlow, hhigh, ?_⟩
    exact ⟨hok.1.evolves hev, hok.2.1.evolves hev, hok.2.2, by simp⟩
  | initVal prev next node =>
    intro weak fresh _
    refine outcome_held h.pc rfl rfl rfl rfl id fun hev =>
      ⟨hnone _, hlow, hhigh, ?_⟩
    exact ⟨hok.1.evolves hev, hok.2.1.evolves hev, hok.2.2.1, by simpa using hok.2.2.2⟩
  | load prev next node =>
    refine leads_load ?_
    cases hf : (s.node prev).succ.flagged with
    | false => exact hgo (.store prev next node) (fun _ hn => hn) hok
    | true =>
      obtain ⟨m, hm, hs, hk⟩ := hc.flag_next hok.1.1 hf
      have hnode : (s.node prev).succ.node = some m := by simp [hs]
      simp only [cond_true, hnode]
      refine ⟨fun _ hn => hn, ?_, by omega, hhigh, ⟨hok.1.1, ?_⟩, hlow, hok.2.2⟩
      · simp only [List.mem_singleton, forall_eq]
        exact ⟨hok.1.1, hm, hk, .inr hs, trivial⟩
      · have := hok.1.2
        omega
  | store prev next node =>
    intro weak fresh _
    refine outcome_held h.pc rfl rfl rfl rfl (fun _ => rfl) fun hev =>
      ⟨hnone _, hlow, hhigh, ?_⟩
    exact ⟨hok.1.evolves hev, hok.2.1.evolves hev, hok.2.2.1, by simpa using hok.2.2.2, by simp⟩
  | cas prev next node =>
    obtain ⟨hp, hn, hfresh, hk, hs⟩ := hok
    refine leads_cas hc hw h.pc hp.1 (fun hps => ?_) (fun n hn => ?_) (hret _).holds
      (fun _ _ _ => ⟨by simp, trivial⟩) ?_
    · have := hp.2
      have := hn.2
      exact .link hp.1 hfresh.2 hps hs (by omega) (by omega)
    · cases hn
      exact ⟨rfl, rfl⟩
    · exact hgo (.result prev node) (fun _ hn => hn) ⟨hp, hfresh, hk⟩
  | result prev node =>
    refine leads_load ?_
    have hmore := hgo (.marked prev node) (fun _ hn => hn) hok
    cases hf : (s.node prev).succ.isFlag with
    | false => simpa only [hf] using hmore
    | true =>
      have hflag := hf
      simp only [Ref.isFlag, Bool.and_eq_true, Bool.not_eq_true'] at hflag
      obtain ⟨m, hm, hs, hk⟩ := hc.flag_next hok.1.1 hflag.2
      have hnode : (s.node prev).succ.node = some m := by simp [hs]
      simp only [hnode]
      refine ⟨fun _ hn => hn, ?_, hmore.ok.pc⟩
      simp only [List.mem_singleton, forall_eq]
      exact ⟨hok.1.1, hm, hk, .inr hs, trivial⟩
  | marked prev node =>
    refine leads_load ?_
    cases hm : (s.node prev).succ.marked with
    | true => exact hgo (.backlink prev node) (fun _ hn => hn) ⟨hok.1, hok.2.1, hok.2.2, hm⟩
    | false =>
      refine ⟨fun _ hn => hn, by simp, by omega, hhigh, ⟨hok.1.1, ?_⟩, hlow, hok.2⟩
      have := hok.1.2
      omega
  | backlink prev node =>
    refine leads_loadBacklink ?_
    obtain ⟨b, hb, hback, hk⟩ := hc.back prev hok.1.1 hok.2.2.2
    simp only [hback]
    refine hgo (.marked b node) (fun _ hn => hn) ⟨⟨hb, ?_⟩, hok.2.1, hok.2.2.1⟩
    have := hok.1.2
    omega
  | checkAgain prev next node =>
    refine leads_loadKey ?_
    by_cases hk : (s.node prev).key = key
    · simpa only [if_pos hk] using hgo (.free node) (fun _ hn => hn) hok.2.2.1
    · simp only [if_neg hk]
      have := hok.1.2
      exact hgo (.load prev next node) (fun _ hn => hn) ⟨⟨hok.1.1, by omega⟩, hok.2⟩
  | free node => exact leads_free (hret _)

/-- `try_flag` outside `search_from`. -/
theorem tryFlag_leads {key : ℤ} {val : Bool} {prev target : N} {pc : TryFlagPc}
    (h : ThreadOk s.node s.linked s.used ⟨[], .tryFlag key val prev target pc⟩)
    (hone : pc = .testFlagged → (s.node prev).succ.flagged = true →
      (s.node prev).succ.node = some target ∨ (s.node target).succ.marked = true) :
    Leads s ⟨[], .tryFlag key val prev target pc⟩
      (tryFlag (· == ·) key val prev target pc) := by
  obtain ⟨hlow, hhigh, hp, ht, hk, hm⟩ := h.pc
  have hlt : (s.node prev).key < (s.node target).key := by
    have := hp.2
    omega
  have hgo : ∀ pc', (pc' = .backlink → (s.node prev).succ.marked = true) →
      Quiet s ⟨[], .tryFlag key val prev target pc⟩ ⟨[], .tryFlag key val prev target pc'⟩ :=
    fun pc' hm' => ⟨fun _ hn => hn, by simp, hlow, hhigh, hp, ht, hk, hm'⟩
  have hpc : ∀ deleted, (flagged (V := V) key val prev target deleted).pc.holds = none ∧
      PcOk s.node s.linked s.used
        (flagged (V := V) key val prev target deleted).pc := fun deleted => by
    cases deleted <;> cases val <;> exact ⟨rfl, trivial⟩
  have hflagged : ∀ deleted, ((s.node target).succ.marked = true ∨
      (s.node prev).succ = getFlaggedRef (some target)) →
      Quiet s ⟨[], .tryFlag key val prev target pc⟩ (flagged key val prev target deleted) :=
    fun deleted hf => by
      refine ⟨fun n hn => by simp [(hpc deleted).1] at hn, ?_, (hpc deleted).2⟩
      simp only [flagged, List.mem_singleton, forall_eq]
      exact ⟨hp.1, ht, hlt, hf, trivial⟩
  have hfound : (s.node prev).succ.flagged = true → (s.node prev).succ.node = some target →
      (s.node prev).succ = getFlaggedRef (some target) := fun hf hn => by
    obtain ⟨m, -, hs, -⟩ := hc.flag_next hp.1 hf
    obtain rfl : m = target := by simpa [hs] using hn
    exact hs
  cases pc with
  | testNode =>
    refine leads_load ?_
    cases isNode (· == ·) (s.node prev).succ.node target with
    | true => exact hgo .testMarked (by simp)
    | false => exact hgo .cas (by simp)
  | testMarked =>
    refine leads_load ?_
    cases (s.node prev).succ.marked with
    | true => exact hgo .cas (by simp)
    | false => exact hgo .testFlagged (by simp)
  | testFlagged =>
    refine leads_load ?_
    cases hf : (s.node prev).succ.flagged with
    | false => exact hgo .cas (by simp)
    | true =>
      refine hflagged false ?_
      rcases hone rfl hf with hn | hm
      · exact .inr (hfound hf hn)
      · exact .inl hm
  | cas =>
    refine leads_cas hc hw h.pc hp.1 (fun hs => .flag hp.1 hs (by omega)) (fun n hn => by cases hn)
      (fun n hn => ?_) (fun hs hev hx => ?_) (hgo .result (by simp))
    · simp [(hpc true).1] at hn
    · refine ⟨?_, (hpc true).2.evolves hev (fun _ h => h) hx⟩
      show ∀ f ∈ [HelpFlagged.call prev target], HelpOk _ s.linked f
      simp only [List.mem_singleton, forall_eq]
      exact ⟨hp.1, ht, by simpa [HelpFlagged.call] using hlt, .inr setSucc_self, trivial⟩
  | result =>
    refine leads_load ?_
    cases hf : isNode (· == ·) (s.node prev).succ.node target && (s.node prev).succ.isFlag with
    | false => exact hgo .marked (by simp)
    | true =>
      refine hflagged false (.inr ?_)
      simp only [Bool.and_eq_true, Ref.isFlag, isNode, Option.any_eq_true, beq_iff_eq] at hf
      obtain ⟨⟨x, hx, rfl⟩, -, hfl⟩ := hf
      exact hfound hfl hx
  | marked =>
    refine leads_load ?_
    cases hm : (s.node prev).succ.marked with
    | true => exact hgo .backlink fun _ => hm
    | false => exact hgo .key (by simp)
  | backlink =>
    refine leads_loadBacklink ?_
    obtain ⟨b, hb, hback, hbk⟩ := hc.back prev hp.1 (hm rfl)
    simp only [hback]
    have := hp.2
    exact ⟨fun _ hn => hn, by simp, hlow, hhigh, ⟨hb, by omega⟩, ht, hk, by simp⟩
  | key =>
    refine leads_loadKey ?_
    have hbefore := hp
    refine ⟨fun _ hn => by simp [Pc.holds] at hn, by simp, ?_, ?_, ?_, ?_⟩
    · omega
    · omega
    · rw [hk]
      exact hp
    · exact ⟨by omega, ⟨ht, by omega⟩, hk, hhigh⟩

end

lemma readVal_leads {th : Thread N V} {n : N} {pc : ReadPc V} {k : ReadRes V → Thread N V}
    (h : ∀ r, Quiet s th (k r)) : Leads s th ((readVal n pc).map k) := by
  cases pc with
  | load =>
    refine leads_loadReaders fun orig => ?_
    simp only [Function.comp]
    split <;> exact h _
  | cas orig =>
    refine leads_casReaders fun ok => ?_
    simp only [Function.comp]
    cases ok <;> exact h _
  | copy => exact leads_loadVal fun v => h _
  | sub v => exact leads_subReaders (h _)

/-- Every access of every thread, if the last of `try_flag`'s first loads is not deceived. -/
theorem thread_leads (hc : Chained s.node s.linked s.head s.tail c)
    (hw : Won s.node s.linked s.won) (hused : ∀ n ∈ s.linked, n ∈ s.used) {th : Thread N V}
    (h : ThreadOk s.node s.linked s.used th)
    (hone : ∀ x ∈ th.lastTest, (s.node x.1).succ.flagged = true →
      (s.node x.1).succ.node = some x.2 ∨ (s.node x.2).succ.marked = true)
    {cmd : Cmd N V (Thread N V)} (hcmd : th.cmd (· == ·) = some cmd) : Leads s th cmd := by
  obtain ⟨helps, pc⟩ := th
  cases helps with
  | cons f fs =>
    cases hcmd
    exact helpFlagged_leads hc hw h
  | nil =>
    have hret : ∀ r, Quiet s ⟨[], pc⟩ ⟨[], .returned r⟩ := fun r =>
      ⟨fun _ hn => by simp [Pc.holds] at hn, by simp, trivial⟩
    cases pc with
    | idle | returned | null => simp [Thread.cmd, Pc.cmd] at hcmd
    | searchFrom ctx key pc =>
      cases hcmd
      exact searchFrom_leads hc hw h
    | insert key val pc =>
      cases hcmd
      exact listInsert_leads hc hw hused h
    | tryFlag key val prev target pc =>
      cases hcmd
      exact tryFlag_leads hc hw h fun hpc => by subst hpc; exact hone (prev, target) rfl
    | delete key val del pc =>
      cases hcmd
      cases pc with
      | check prev =>
        obtain ⟨hlow, hhigh, hp, hd⟩ := h.pc
        refine leads_loadKey ?_
        by_cases hk : (s.node del).key = key
        · simp only [if_pos hk]
          exact ⟨fun _ hn => by simp [Pc.holds] at hn, by simp, hlow, hhigh, hp, hd, hk, by simp⟩
        · simpa only [if_neg hk] using hret _
      | read pc =>
        refine readVal_leads fun r => ?_
        cases r <;> exact ⟨fun _ hn => by simp [Pc.holds] at hn, by simp, trivial⟩
      | free v => exact leads_free (hret _)
    | searchCheck key val curr =>
      cases hcmd
      refine leads_loadKey ?_
      by_cases hk : (s.node curr).key = key
      · simp only [if_pos hk]
        cases val <;> exact ⟨fun _ hn => by simp [Pc.holds] at hn, by simp, trivial⟩
      · simpa only [if_neg hk] using hret _
    | searchRead key target pc =>
      cases hcmd
      refine readVal_leads fun r => ?_
      cases r <;> exact ⟨fun _ hn => by simp [Pc.holds] at hn, by simp, trivial⟩
    | updateCheck key val curr =>
      cases hcmd
      refine leads_loadKey ?_
      by_cases hk : (s.node curr).key = key
      · simp only [if_pos hk]
        exact ⟨fun _ hn => by simp [Pc.holds] at hn, by simp, h.pc⟩
      · simpa only [if_neg hk] using hret _
    | updateWrite key val target pc =>
      cases hcmd
      have hgo : ∀ pc', Quiet s ⟨[], .updateWrite key val target pc⟩
          ⟨[], .updateWrite key val target pc'⟩ := fun pc' => ⟨fun _ hn => hn, by simp, h.pc⟩
      cases pc with
      | load =>
        refine leads_loadReaders fun orig => ?_
        by_cases ho : orig ≠ 0
        · simpa only [Function.comp, if_pos ho] using hgo .load
        · simpa only [Function.comp, if_neg ho] using hgo (.cas orig)
      | cas orig =>
        refine leads_casReaders fun ok => ?_
        cases ok
        · exact hgo .load
        · exact hgo .copy
      | copy =>
        intro weak fresh _
        refine outcome_linked hc hw h.pc (.outside fun n _ => ?_) rfl (fun n hn => ?_)
          (fun n hn => by cases hn) (fun _ hn => hn) fun hev hx =>
            (hgo .init).ok.evolves hev (fun _ h => h) hx
        · by_cases hnt : n = target
          · subst hnt
            simp [LinkState.exec, Cmd.map, writeVal]
          · simp [LinkState.exec, Cmd.map, writeVal, hnt]
        · have hnt : n ≠ target := by rintro rfl; exact hn h.pc
          simp [LinkState.exec, Cmd.map, writeVal, hnt]
      | init => exact leads_initReaders (hret _)

end CoopTasks.LockFreeList
