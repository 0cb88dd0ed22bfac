import CoopTasks.ListTurns

/-!
What is so after a run, beside the history of its calls: which values the nodes hold, and which
`list_delete` waits for a node that is about to be marked.
-/

namespace CoopTasks.LockFreeList

open CoopTasks.Machine CoopTasks.Linearize ListMachine

variable {N V : Type*} [DecidableEq N] {s s' s₀ : LinkState N V} {a : LinkAct N V} {c : List N}
  {n d x : N} {t u : ℕ} {key : ℤ} {op : Op V} {r : Res V} {th th' : Thread N V}
  {cmd : Cmd N V (Thread N V)} {weak : Bool} {fresh : Option N}
  {recent moves : List (LinkState N V × LinkAct N V)} {e : Effect N}

/-! ### Values -/

/-- The node that a thread holds with the value that it has copied there. -/
def Pc.filled : Pc N V → Option (N × V)
  | .searchFrom (.insertAgain val node) _ _ => some (node, val)
  | .insert _ val (.load _ _ node) | .insert _ val (.store _ _ node)
  | .insert _ val (.cas _ _ node) | .insert _ val (.result _ node)
  | .insert _ val (.marked _ node) | .insert _ val (.backlink _ node)
  | .insert _ val (.checkAgain _ _ node) => some (node, val)
  | _ => none

/-- The values are where they were copied to. -/
def Fills (node : N → Node N V) (pc : Pc N V) : Prop :=
  ∀ y ∈ pc.filled, (node y.1).val = some y.2

omit [DecidableEq N] in
lemma filled_holds {pc : Pc N V} {y : N × V} (h : pc.filled = some y) : pc.holds = some y.1 := by
  unfold Pc.filled at h
  split at h <;> cases h <;> rfl

omit [DecidableEq N] in
lemma fills_none {node : N → Node N V} {pc : Pc N V} (h : pc.filled = none) : Fills node pc :=
  fun y hy => by
    rw [h] at hy
    cases hy

omit [DecidableEq N] in
lemma listInsert_filled {val : V} {pc : InsertPc N} {y : N × V} :
    (listInsert key val pc).All fun th' => th'.pc.filled = some y →
      (Pc.insert key val pc).filled = some y ∨
        ∃ prev next, pc = .initVal prev next y.1 ∧ val = y.2 := by
  cases pc with
  | initSucc | initBacklink | initKey | free => exact fun h => by cases h
  | initVal prev next node =>
    intro h
    cases h
    exact .inr ⟨prev, next, rfl, rfl⟩
  | store => exact .inl
  | checkFirst =>
    intro k
    dsimp only
    split_ifs <;> exact fun h => by cases h
  | checkAgain =>
    intro k
    dsimp only
    split_ifs
    · exact fun h => by cases h
    · exact .inl
  | alloc =>
    intro n
    cases n <;> exact fun h => by cases h
  | backlink =>
    intro b
    cases b
    · exact fun h => by cases h
    · exact .inl
  | cas =>
    intro ok
    cases ok
    · exact .inl
    · exact fun h => by cases h
  | marked =>
    intro r
    cases hm : r.marked <;> simp only [hm, cond_true, cond_false] <;> exact .inl
  | load =>
    intro r
    cases hf : r.flagged <;> cases hn : r.node <;> simp only [hf, hn, cond_true, cond_false]
    · exact .inl
    · exact .inl
    · exact fun h => by cases h
    · exact .inl
  | result =>
    intro r
    cases hf : r.isFlag <;> cases hn : r.node <;> simp only [hf, hn]
    · exact .inl
    · exact .inl
    · exact fun h => by cases h
    · exact .inl

omit [DecidableEq N] in
lemma tryFlag_unfilled {same : N → N → Bool} {val : Bool} {prev target : N} {pc : TryFlagPc} :
    (tryFlag (V := V) same key val prev target pc).All fun th' => th'.pc.filled = none := by
  have hcond : ∀ (b : Bool) {th th' : Thread N V}, th.pc.filled = none → th'.pc.filled = none →
      (bif b then th else th').pc.filled = none :=
    of_cond (P := fun th : Thread N V => th.pc.filled = none)
  have hflag : ∀ deleted, (flagged key val prev target deleted : Thread N V).pc.filled = none :=
    fun deleted => by cases deleted <;> rfl
  cases pc with
  | testNode | testMarked | marked => exact fun r => hcond _ rfl rfl
  | testFlagged | result | cas => exact fun r => hcond _ (hflag _) rfl
  | backlink =>
    intro b
    cases b <;> rfl
  | key => exact fun k => rfl

omit [DecidableEq N] in
lemma filled_step {same : N → N → Bool} (hcmd : th.cmd same = some cmd) {y : N × V} :
    cmd.All fun th' => th'.pc.filled = some y → th.pc.filled = some y ∨
      ∃ key prev next, th = ⟨[], .insert key y.2 (.initVal prev next y.1)⟩ := by
  have hnone : ∀ {P : Prop} {pc : Pc N V}, pc.filled = none → pc.filled = some y → P :=
    fun h h' => by
      rw [h] at h'
      cases h'
  obtain ⟨helps, pc⟩ := th
  cases helps with
  | cons f fs =>
    cases hcmd
    refine Cmd.all_map.mpr (Cmd.all_of_forall (fun r => ?_) _)
    cases r with
    | none => exact hnone rfl
    | some gs => exact .inl
  | nil =>
    cases pc with
    | idle | returned | null => cases hcmd
    | searchFrom ctx key pc =>
      cases hcmd
      refine Cmd.all_map.mpr (Cmd.all_of_forall (fun r => ?_) _)
      cases r with
      | more pc' => cases ctx <;> exact .inl
      | null => exact hnone rfl
      | ret curr next =>
        cases ctx with
        | insertAgain val node => exact .inl
        | tryFlag k val target =>
          refine hnone ?_
          cases hsame : same next target <;> simp only [found, hsame] <;> rfl
        | _ => exact hnone rfl
    | insert key val pc =>
      cases hcmd
      refine (listInsert_filled (y := y)).imp fun th' himp h => ?_
      rcases himp h with h | ⟨prev, next, rfl, rfl⟩
      · exact .inl h
      · exact .inr ⟨key, prev, next, rfl⟩
    | tryFlag key val prev target pc =>
      cases hcmd
      exact tryFlag_unfilled.imp fun _ => hnone
    | delete key val d pc =>
      cases hcmd
      cases pc with
      | check prev =>
        intro k
        dsimp only
        split_ifs <;> exact hnone rfl
      | read pc =>
        refine Cmd.all_map.mpr (Cmd.all_of_forall (fun r => ?_) _)
        cases r <;> exact hnone rfl
      | free v => exact hnone rfl
    | searchCheck key val curr =>
      cases hcmd
      intro k
      dsimp only
      split_ifs
      · cases val <;> exact hnone rfl
      · exact hnone rfl
    | updateCheck key val curr =>
      cases hcmd
      intro k
      dsimp only
      split_ifs <;> exact hnone rfl
    | searchRead key target pc =>
      cases hcmd
      refine Cmd.all_map.mpr (Cmd.all_of_forall (fun r => ?_) _)
      cases r <;> exact hnone rfl
    | updateWrite key val target pc =>
      cases hcmd
      refine Cmd.all_map.mpr (Cmd.all_of_forall (fun r => ?_) _)
      cases r <;> exact hnone rfl

omit [DecidableEq N] in
lemma filled_writes {same : N → N → Bool} (hcmd : th.cmd same = some cmd) {y : N × V}
    (h : th.pc.filled = some y) : cmd.writes ≠ some y.1 := by
  intro hw
  obtain ⟨helps, pc⟩ := th
  cases helps with
  | cons f fs =>
    cases hcmd
    obtain ⟨prev, del, fpc⟩ := f
    rw [Cmd.writes_map] at hw
    cases fpc with
    | tryMark pc => cases pc <;> cases hw
    | helpMarked pc => cases pc <;> cases hw
    | _ => cases hw
  | nil =>
    cases pc with
    | searchFrom ctx key pc =>
      cases hcmd
      rw [Cmd.writes_map] at hw
      cases pc with
      | helpMarked curr next pc => cases pc <;> cases hw
      | _ => cases hw
    | insert key val pc =>
      cases hcmd
      cases pc with
      | initVal => cases h
      | _ => cases hw
    | _ => cases h

lemma fills_step (hcmd : th.cmd (· == ·) = some cmd) (h : Fills s.node th.pc) :
    Fills (s.exec weak fresh cmd).1.node (s.exec weak fresh cmd).2.pc := by
  intro y hy
  rcases (filled_step hcmd (y := y)).exec weak fresh hy with hsame | ⟨key, prev, next, rfl⟩
  · rw [exec_val (filled_writes hcmd hsame)]
    exact h y hsame
  · cases hcmd
    simp [listInsert, LinkState.exec]

lemma next_held (h : LinkInv s c) (hone : OneWord s (.step t weak fresh))
    (hs : s.next (.step t weak fresh) = some s') (hut : u ≠ t)
    (hn : (s.threads u).pc.holds = some n) : s'.node n = s.node n := by
  simp only [LinkState.next] at hs
  split at hs
  · rename_i hfresh
    obtain ⟨cmd, hcmd, rfl⟩ := Option.map_eq_some_iff.mp hs
    have hout := thread_leads h.chained h.won h.used (h.threads t) hone hcmd weak fresh hfresh
    refine hout.frame n ((h.threads u).pc.holds_fresh hn).2 fun ht => ?_
    exact hut (h.distinct u t n hn ht)
  · cases hs

omit [DecidableEq N] in
lemma overwrites_cases (h : th.overwrites = some n) :
    ∃ key val, th = ⟨[], .updateWrite key val n .copy⟩ := by
  obtain ⟨helps, pc⟩ := th
  cases helps with
  | cons f fs => cases h
  | nil =>
    cases pc with
    | updateWrite key val target pc =>
      cases pc with
      | copy =>
        cases h
        exact ⟨key, val, rfl⟩
      | _ => cases h
    | _ => cases h

lemma next_overwrites {val : V} (hs : s.next (.step t weak fresh) = some s')
    (hth : s.threads t = ⟨[], .updateWrite key val n .copy⟩) :
    s'.threads t = ⟨[], .updateWrite key val n .init⟩ ∧ (s'.node n).val = some val := by
  obtain ⟨cmd, hcmd, hnode, -, -, hth'⟩ := next_step hs
  rw [hth] at hcmd
  cases hcmd
  refine ⟨?_, ?_⟩
  · rw [hth', Function.update_self]
    rfl
  · rw [hnode]
    simp [writeVal, Cmd.map, LinkState.exec]

lemma valued_step (h : LinkInv s c) (hone : OneWord s a) (hs : s.next a = some s')
    (hfills : ∀ t, Fills s.node (s.threads t).pc) (hvalued : Valued s) : Valued s' := by
  obtain ⟨c', h', hst, hev⟩ := linkInv_step h hone hs
  intro n hn hlow hhigh
  by_cases hl : n ∈ s.linked
  · rw [hev.key n hl] at hlow hhigh
    by_cases hover : ∃ t weak fresh, a = .step t weak fresh ∧ (s.threads t).overwrites = some n
    · obtain ⟨t, weak, fresh, rfl, hover⟩ := hover
      obtain ⟨key, val, hth⟩ := overwrites_cases hover
      rw [(next_overwrites hs hth).2]
      rfl
    · rw [next_val h hs hl fun t weak fresh ha ht => hover ⟨t, weak, fresh, ha, ht⟩]
      exact hvalued n hl hlow hhigh
  · -- the node was linked by the thread that has filled it
    rw [hst.linked] at hn
    have he := (Effect.mem_link hn).resolve_left hl
    obtain ⟨t, fresh, rfl, heff⟩ := effect_step he (by simp)
    obtain ⟨key, val, prev, next, hth⟩ := effect_linked heff
    obtain ⟨cmd, hcmd, hnode, -, -, -⟩ := next_step hs
    have hfill := hfills t
    rw [hth] at hcmd hfill
    rw [hnode, exec_val (filled_writes hcmd rfl), hfill (n, val) rfl]
    rfl

/-! ### Who waits for a node to be marked -/

/-- A node with a flagged predecessor is being deleted by one `list_delete`. -/
structure Winners (s : LinkState N V) : Prop where
  waits : ∀ p ∈ s.linked, ∀ n, (s.node p).succ = getFlaggedRef (some n) →
    (s.node n).succ.marked = false → ∃ t, (s.threads t).pc.target = some n
  once : ∀ t u n, (s.threads t).pc.target = some n → (s.threads u).pc.target = some n → t = u
  won : ∀ t n, (s.threads t).pc.target = some n → n ∈ s.won

section

omit [DecidableEq N]

lemma Thread.Open.no_target (h : th.Open) : th.pc.target ≠ some n := by
  rw [h.target]
  simp

/-- Only the compare-exchange of `try_flag` makes a `list_delete` wait for a node. -/
lemma Strides.target (h : Strides s op e th th') (hn : th'.pc.target = some n) :
    th.pc.target = some n ∨ e = .flagged n := by
  cases h with
  | on _ h' => exact absurd hn h'.no_target
  | fail | link | copy | init | free => cases hn
  | flag he _ _ _ h' =>
    obtain rfl := Option.some.inj (h'.symm.trans hn)
    exact .inr he
  | wait _ _ h h' =>
    obtain rfl := Option.some.inj (h'.symm.trans hn)
    exact .inl h

lemma Strides.kept (h : Strides s op e th th') (hn : th.pc.target = some n) :
    th'.pc.target = some n ∨ th.helps = [] := by
  cases h with
  | on h => exact absurd hn h.no_target
  | fail h => exact absurd hn h.no_target
  | link | copy | init => cases hn
  | flag _ h => exact absurd hn h.no_target
  | wait _ _ h h' =>
    obtain rfl := Option.some.inj (h.symm.trans hn)
    exact .inl h'
  | free => exact .inr rfl

end

lemma next_effect (hs : s.next (.step t weak fresh) = some s')
    (he : s.effect (.step t weak fresh) ≠ .none) :
    ∃ cmd, (s.threads t).cmd (· == ·) = some cmd ∧ s.casOk weak cmd = true ∧
      s.effect (.step t weak fresh) = (s.threads t).effect ∧
      s'.node = (s.exec weak fresh cmd).1.node ∧ s'.threads t = (s.exec weak fresh cmd).2 := by
  obtain ⟨cmd, hcmd, hnode, -, -, hth⟩ := next_step hs
  have heff : s.effect (.step t weak fresh) =
      bif s.casOk weak cmd then (s.threads t).effect else .none := by
    simp [LinkState.effect, hcmd]
  rw [heff] at he ⊢
  cases hcas : s.casOk weak cmd with
  | false => simp [hcas] at he
  | true => exact ⟨cmd, hcmd, hcas, rfl, hnode, by rw [hth, Function.update_self]⟩

lemma next_flags (hs : s.next (.step t weak fresh) = some s')
    (he : s.effect (.step t weak fresh) = .flagged n) : (s'.threads t).pc.target = some n := by
  obtain ⟨cmd, hcmd, hcas, heff, -, hth⟩ := next_effect hs (by simp [he])
  obtain ⟨key, val, prev, hpc⟩ := effect_flagged (heff.symm.trans he)
  rw [hpc] at hcmd
  cases hcmd
  simp only [tryFlag] at hcas
  rw [hth]
  simp only [tryFlag, LinkState.exec, hcas, cond_true]
  cases val <;> rfl

omit [DecidableEq N] in
lemma winners_created (h : LinkCreated s) : Winners s where
  waits p hp n hs := by
    have := h.unflagged p
    simp [hs, getFlaggedRef] at this
  once t u n ht := by
    rcases outside_cases (h.threads t) with hth | ⟨r, hth⟩ <;> rw [hth] at ht <;> cases ht
  won t n ht := by
    rcases outside_cases (h.threads t) with hth | ⟨r, hth⟩ <;> rw [hth] at ht <;> cases ht

/-! ### Runs -/

/-- What is so after a run with these moves. -/
structure Account (moves : List (LinkState N V × LinkAct N V)) (s : LinkState N V) : Prop where
  history : History moves s
  trails : ∀ recent earlier, moves = recent ++ earlier → Trail recent s
  keys : ∀ t op recent, linkMachine.Since moves t op recent →
    intptrMin < op.key ∧ op.key < intptrMax
  sees : ∀ t op recent, linkMachine.Since moves t op recent → (s.threads t).Sees recent s op
  fills : ∀ t, Fills s.node (s.threads t).pc
  valued : Valued s
  winners : Winners s

lemma account_created (h : LinkCreated s) : Account [] s where
  history := history_created h
  trails recent earlier heq := by
    obtain ⟨rfl, -⟩ := List.append_eq_nil_iff.mp heq.symm
    exact trail_nil (created_linkInv h)
  keys t op recent hsince := by
    obtain ⟨x, earlier, heq, -⟩ := hsince
    simp at heq
  sees t op recent hsince := by
    obtain ⟨x, earlier, heq, -⟩ := hsince
    simp at heq
  fills t := by
    rcases outside_cases (h.threads t) with ht | ⟨r, ht⟩ <;> rw [ht] <;> exact fills_none rfl
  valued n hn hlow hhigh := by
    rw [h.linked] at hn
    rcases List.mem_pair.mp hn with rfl | rfl
    · simp [h.head] at hlow
    · simp [h.tail] at hhigh
  winners := winners_created h

lemma Account.strides (h : Account moves s) (hok : Orderly s (.step t weak fresh))
    (hs : s.next (.step t weak fresh) = some s') :
    ∃ op recent, linkMachine.Since moves t op recent ∧
      Strides s op (s.effect (.step t weak fresh)) (s.threads t) (s'.threads t) ∧
      (s'.threads t).Sees recent s op := by
  obtain ⟨c, hI⟩ := h.history.link
  obtain ⟨c', hI', -, -⟩ := linkInv_step hI hok.oneWord hs
  obtain ⟨cmd, hcmd, hnode, -, -, hth⟩ := next_step hs
  have hin : (s.threads t).outside = false := by
    by_contra hno
    rcases outside_cases (by simpa using hno) with ht | ⟨r, ht⟩ <;> rw [ht] at hcmd <;> cases hcmd
  obtain ⟨op, recent, hsince⟩ := h.history.called t hin
  have hself : s'.threads t = (s.exec weak fresh cmd).2 := by rw [hth, Function.update_self]
  have hnull : (s.exec weak fresh cmd).2.pc ≠ .null := fun hnull => by
    have hpc := (hI'.threads t).pc
    rw [hself, hnull] at hpc
    exact hpc
  have heff : s.effect (.step t weak fresh) =
      bif s.casOk weak cmd then (s.threads t).effect else .none := by
    simp [LinkState.effect, hcmd]
  obtain ⟨hruns, hknows⟩ := h.history.threads t op recent hsince
  have hsees := h.sees t op recent hsince
  have hdel := h.history.deletes t
  refine ⟨op, recent, hsince, ?_⟩
  rw [heff, hself]
  refine ⟨strides_step hruns hsees hdel hcmd hnull, ?_⟩
  obtain ⟨hlow, hhigh⟩ := h.keys t op recent hsince
  obtain ⟨x, earlier, hmoves, -⟩ := hsince
  exact sees_step hI (h.history.segments recent _ hmoves) (h.trails recent _ hmoves) h.valued hlow
    hhigh (hI.threads t) hdel hknows hsees hcmd

lemma next_call (hs : s.next (.call t op) = some s') :
    s'.node = s.node ∧ s'.linked = s.linked ∧ s'.won = s.won ∧ (s.threads t).outside = true ∧
      (intptrMin < op.key ∧ op.key < intptrMax) ∧ s'.threads t = ⟨[], op.pc s.head⟩ ∧
      ∀ u, u ≠ t → s'.threads u = s.threads u := by
  simp only [LinkState.next] at hs
  split at hs
  · rename_i hop
    cases hs
    exact ⟨rfl, rfl, rfl, hop.1, hop.2, Function.update_self .., fun u hu =>
      Function.update_of_ne hu ..⟩
  · cases hs

lemma Account.target (h : Account moves s) (hok : Orderly s a) (hs : s.next a = some s')
    (hn : (s'.threads t).pc.target = some n) :
    (s.threads t).pc.target = some n ∨ s.effect a = .flagged n ∧ linkMachine.mover a = some t := by
  cases a with
  | call u op =>
    obtain ⟨-, -, -, -, -, hself, hothers⟩ := next_call hs
    by_cases htu : t = u
    · subst htu
      rw [hself] at hn
      cases op <;> cases hn
    · exact .inl (by rwa [hothers t htu] at hn)
  | step u weak fresh =>
    obtain ⟨cmd, -, -, -, -, hth⟩ := next_step hs
    by_cases htu : t = u
    · subst htu
      obtain ⟨op, recent, -, hstr, -⟩ := h.strides hok hs
      exact (hstr.target hn).imp id fun he => ⟨he, rfl⟩
    · exact .inl (by rwa [hth, Function.update_of_ne htu] at hn)

lemma Account.kept (h : Account moves s) (hok : Orderly s a) (hs : s.next a = some s')
    (hn : (s.threads t).pc.target = some n) (hm : (s.node n).succ.marked = false) :
    (s'.threads t).pc.target = some n := by
  cases a with
  | call u op =>
    obtain ⟨-, -, -, hout, -, -, hothers⟩ := next_call hs
    have htu : t ≠ u := by
      rintro rfl
      rcases outside_cases hout with ht | ⟨r, ht⟩ <;> rw [ht] at hn <;> cases hn
    rwa [hothers t htu]
  | step u weak fresh =>
    obtain ⟨cmd, -, -, -, -, hth⟩ := next_step hs
    by_cases htu : t = u
    · subst htu
      obtain ⟨op, recent, -, hstr, -⟩ := h.strides hok hs
      refine (hstr.kept hn).resolve_right fun hhelps => ?_
      have hdel := h.history.deletes t
      rcases hth : s.threads t with ⟨helps, pc⟩
      rw [hth] at hdel hhelps hn
      obtain rfl : helps = [] := hhelps
      simp [(hdel.gone hn).marked] at hm
    · rwa [hth, Function.update_of_ne htu]

lemma Account.winners_step (h : Account moves s) (hok : Orderly s a) (hs : s.next a = some s') :
    Winners s' := by
  obtain ⟨c, hI⟩ := h.history.link
  obtain ⟨c', hI', hst, hev⟩ := linkInv_step hI hok.oneWord hs
  have hnew : ∀ {n}, s.effect a = .flagged n → n ∉ s.won := fun he => by
    have hmv := hst.move
    rw [he] at hmv
    generalize s'.node = mem at hmv
    cases hmv with
    | flag hp hps => exact hI.won.flag hI.chained hp hps
  constructor
  · intro p hp n hflag hm
    rw [hst.linked] at hp
    obtain ⟨hp, hpm, hpn⟩ := hst.move.pointed hp hflag
    have hn : n ∈ s.linked := hI.chained.sub _ (hI.chained.succ_mem (hI.chained.kept p hp hpm) hpn)
    have hold : (s.node n).succ.marked = false := by
      by_contra hno
      simp [hev.marked hn (by simpa using hno)] at hm
    cases hpf : (s.node p).succ.flagged with
    | true =>
      have hword : (s.node p).succ = getFlaggedRef (some n) := by
        rw [getFlaggedRef, ← hpn, ← hpm, ← hpf]
      obtain ⟨t, ht⟩ := h.winners.waits p hp n hword hold
      exact ⟨t, h.kept hok hs ht hold⟩
    | false =>
      have he := hst.move.flags hp hflag hpf
      obtain ⟨t, fresh, rfl, -⟩ := effect_step he (by simp)
      exact ⟨t, next_flags hs he⟩
  · intro t u n ht hu
    rcases h.target hok hs ht with ht | ⟨he, hmt⟩ <;> rcases h.target hok hs hu with hu | ⟨he', hmu⟩
    · exact h.winners.once t u n ht hu
    · exact absurd (h.winners.won t n ht) (hnew he')
    · exact absurd (h.winners.won u n hu) (hnew he)
    · exact Option.some.inj (hmt.symm.trans hmu)
  · intro t n ht
    rw [hst.won]
    rcases h.target hok hs ht with ht | ⟨he, -⟩
    · have hmem := h.winners.won t n ht
      cases s.effect a with
      | flagged m => exact List.mem_cons_of_mem _ hmem
      | _ => exact hmem
    · rw [he]
      exact List.mem_cons_self ..

theorem account_step (h : Account moves s) (hok : Orderly s a) (hs : s.next a = some s') :
    Account ((s, a) :: moves) s' := by
  obtain ⟨c, hI⟩ := h.history.link
  obtain ⟨c', hI', hst, hev⟩ := linkInv_step hI hok.oneWord hs
  have hhist := history_step h.history hok hs
  have hval : ∀ n ∈ s.linked, (s.node n).succ.marked = true → (s'.node n).val = (s.node n).val :=
    fun n hn hm => next_val_marked hI hok.live hs hn hm
  have hsplit : ∀ {t op r}, linkMachine.Since moves t op r →
      Segment r s ∧ Trail r s := fun {t op r} hr => by
    obtain ⟨x, earlier, hmoves, -⟩ := hr
    exact ⟨h.history.segments r _ hmoves, h.trails r _ hmoves⟩
  have hkeep : ∀ {t op r}, linkMachine.Since moves t op r → s'.threads t = s.threads t →
      (s'.threads t).Sees ((s, a) :: r) s' op := fun {t op r} hr hsame => by
    obtain ⟨hseg, htrail⟩ := hsplit hr
    rw [hsame]
    exact (h.sees t op r hr).cons hseg htrail hev hval
  refine ⟨hhist, fun recent earlier heq => ?_, fun t op recent hsince => ?_,
    fun t op recent hsince => ?_, fun t => ?_, valued_step hI hok.oneWord hs h.fills h.valued,
    h.winners_step hok hs⟩
  · cases recent with
    | nil => exact trail_nil hI'
    | cons x r =>
      obtain ⟨rfl, rfl⟩ := List.cons.inj heq
      exact Trail.cons hI hok hs (h.history.segments r earlier rfl) (h.trails r earlier rfl)
  · rcases since_cons hsince with ⟨hcall, -⟩ | ⟨-, r, -, hr⟩
    · cases a with
      | call u op' =>
        obtain ⟨rfl, rfl⟩ := Prod.mk.inj (Option.some.inj hcall)
        obtain ⟨-, -, -, -, hkeys, -⟩ := next_call hs
        exact hkeys
      | step => cases hcall
    · exact h.keys t op r hr
  · cases a with
    | call u op' =>
      obtain ⟨-, -, -, -, -, hself, hothers⟩ := next_call hs
      rcases since_cons hsince with ⟨hcall, rfl⟩ | ⟨hne, r, rfl, hr⟩
      · obtain ⟨rfl, rfl⟩ := Prod.mk.inj (Option.some.inj hcall)
        have hhead : Met [] s' s.head := by
          rw [← hst.head]
          exact .inl (head_alive hI')
        rw [hself]
        cases op' with
        | delete key val =>
          refine sees_plain ⟨hhead, ?_⟩ (by simp [Op.pc])
          show Op.delete key val = .delete (key - 1 + 1) val
          rw [Int.sub_add_cancel]
        | _ => exact sees_plain ⟨hhead, rfl⟩ (by simp [Op.pc])
      · have htu : t ≠ u := by
          rintro rfl
          exact hne op' rfl
        exact hkeep hr (hothers t htu)
    | step u weak fresh =>
      rcases since_cons hsince with ⟨hcall, -⟩ | ⟨-, r, rfl, hr⟩
      · cases hcall
      obtain ⟨cmd, hcmd, -, -, -, hth⟩ := next_step hs
      by_cases htu : t = u
      · subst htu
        obtain ⟨hseg, htrail⟩ := hsplit hr
        obtain ⟨hlow, hhigh⟩ := h.keys t op r hr
        rw [hth, Function.update_self]
        exact (sees_step hI hseg htrail h.valued hlow hhigh (hI.threads t) (h.history.deletes t)
          (h.history.threads t op r hr).2 (h.sees t op r hr) hcmd).cons hseg htrail hev hval
      · exact hkeep hr (by rw [hth, Function.update_of_ne htu])
  · cases a with
    | call u op' =>
      obtain ⟨hnode, -, -, -, -, hself, hothers⟩ := next_call hs
      by_cases htu : t = u
      · subst htu
        rw [hself]
        exact fills_none (by cases op' <;> rfl)
      · rw [hothers t htu, hnode]
        exact h.fills t
    | step u weak fresh =>
      obtain ⟨cmd, hcmd, hnode, -, -, hth⟩ := next_step hs
      by_cases htu : t = u
      · subst htu
        rw [hth, Function.update_self, hnode]
        exact fills_step hcmd (h.fills t)
      · rw [hth, Function.update_of_ne htu]
        intro y hy
        rw [next_held hI hok.oneWord hs htu (filled_holds hy)]
        exact h.fills t y hy

lemma account_trace (h₀ : LinkCreated s₀) (h : Trace LinkState.next Orderly s₀ moves s) :
    Account moves s :=
  h.inv (account_created h₀) fun _ _ _ _ hA hok hs => account_step hA hok hs

end CoopTasks.LockFreeList
