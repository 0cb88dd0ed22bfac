import CoopTasks.ListSees

/-!
What a step of a thread means for its call, and whose `list_delete` a node waits for.
-/

namespace CoopTasks.LockFreeList

open CoopTasks.Machine CoopTasks.Linearize ListMachine

variable {N V : Type*} [DecidableEq N] {s s' : LinkState N V} {a : LinkAct N V} {c : List N}
  {n d x : N} {t u : ℕ} {key : ℤ} {op : Op V} {r : Res V} {th th' : Thread N V}
  {cmd : Cmd N V (Thread N V)} {weak : Bool} {fresh : Option N}
  {recent moves : List (LinkState N V × LinkAct N V)} {e : Effect N}

/-! ### Steps of a call -/

/-- A thread in a call that has not been served and waits for no node to be marked. -/
structure Thread.Open (th : Thread N V) : Prop where
  inside : th.outside = false
  target : th.pc.target = none
  update : ∀ key val n, th.pc ≠ .updateWrite key val n .init

/-- What a step means for a call of `op`. -/
inductive Strides (s : LinkState N V) (op : Op V) (e : Effect N) :
    Thread N V → Thread N V → Prop
  | on {th th' : Thread N V} (h : th.Open) (h' : th'.Open) (hover : th.overwrites = none) :
    Strides s op e th th'
  | fail {th : Thread N V} {r : Res V} (h : th.Open) (hover : th.overwrites = none)
      (hr : op.keeps r = true) : Strides s op e th ⟨[], .returned r⟩
  | link {key : ℤ} {val : V} {prev next n : N} (he : e = .linked n) (hop : op = .insert key val) :
    Strides s op e ⟨[], .insert key val (.cas prev next n)⟩ ⟨[], .returned (.ok none)⟩
  | flag {th th' : Thread N V} {d : N} (he : e = .flagged d) (h : th.Open)
      (hover : th.overwrites = none) (hin : th'.outside = false) (h' : th'.pc.target = some d) :
    Strides s op e th th'
  | copy {key : ℤ} {val : V} {n : N} (hop : op = .update key val) :
    Strides s op e ⟨[], .updateWrite key val n .copy⟩ ⟨[], .updateWrite key val n .init⟩
  | init {key : ℤ} {val : V} {n : N} :
    Strides s op e ⟨[], .updateWrite key val n .init⟩ ⟨[], .returned (.ok none)⟩
  | wait {th th' : Thread N V} {d : N} (hin : th.outside = false) (hin' : th'.outside = false)
      (h : th.pc.target = some d) (h' : th'.pc.target = some d)
      (hans : th'.answer s.node = th.answer s.node) : Strides s op e th th'
  | free {key : ℤ} {val : Bool} {d : N} {v : Option (Option V)} :
    Strides s op e ⟨[], .delete key val d (.free v)⟩ ⟨[], .returned (.ok v)⟩

omit [DecidableEq N] in
lemma open_pc {helps : List (HelpFlagged N)} {pc : Pc N V} (hin : pc ≠ .idle)
    (hret : ∀ r, pc ≠ .returned r) (htarget : pc.target = none)
    (hupdate : ∀ key val n, pc ≠ .updateWrite key val n .init) :
    (⟨helps, pc⟩ : Thread N V).Open := by
  refine ⟨?_, htarget, hupdate⟩
  cases helps with
  | cons f fs => cases pc <;> rfl
  | nil =>
    cases pc with
    | idle => exact absurd rfl hin
    | returned r => exact absurd rfl (hret r)
    | _ => rfl

omit [DecidableEq N] in
lemma Thread.Open.answer (h : th.Open) (node : N → Node N V) : th.answer node = none := by
  obtain ⟨helps, pc⟩ := th
  have htarget := h.target
  have hupdate := h.update
  cases pc with
  | delete key val d pc =>
    cases pc with
    | check => rfl
    | read | free => cases htarget
  | updateWrite key val n pc =>
    cases pc with
    | init => exact absurd rfl (hupdate key val n)
    | _ => rfl
  | _ => rfl

omit [DecidableEq N] in
lemma keeps_fail {errno : Option Pool.Errno} : op.keeps (.fail errno) = true := by
  cases op <;> rfl

lemma strides_helps {f : HelpFlagged N} {fs : List (HelpFlagged N)} {pc : Pc N V}
    (hruns : (⟨f :: fs, pc⟩ : Thread N V).Runs op)
    (h : (⟨f :: fs, pc⟩ : Thread N V).Sees recent s op)
    (hcmd : (⟨f :: fs, pc⟩ : Thread N V).cmd (· == ·) = some cmd)
    (hnull : (s.exec weak fresh cmd).2.pc ≠ .null) :
    Strides s op e ⟨f :: fs, pc⟩ (s.exec weak fresh cmd).2 := by
  cases hcmd
  rw [exec_map] at hnull ⊢
  cases hr : (s.exec weak fresh (helpFlagged f)).2 with
  | none => simp [hr] at hnull
  | some gs =>
    show Strides s op e ⟨f :: fs, pc⟩ ⟨gs ++ fs, pc⟩
    have hon : (∀ helps, (⟨helps, pc⟩ : Thread N V).Open) →
        Strides s op e ⟨f :: fs, pc⟩ ⟨gs ++ fs, pc⟩ := fun hopen => .on (hopen _) (hopen _) rfl
    have hpc := h.pc
    cases pc with
    | idle => exact hruns.pc.elim
    | null => simp [hr] at hnull
    | returned r =>
      have hopen : ∀ g gs, (⟨g :: gs, .returned r⟩ : Thread N V).Open := fun g gs =>
        ⟨rfl, rfl, by simp⟩
      cases hgs : gs ++ fs with
      | cons g gs => exact .on (hopen _ _) (hopen _ _) rfl
      | nil =>
        obtain ⟨b, hb⟩ : ∃ b, (f :: fs).getLast? = some b :=
          ⟨_, List.getLast?_eq_some_getLast (by simp)⟩
        refine .fail (hopen _ _) rfl ?_
        rw [(h.loses r rfl b hb).fails]
        exact keeps_fail
    | delete key val d pc =>
      cases pc with
      | check => exact hon fun _ => open_pc (by simp) (by simp) rfl (by simp)
      | read | free => exact .wait rfl (by cases gs ++ fs <;> rfl) rfl rfl rfl
    | updateWrite key val n pc =>
      have hnone := hruns.helps (by rw [show op = .update key val from hpc]; rfl)
      cases hnone
    | _ => exact hon fun _ => open_pc (by simp) (by simp) rfl (by simp)

lemma strides_tryFlag {val : Bool} {prev target : N} {pc : TryFlagPc}
    (hnull : (s.exec weak fresh (tryFlag (V := V) (· == ·) key val prev target pc)).2.pc ≠ .null) :
    Strides s op (bif s.casOk weak (tryFlag (V := V) (· == ·) key val prev target pc) then
        (⟨[], .tryFlag key val prev target pc⟩ : Thread N V).effect else .none)
      ⟨[], .tryFlag key val prev target pc⟩
      (s.exec weak fresh (tryFlag (V := V) (· == ·) key val prev target pc)).2 := by
  have hopen : ∀ prev' pc', (⟨[], .tryFlag key val prev' target pc'⟩ : Thread N V).Open :=
    fun prev' pc' => open_pc (by simp) (by simp) rfl (by simp)
  have hlose : (flagged key val prev target false : Thread N V).Open :=
    ⟨rfl, rfl, by simp [flagged]⟩
  have hall : ∀ {e : Effect N} {cmd : Cmd N V (Thread N V)} {th : Thread N V},
      cmd.All (fun th' => th'.pc ≠ .null → Strides s op e th th') →
      (s.exec weak fresh cmd).2.pc ≠ .null → Strides s op e th (s.exec weak fresh cmd).2 :=
    fun hall hnull => hall.exec weak fresh hnull
  have hon : ∀ {e : Effect N} {pc' : TryFlagPc} (b : Bool) {x y : Thread N V}, x.Open → y.Open →
      Strides s op e ⟨[], .tryFlag key val prev target pc'⟩ (bif b then x else y) :=
    fun {_ _} b {_ _} hx hy => .on (hopen _ _) (of_cond (P := Thread.Open) b hx hy) rfl
  cases pc with
  | testNode | testMarked => exact hall (fun r _ => hon _ (hopen _ _) (hopen _ _)) hnull
  | testFlagged | result => exact hall (fun r _ => hon _ hlose (hopen _ _)) hnull
  | marked => exact hall (fun r _ => hon _ (hopen _ _) (hopen _ _)) hnull
  | cas =>
    cases hcas : s.casOk weak (tryFlag (V := V) (· == ·) key val prev target .cas) with
    | false =>
      simp only [tryFlag] at hcas
      simp only [tryFlag, LinkState.exec, hcas, cond_false]
      exact .on (hopen _ _) (hopen _ _) rfl
    | true =>
      simp only [tryFlag] at hcas
      simp only [tryFlag, LinkState.exec, hcas, cond_true]
      exact .flag rfl (hopen _ _) rfl rfl (by cases val <;> rfl)
  | backlink =>
    refine hall (fun b hb => ?_) hnull
    cases b with
    | none => exact absurd rfl hb
    | some prev' => exact .on (hopen _ _) (hopen _ _) rfl
  | key => exact .on (hopen _ _) (open_pc (by simp) (by simp) rfl (by simp)) rfl

lemma strides_insert {val : V} {pc : InsertPc N} (hop : op = .insert key val)
    (hnull : (s.exec weak fresh (listInsert key val pc)).2.pc ≠ .null) :
    Strides s op (bif s.casOk weak (listInsert key val pc) then
        (⟨[], .insert key val pc⟩ : Thread N V).effect else .none)
      ⟨[], .insert key val pc⟩ (s.exec weak fresh (listInsert key val pc)).2 := by
  have hopen : ∀ pc', (⟨[], .insert key val pc'⟩ : Thread N V).Open :=
    fun pc' => open_pc (by simp) (by simp) rfl (by simp)
  have hfail : ∀ {e : Effect N} {pc' : InsertPc N} {errno : Option Pool.Errno},
      Strides s op e ⟨[], .insert key val pc'⟩ (⟨[], .returned (.fail errno)⟩ : Thread N V) :=
    .fail (hopen _) rfl keeps_fail
  have hgo : ∀ {e : Effect N} {pc' pc'' : InsertPc N},
      Strides s op e ⟨[], .insert key val pc'⟩ (⟨[], .insert key val pc''⟩ : Thread N V) :=
    .on (hopen _) (hopen _) rfl
  have hon : ∀ {e : Effect N} {pc' : InsertPc N} {th' : Thread N V}, th'.Open →
      Strides s op e ⟨[], .insert key val pc'⟩ th' := fun h => .on (hopen _) h rfl
  cases pc with
  | checkFirst | checkAgain =>
    simp only [listInsert, LinkState.exec]
    split_ifs
    · first | exact hfail | exact hgo
    · exact hgo
  | alloc => cases fresh <;> first | exact hfail | exact hgo
  | initSucc | initBacklink | initKey | initVal | store => exact hgo
  | free => exact hfail
  | cas prev next node =>
    cases hcas : s.casOk weak (listInsert key val (.cas prev next node)) with
    | false =>
      simp only [listInsert] at hcas
      simp only [listInsert, LinkState.exec, hcas, cond_false]
      exact hgo
    | true =>
      simp only [listInsert] at hcas
      simp only [listInsert, LinkState.exec, hcas, cond_true]
      exact .link rfl hop
  | load prev next node =>
    simp only [listInsert, LinkState.exec] at hnull ⊢
    cases hf : (s.node prev).succ.flagged with
    | false => exact hgo
    | true =>
      cases hn : (s.node prev).succ.node with
      | none => simp [hf, hn] at hnull
      | some del => exact hon (open_pc (by simp) (by simp) rfl (by simp))
  | result prev node =>
    simp only [listInsert, LinkState.exec] at hnull ⊢
    cases hf : (s.node prev).succ.isFlag with
    | false => exact hgo
    | true =>
      cases hn : (s.node prev).succ.node with
      | none => simp [hf, hn] at hnull
      | some del => exact hon (open_pc (by simp) (by simp) rfl (by simp))
  | marked prev node =>
    simp only [listInsert, LinkState.exec]
    cases (s.node prev).succ.marked with
    | false => exact hon (open_pc (by simp) (by simp) rfl (by simp))
    | true => exact hgo
  | backlink prev node =>
    simp only [listInsert, LinkState.exec] at hnull ⊢
    cases hb : (s.node prev).backlink with
    | none => simp [hb] at hnull
    | some prev' => exact hgo

/-- **One step** of a thread, and its call. -/
theorem strides_step (hruns : th.Runs op) (h : th.Sees recent s op)
    (hdel : DeleteOk s.node s.linked th) (hcmd : th.cmd (· == ·) = some cmd)
    (hnull : (s.exec weak fresh cmd).2.pc ≠ .null) :
    Strides s op (bif s.casOk weak cmd then th.effect else .none) th
      (s.exec weak fresh cmd).2 := by
  obtain ⟨helps, pc⟩ := th
  cases helps with
  | cons f fs => exact strides_helps hruns h hcmd hnull
  | nil =>
    have hsees := h.pc
    have hcond : ∀ {e : Effect N} {x : Thread N V} (b : Bool) {y z : Thread N V},
        Strides s op e x y → Strides s op e x z → Strides s op e x (bif b then y else z) :=
      fun {e x} b {_ _} hy hz => of_cond (P := Strides s op e x) b hy hz
    cases pc with
    | idle | returned | null => cases hcmd
    | searchFrom ctx key pc =>
      cases hcmd
      rw [exec_map] at hnull ⊢
      have hopen : ∀ pc', (⟨[], .searchFrom ctx key pc'⟩ : Thread N V).Open :=
        fun pc' => open_pc (by simp) (by simp) rfl (by simp)
      cases hr : (s.exec weak fresh (searchFrom (V := V) (· == ·) key pc)).2 with
      | more pc' => exact .on (hopen _) (hopen _) rfl
      | null => simp [hr] at hnull
      | ret curr next =>
        cases ctx with
        | tryFlag k val target =>
          cases hsame : next == target <;> simp only [found, hsame, cond_true, cond_false]
          · exact .fail (hopen _) rfl keeps_fail
          · exact .on (hopen _) (open_pc (by simp) (by simp) rfl (by simp)) rfl
        | _ => exact .on (hopen _) (open_pc (by simp [found]) (by simp [found]) rfl
            (by simp [found])) rfl
    | insert key val pc =>
      cases hcmd
      exact strides_insert hsees.1 hnull
    | tryFlag key val prev target pc =>
      cases hcmd
      exact strides_tryFlag hnull
    | delete key val d pc =>
      cases hcmd
      cases pc with
      | check prev =>
        have hopen : (⟨[], .delete key val d (.check prev)⟩ : Thread N V).Open :=
          open_pc (by simp) (by simp) rfl (by simp)
        simp only [listDelete, LinkState.exec]
        split_ifs
        · exact .on hopen (open_pc (by simp) (by simp) rfl (by simp)) rfl
        · exact .fail hopen rfl keeps_fail
      | read pc =>
        have hgone := hdel.gone (d := d) rfl
        have hwait : ∀ {e : Effect N} pc', (Pc.delete key val d pc' : Pc N V).target = some d →
            (⟨[], .delete key val d pc'⟩ : Thread N V).answer s.node =
              (⟨[], .delete key val d (.read pc)⟩ : Thread N V).answer s.node →
            Strides s op e ⟨[], .delete key val d (.read pc)⟩ ⟨[], .delete key val d pc'⟩ :=
          fun pc' ht ha => .wait rfl rfl rfl ht ha
        cases pc with
        | load =>
          simp only [listDelete, readVal, Cmd.map, LinkState.exec, Function.comp]
          split_ifs <;> exact hwait _ rfl rfl
        | cas orig =>
          have hall : (listDelete (V := V) key val d (.read (.cas orig))).All fun th' =>
              Strides s op .none ⟨[], .delete key val d (.read (.cas orig))⟩ th' := fun ok => by
            cases ok <;> exact hwait _ rfl rfl
          exact hall.exec weak fresh
        | copy => exact hwait (.read (.sub (s.node d).val)) rfl rfl
        | sub v =>
          have hv : (s.node d).val = v := (hsees.2.2.2 v rfl).2.2
          refine hwait (.free (some v)) rfl ?_
          simp [Thread.answer, hgone.marked, hv]
      | free v => exact .free
    | searchCheck key val curr =>
      cases hcmd
      have hopen : (⟨[], .searchCheck key val curr⟩ : Thread N V).Open :=
        open_pc (by simp) (by simp) rfl (by simp)
      simp only [LinkState.exec]
      split_ifs
      · refine hcond val (.on hopen (open_pc (by simp) (by simp) rfl (by simp)) rfl)
          (.fail hopen rfl ?_)
        rw [hsees.1]
        rfl
      · exact .fail hopen rfl keeps_fail
    | searchRead key target pc =>
      cases hcmd
      have hopen : ∀ pc', (⟨[], .searchRead key target pc'⟩ : Thread N V).Open :=
        fun pc' => open_pc (by simp) (by simp) rfl (by simp)
      rw [exec_map]
      cases (s.exec weak fresh (readVal target pc)).2 with
      | more pc' => exact .on (hopen _) (hopen _) rfl
      | ret v =>
        refine .fail (hopen _) rfl ?_
        rw [hsees.1]
        rfl
    | updateCheck key val curr =>
      cases hcmd
      have hopen : (⟨[], .updateCheck key val curr⟩ : Thread N V).Open :=
        open_pc (by simp) (by simp) rfl (by simp)
      simp only [LinkState.exec]
      split_ifs
      · exact .on hopen (open_pc (by simp) (by simp) rfl (by simp)) rfl
      · exact .fail hopen rfl keeps_fail
    | updateWrite key val target pc =>
      cases hcmd
      have hopen : ∀ pc', pc' ≠ .init → (⟨[], .updateWrite key val target pc'⟩ : Thread N V).Open :=
        fun pc' hpc' => open_pc (by simp) (by simp) rfl (by simp [hpc'])
      cases pc with
      | load =>
        simp only [writeVal, Cmd.map, LinkState.exec, Function.comp]
        split_ifs <;> exact .on (hopen _ (by simp)) (hopen _ (by simp)) rfl
      | cas orig =>
        rw [exec_map]
        have hall : (writeVal target val (.cas orig)).All fun r =>
            r = some .copy ∨ r = some .load := fun ok => by cases ok <;> simp
        rcases hall.exec (s := s) weak fresh with hr | hr <;> rw [hr] <;>
          exact .on (hopen _ (by simp)) (hopen _ (by simp)) rfl
      | copy => exact .copy hsees
      | init => exact .init

end CoopTasks.LockFreeList
