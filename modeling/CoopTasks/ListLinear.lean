import CoopTasks.ListAccount
import CoopTasks.ListKeys

/-!
A list whose calls overlap cannot be told from a table that answers each call at one moment.

A key is in the table from the compare-exchange that links its node to the one that marks it. The
second may be made by another thread than the one whose `list_delete` has flagged the predecessor:
at that moment this `list_delete` is served.
-/

namespace CoopTasks.LockFreeList

open CoopTasks.Machine CoopTasks.Linearize ListMachine

variable {N V : Type*} [DecidableEq N] {s s' s₀ : LinkState N V} {a : LinkAct N V} {c : List N}
  {n d x : N} {t u : ℕ} {key : ℤ} {op : Op V} {r : Res V} {th th' : Thread N V} {weak : Bool}
  {fresh : Option N} {recent moves : List (LinkState N V × LinkAct N V)} {e : Effect N}

/-! ### The answers of the calls in progress -/

lemma answer_same (hI : LinkInv s c) (hok : Orderly s a) (hs : s.next a = some s')
    (hd : ∀ d, th.pc.target = some d → d ∈ s.linked ∧ s.effect a ≠ .marked d) :
    th.answer s'.node = th.answer s.node := by
  obtain ⟨c', hI', hst, hev⟩ := linkInv_step hI hok.oneWord hs
  have hsame : ∀ d, th.pc.target = some d →
      (s'.node d).succ.marked = (s.node d).succ.marked ∧
        ((s.node d).succ.marked = true → (s'.node d).val = (s.node d).val) := fun d hpc => by
    obtain ⟨hl, he⟩ := hd d hpc
    cases hm : (s.node d).succ.marked with
    | true => exact ⟨hev.marked hl hm, fun _ => next_val_marked hI hok.live hs hl hm⟩
    | false =>
      refine ⟨?_, fun h => by cases h⟩
      by_contra hm'
      exact he (hst.move.marks hl hm (by simpa using hm')).1
  obtain ⟨helps, pc⟩ := th
  cases pc with
  | delete key val d pc =>
    cases pc with
    | check => rfl
    | read pc =>
      obtain ⟨hm, hv⟩ := hsame d rfl
      simp only [Thread.answer, hm]
      cases h : (s.node d).succ.marked with
      | true => rw [hv h]
      | false => rfl
    | free v => simp only [Thread.answer, (hsame d rfl).1]
  | updateWrite key val n pc => cases pc <;> rfl
  | _ => rfl

omit [DecidableEq N] in
lemma answer_before {node node' : N → Node N V}
    (hd : ∀ d, th.pc.target = some d → (node d).succ.marked = true →
      (node' d).succ.marked = true) (h : th.answer node' = none) : th.answer node = none := by
  obtain ⟨helps, pc⟩ := th
  cases pc with
  | delete key val d pc =>
    cases pc with
    | check => rfl
    | read | free =>
      cases hm : (node d).succ.marked with
      | true => simp [Thread.answer, hd d rfl hm] at h
      | false => simp [Thread.answer, hm]
  | updateWrite key val n pc => cases pc <;> first | rfl | cases h
  | _ => rfl

omit [DecidableEq N] in
lemma shown_inside (h : th.outside = false) : th.shown t = [] := by
  obtain ⟨helps, pc⟩ := th
  cases helps with
  | cons f fs => rfl
  | nil => cases pc <;> first | rfl | cases h

lemma Account.target_linked (h : Account moves s) (hn : (s.threads t).pc.target = some n) :
    n ∈ s.linked := by
  obtain ⟨c, hI⟩ := h.history.link
  exact (hI.won.seen n (h.winners.won t n hn)).1

lemma Account.phase_other (h : Account moves s) (hok : Orderly s a) (hs : s.next a = some s')
    (hth : s'.threads t = s.threads t) (hcall : ∀ op, linkMachine.call a ≠ some (t, op))
    (he : ∀ d, (s.threads t).pc.target = some d → s.effect a ≠ .marked d) :
    linkMachine.phase ((s, a) :: moves) s' t = linkMachine.phase moves s t := by
  obtain ⟨c, hI⟩ := h.history.link
  have hth : linkMachine.threads s' t = linkMachine.threads s t := hth
  refine phase_same (by rw [hth]) ?_ hcall
  rw [hth]
  exact answer_same hI hok hs fun d hd => ⟨h.target_linked hd, he d hd⟩

lemma Account.called_before (h : Account moves s) (hok : Orderly s a) (hs : s.next a = some s')
    (hcall : ∀ op, linkMachine.call a ≠ some (t, op))
    (hphase : linkMachine.phase ((s, a) :: moves) s' t = .called op) :
    linkMachine.phase moves s t = .called op := by
  obtain ⟨c, hI⟩ := h.history.link
  obtain ⟨c', hI', hst, hev⟩ := linkInv_step hI hok.oneWord hs
  obtain ⟨hin, hans, hlast⟩ := phase_eq_called hphase
  have hin : (s'.threads t).outside = false := hin
  have hans : (s'.threads t).answer s'.node = none := hans
  rw [lastCall_cons hcall] at hlast
  suffices hb : (s.threads t).outside = false ∧ (s.threads t).answer s.node = none from
    phase_called hb.1 hb.2 hlast
  have hsame : s'.threads t = s.threads t →
      (s.threads t).outside = false ∧ (s.threads t).answer s.node = none := fun hth => by
    rw [hth] at hin hans
    exact ⟨hin, answer_before (fun d hd => hev.marked (h.target_linked hd)) hans⟩
  cases a with
  | call u op' =>
    obtain ⟨-, -, -, -, -, -, hothers⟩ := next_call hs
    refine hsame (hothers t ?_)
    rintro rfl
    exact hcall op' rfl
  | step u weak fresh =>
    obtain ⟨cmd, -, -, -, -, hth⟩ := next_step hs
    by_cases htu : t = u
    · subst htu
      obtain ⟨op', recent, -, hstr, -⟩ := h.strides hok hs
      have hlinked : ∀ {d}, (s.threads t).pc.target = some d → d ∈ s.linked := h.target_linked
      generalize s.threads t = x at hstr hlinked ⊢
      generalize s'.threads t = y at hstr hin hans
      cases hstr with
      | on ho => exact ⟨ho.inside, ho.answer _⟩
      | flag _ ho => exact ⟨ho.inside, ho.answer _⟩
      | fail | link | init | free => cases hin
      | copy => cases hans
      | wait hin₀ _ ht ht' ha =>
        refine ⟨hin₀, ?_⟩
        rw [← ha]
        refine answer_before (fun d hd => ?_) hans
        obtain rfl := Option.some.inj (ht'.symm.trans hd)
        exact hev.marked (hlinked ht)
    · exact hsame (by rw [hth, Function.update_of_ne htu])

lemma offered_of_was (h₀ : LinkCreated s₀) (h : Trace LinkState.next Orderly s₀ moves s)
    (hsince : linkMachine.Since moves t op recent)
    (hphase : linkMachine.phase moves s t = .called op) (hw : Served recent s op r) :
    linkMachine.serving.Offered Answers t op r moves s := by
  induction h generalizing recent with
  | refl =>
    obtain ⟨x, earlier, heq, -⟩ := hsince
    simp at heq
  | @step ls s₁ s₂ a h hok hs ih =>
    rcases hw with hw | hw
    · exact .now hphase hw
    rcases since_cons hsince with ⟨-, rfl⟩ | ⟨hne, r', rfl, hr⟩
    · obtain ⟨x, hx, -⟩ := hw
      cases hx
    · have hbefore := (account_trace h₀ h).called_before hok hs hne hphase
      refine Serving.Offered.keep (ih hr hbefore ?_) hphase
      obtain ⟨x, hx, hp⟩ := hw
      rcases List.mem_cons.mp hx with rfl | hx
      · exact .inl hp
      · exact .inr ⟨x, hx, hp⟩

/-! ### The table -/

lemma table_same (hI : LinkInv s c) (hone : OneWord s a) (hs : s.next a = some s')
    (hlink : ∀ n, s.effect a ≠ .linked n) (hmark : ∀ n, s.effect a ≠ .marked n)
    (hover : ∀ t weak fresh, a = .step t weak fresh → (s.threads t).overwrites = none) :
    linkMachine.table s' = linkMachine.table s := by
  funext key
  refine table_key hI hone hs (fun n he => absurd he (hlink n)) (fun n he => absurd he (hmark n))
    fun n hn _ => next_val hI hs (hI.alive_iff.mp hn).1 fun t weak fresh ha ht => ?_
  simp [hover t weak fresh ha] at ht

lemma Account.table_linked (h : Account moves s) (hok : Orderly s a) (hs : s.next a = some s')
    (he : s.effect a = .linked x) {val : V} (hval : (s'.node x).val = some val) :
    linkMachine.table s (s.node x).key = none ∧
      linkMachine.table s' = Function.update (linkMachine.table s) (s.node x).key (some val) := by
  obtain ⟨c, hI⟩ := h.history.link
  obtain ⟨c', hI', hst, hev⟩ := linkInv_step hI hok.oneWord hs
  have hmv := hst.move
  rw [he] at hmv
  obtain ⟨hnew, -⟩ := hI.chained.keys_move hmv
  have hkey : (s'.node x).key = (s.node x).key ∧ (s'.node x).succ.marked = false := by
    generalize s'.node = mem at hmv
    cases hmv with
    | @link p x m hp hx hs hxs =>
      have hxp : x ≠ p := by
        rintro rfl
        exact hx hp
      exact ⟨setSucc_key, by rw [setSucc_ne hxp, hxs]; rfl⟩
  have hlive : linkMachine.Alive s' x :=
    hI'.alive_iff.mpr ⟨by rw [hst.linked, he]; exact List.mem_cons_self .., hkey.2⟩
  refine ⟨table_absent fun n hn hk => hnew ⟨n, (hI.alive_iff.mp hn).1, hn.2, hk⟩, ?_⟩
  funext k
  by_cases hk : k = (s.node x).key
  · subst hk
    rw [Function.update_self, ← hkey.1, table_alive hI' hlive, hval]
  · rw [Function.update_of_ne hk]
    refine table_key hI hok.oneWord hs (fun n hn => ?_) (fun n hn => ?_) fun n hn _ =>
      next_val hI hs (hI.alive_iff.mp hn).1 fun t weak fresh ha ht => ?_
    · obtain rfl : x = n := by simpa [he] using hn
      rw [hkey.1]
      exact fun h => hk h.symm
    · simp [he] at hn
    · -- the thread that links a node copies no value
      subst ha
      obtain ⟨u, fresh', hstep, heff⟩ := effect_step he (by simp)
      cases hstep
      obtain ⟨key, val, prev, next, hth⟩ := effect_linked heff
      rw [hth] at ht
      cases ht

lemma Account.table_marked (h : Account moves s) (hok : Orderly s a) (hs : s.next a = some s')
    (hn : linkMachine.Alive s n) (he : s.effect a = .marked n) :
    linkMachine.table s (s.node n).key = (s.node n).val ∧
      linkMachine.table s' = Function.update (linkMachine.table s) (s.node n).key none := by
  obtain ⟨c, hI⟩ := h.history.link
  refine ⟨table_alive hI hn, ?_⟩
  funext k
  by_cases hk : k = (s.node n).key
  · subst hk
    rw [Function.update_self]
    exact table_absent (lacks_marked hI hok.oneWord hs he)
  · rw [Function.update_of_ne hk]
    refine table_key hI hok.oneWord hs (fun m hm => ?_) (fun m hm => ?_) fun m hm _ =>
      next_val hI hs (hI.alive_iff.mp hm).1 fun t weak fresh ha ht => ?_
    · simp [he] at hm
    · obtain rfl : n = m := by simpa [he] using hm
      exact fun h => hk h.symm
    · subst ha
      obtain ⟨u, fresh', hstep, heff⟩ := effect_step he (by simp)
      cases hstep
      obtain ⟨prev, next, fs, pc, hth⟩ := effect_marked heff
      rw [hth] at ht
      cases ht

lemma Account.table_copied (h : Account moves s) (hok : Orderly s (.step t weak fresh))
    (hs : s.next (.step t weak fresh) = some s') {val : V}
    (hth : s.threads t = ⟨[], .updateWrite key val n .copy⟩) (hn : linkMachine.Alive s n)
    (hk : (s.node n).key = key) :
    linkMachine.table s' = Function.update (linkMachine.table s) key (some val) := by
  obtain ⟨c, hI⟩ := h.history.link
  obtain ⟨c', hI', hst, hev⟩ := linkInv_step hI hok.oneWord hs
  obtain ⟨hl, -⟩ := hI.alive_iff.mp hn
  have he : s.effect (.step t weak fresh) = .none := by
    simp only [LinkState.effect, hth]
    cases Option.any (s.casOk weak)
      (Thread.cmd (· == ·) (⟨[], .updateWrite key val n .copy⟩ : Thread N V)) <;> rfl
  have hn' := (alive_step hI hok.oneWord hs hl).mpr ⟨hn, by simp [he]⟩
  funext k
  by_cases hkk : k = key
  · subst hkk
    rw [Function.update_self, ← hk, ← hev.key n hl, table_alive hI' hn']
    exact (next_overwrites hs hth).2
  · rw [Function.update_of_ne hkk]
    refine table_key hI hok.oneWord hs (fun m hm => ?_) (fun m hm => ?_) fun m hm hmk =>
      next_val hI hs (hI.alive_iff.mp hm).1 fun t' weak' fresh' ha ht => ?_
    · simp [he] at hm
    · simp [he] at hm
    · obtain ⟨rfl, -, -⟩ := LinkAct.step.inj ha
      rw [hth] at ht
      obtain rfl : n = m := Option.some.inj ht
      exact hkk (hmk.symm.trans hk)

/-! ### Turns -/

lemma step_events (hs : s.next (.step t weak fresh) = some s') :
    linkMachine.events s (.step t weak fresh) = (s'.threads t).shown t := by
  show (s.next (.step t weak fresh)).elim [] (fun s' => (s'.threads t).shown t) = _
  rw [hs]
  rfl

lemma Account.call_turns (h : Account moves s) (hok : Orderly s (.call t op))
    (hs : s.next (.call t op) = some s') :
    linkMachine.serving.Turns Answers moves s (.call t op) s' := by
  obtain ⟨c, hI⟩ := h.history.link
  obtain ⟨-, -, -, hout, -, hself, hothers⟩ := next_call hs
  have hself : linkMachine.threads s' t = ⟨[], op.pc s.head⟩ := hself
  refine ⟨t, .call op (phase_outside hout) ?_ ?_, fun q hq => ?_⟩
  · refine phase_called ?_ ?_ (lastCall_call rfl) <;> rw [hself] <;> cases op <;> rfl
  · exact table_same hI hok.oneWord hs (fun _ he => by cases he) (fun _ he => by cases he)
      fun _ _ _ ha => by cases ha
  · refine h.phase_other hok hs (hothers q hq) (fun op' hc => ?_) fun d _ he => by cases he
    exact hq (Prod.mk.inj (Option.some.inj hc)).1.symm

lemma Account.phase_others (h : Account moves s) (hok : Orderly s (.step t weak fresh))
    (hs : s.next (.step t weak fresh) = some s')
    (he : ∀ n, s.effect (.step t weak fresh) ≠ .marked n) (hu : u ≠ t) :
    linkMachine.phase ((s, .step t weak fresh) :: moves) s' u = linkMachine.phase moves s u := by
  obtain ⟨cmd, -, -, -, -, hth⟩ := next_step hs
  refine h.phase_other hok hs (by rw [hth, Function.update_of_ne hu]) (fun op hc => by cases hc)
    fun d _ => he d

lemma phase_open (hsince : linkMachine.Since moves t op recent) (ho : (s.threads t).Open) :
    linkMachine.phase moves s t = .called op :=
  phase_called ho.inside (ho.answer _) hsince.lastCall

lemma Account.linked_turns (h : Account moves s) (hok : Orderly s (.step t weak fresh))
    (hs : s.next (.step t weak fresh) = some s')
    (he : s.effect (.step t weak fresh) = .linked x) :
    linkMachine.serving.Turns Answers moves s (.step t weak fresh) s' := by
  obtain ⟨c, hI⟩ := h.history.link
  obtain ⟨cmd, hcmd, hcas, heff, hnode, hself⟩ := next_effect hs (by simp [he])
  obtain ⟨key, val, prev, next, hth⟩ := effect_linked (heff.symm.trans he)
  have hin : (s.threads t).outside = false := by
    rw [hth]
    rfl
  obtain ⟨op, recent, hsince⟩ := h.history.called t hin
  have hop : op = .insert key val := by
    have hsees := (h.sees t op recent hsince).pc
    rw [hth] at hsees
    exact hsees.1
  have hkey : (s.node x).key = key := by
    have hpc := (hI.threads t).pc
    rw [hth] at hpc
    exact hpc.2.2.2.2.2.1
  have hfill := h.fills t
  rw [hth] at hcmd hfill
  have hval : (s'.node x).val = some val := by
    rw [hnode, exec_val (filled_writes hcmd rfl)]
    exact hfill (x, val) rfl
  cases hcmd
  have hret : s'.threads t = ⟨[], .returned (.ok none)⟩ := by
    simp only [listInsert] at hcas
    rw [hself]
    simp only [listInsert, LinkState.exec, hcas, cond_true]
  obtain ⟨hnone, htable⟩ := h.table_linked hok hs he hval
  have hopen : (s.threads t).Open := by
    rw [hth]
    exact open_pc (by simp) (by simp) rfl (by simp)
  refine ⟨t, ?_, fun u hu => h.phase_others hok hs (by simp [he]) hu⟩
  show linkMachine.serving.Turn Answers moves s (.step t weak fresh) s' t
    (linkMachine.events s (.step t weak fresh))
  rw [step_events hs, hret]
  refine .last op (Res.ok none) (phase_open hsince hopen) (phase_outside ?_) ?_
  · show (s'.threads t).outside = true
    rw [hret]
    rfl
  · show Answers (linkMachine.table s) op (.ok none) (linkMachine.table s')
    rw [htable, hop, hkey]
    rw [hkey] at hnone
    exact .inserted hnone

/-- A `list_delete` that waits for a node of the list will have what the node holds. -/
lemma Account.waiting (h : Account moves s) (hn : linkMachine.Alive s n)
    (ht : (s.threads t).pc.target = some n) :
    ∃ val recent v, linkMachine.Since moves t (.delete (s.node n).key val) recent ∧
      (s.node n).val = some v ∧ (s.threads t).outside = false ∧
      (s.threads t).answer s.node = none ∧
      ∀ node : N → Node N V, (node n).succ.marked = true → (node n).val = some v →
        (s.threads t).answer node = some (.ok (bif val then some (some v) else none)) := by
  obtain ⟨c, hI⟩ := h.history.link
  obtain ⟨hl, hm⟩ := hI.alive_iff.mp hn
  have hin : (s.threads t).outside = false := by
    rcases hth : s.threads t with ⟨helps, pc⟩
    rw [hth] at ht
    cases helps <;> cases pc <;> first | rfl | cases ht
  obtain ⟨op, recent, hsince⟩ := h.history.called t hin
  have hkeys := h.keys t op recent hsince
  have hsees := (h.sees t op recent hsince).pc
  have hvalue : op.key = (s.node n).key → ∃ v, (s.node n).val = some v := fun hk =>
    Option.isSome_iff_exists.mp (h.valued n hl (hk ▸ hkeys.1) (hk ▸ hkeys.2))
  rcases hth : s.threads t with ⟨helps, pc⟩
  rw [hth] at ht hsees hin
  cases pc with
  | delete key val d pc =>
    cases pc with
    | check => cases ht
    | read pc =>
      obtain rfl : d = n := Option.some.inj ht
      obtain ⟨rfl, hkeyed, rfl, -⟩ := hsees
      obtain ⟨v, hv⟩ := hvalue hkeyed.2.symm
      rw [← hkeyed.2] at hsince
      refine ⟨true, recent, v, hsince, hv, hin, ?_, fun node hmark hval => ?_⟩
      · simp [Thread.answer, hm]
      · simp [Thread.answer, hmark, hval]
    | free w =>
      obtain rfl : d = n := Option.some.inj ht
      obtain ⟨rfl, hkeyed, rfl, htook⟩ := hsees
      obtain ⟨v, hv⟩ := hvalue hkeyed.2.symm
      rw [← hkeyed.2] at hsince
      -- a value is taken after the node was marked
      obtain rfl : w = none := by
        cases w with
        | none => rfl
        | some w => simp [(htook w rfl).2.1] at hm
      refine ⟨false, recent, v, hsince, hv, hin, ?_, fun node hmark hval => ?_⟩
      · simp [Thread.answer, hm]
      · simp [Thread.answer, hmark]
  | _ => cases ht

/-- A node is marked: the `list_delete` that waits for it is served. -/
lemma Account.marked_turns (h : Account moves s) (hok : Orderly s (.step t weak fresh))
    (hs : s.next (.step t weak fresh) = some s')
    (he : s.effect (.step t weak fresh) = .marked n) :
    linkMachine.serving.Turns Answers moves s (.step t weak fresh) s' := by
  obtain ⟨c, hI⟩ := h.history.link
  obtain ⟨c', hI', hst, hev⟩ := linkInv_step hI hok.oneWord hs
  obtain ⟨cmd, hcmd, hcas, heff, -, hself⟩ := next_effect hs (by simp [he])
  obtain ⟨prev, next, fs, pc, hth⟩ := effect_marked (heff.symm.trans he)
  have hmv := hst.move
  rw [he] at hmv
  obtain ⟨p, hp, hflag, hl, hm⟩ : ∃ p ∈ s.linked, (s.node p).succ = getFlaggedRef (some n) ∧
      n ∈ s.linked ∧ (s.node n).succ.marked = false := by
    generalize s'.node = mem at hmv
    cases hmv with
    | mark hp hd hs hds => exact ⟨_, hp, hs, hd, by simp [hds]⟩
  have hn : linkMachine.Alive s n := hI.alive_iff.mpr ⟨hl, hm⟩
  have hmark : (s'.node n).succ.marked = true := hmv.marked_self
  have hval := next_val_marks hI hok.oneWord hs hl hm hmark
  -- the thread that marks goes on helping
  have hsame : ∀ u, (s'.threads u).outside = (s.threads u).outside ∧
      ∀ node, (s'.threads u).answer node = (s.threads u).answer node := by
    obtain ⟨cmd', -, -, -, -, hthreads⟩ := next_step hs
    intro u
    by_cases hut : u = t
    · subst hut
      rw [hth] at hcmd
      cases hcmd
      simp only [helpFlagged, tryMark, Cmd.map] at hcas
      rw [hself, hth]
      simp only [helpFlagged, tryMark, Cmd.map, LinkState.exec, hcas, cond_true, Function.comp,
        List.cons_append, List.nil_append]
      exact ⟨by cases pc <;> rfl, fun _ => rfl⟩
    · rw [hthreads, Function.update_of_ne hut]
      exact ⟨rfl, fun _ => rfl⟩
  obtain ⟨w, hw⟩ := h.winners.waits p hp n hflag hm
  obtain ⟨val, recent, v, hsince, hv, hin, hans, hserved⟩ := h.waiting hn hw
  obtain ⟨hbefore, hafter⟩ := h.table_marked hok hs hn he
  have hevents : linkMachine.events s (.step t weak fresh) = [] := by
    rw [step_events hs]
    refine shown_inside ?_
    rw [(hsame t).1, hth]
    rfl
  refine ⟨w, ?_, fun q hq => ?_⟩
  · show linkMachine.serving.Turn Answers moves s (.step t weak fresh) s' w
      (linkMachine.events s (.step t weak fresh))
    rw [hevents]
    refine .answer _ _ (phase_called hin hans hsince.lastCall)
      (phase_answered (r := .ok (bif val then some (some v) else none)) ?_ ?_) ?_
    · exact (hsame w).1.trans hin
    · exact ((hsame w).2 _).trans (hserved _ hmark (hval.trans hv))
    · show Answers (linkMachine.table s) _ _ (linkMachine.table s')
      rw [hafter]
      exact .deleted (hbefore.trans hv)
  · refine phase_same (hsame q).1 (((hsame q).2 _).trans ?_) fun op hc => by cases hc
    refine answer_same hI hok hs fun d hd => ⟨h.target_linked hd, fun hed => ?_⟩
    obtain rfl : n = d := by simpa [he] using hed
    exact hq (h.winners.once q w n hd hw)

lemma flags_unmarked (hI : LinkInv s c) (hone : OneWord s a) (hs : s.next a = some s')
    (he : s.effect a = .flagged d) : linkMachine.Alive s d := by
  obtain ⟨c', -, hst, -⟩ := linkInv_step hI hone hs
  have hmv := hst.move
  rw [he] at hmv
  obtain ⟨p, hp, hword⟩ : ∃ p ∈ s.linked, (s.node p).succ = getUnflaggedRef (some d) := by
    generalize s'.node = mem at hmv
    cases hmv with
    | flag hp hps => exact ⟨_, hp, hps⟩
  have hpc : p ∈ c := hI.chained.kept p hp (by simp [hword])
  have hdc : d ∈ c := hI.chained.succ_mem hpc (by simp [hword])
  refine hI.alive_iff.mpr ⟨hI.chained.sub d hdc, ?_⟩
  by_contra hm
  -- the predecessor of a marked node is flagged already
  obtain ⟨q, hq, hqs⟩ := hI.chained.flagger d hdc (by simpa using hm)
  obtain rfl : q = p := hI.chained.pred_unique (hI.chained.kept q hq (by simp [hqs])) hpc (m := d)
    (by simp [hqs]) (by simp [hword])
  simp [hword, getUnflaggedRef, getFlaggedRef] at hqs

omit [DecidableEq N] in
lemma answer_waiting {node : N → Node N V} (h : th.pc.target = some d)
    (hm : (node d).succ.marked = false) : th.answer node = none := by
  obtain ⟨helps, pc⟩ := th
  cases pc with
  | delete key val d' pc =>
    cases pc with
    | check => cases h
    | read | free =>
      obtain rfl := Option.some.inj h
      simp [Thread.answer, hm]
  | _ => cases h

lemma plain_turns (h₀ : LinkCreated s₀) (htrace : Trace LinkState.next Orderly s₀ moves s)
    (hok : Orderly s (.step t weak fresh)) (hs : s.next (.step t weak fresh) = some s')
    (hlink : ∀ n, s.effect (.step t weak fresh) ≠ .linked n)
    (hmark : ∀ n, s.effect (.step t weak fresh) ≠ .marked n) :
    linkMachine.serving.Turns Answers moves s (.step t weak fresh) s' := by
  have h := account_trace h₀ htrace
  obtain ⟨c, hI⟩ := h.history.link
  obtain ⟨op, recent, hsince, hstr, hsees⟩ := h.strides hok hs
  have hknows := (h.history.threads t op recent hsince).2
  have hlast : linkMachine.lastCall ((s, .step t weak fresh) :: moves) t = some op :=
    (lastCall_cons fun _ hc => by cases hc).trans hsince.lastCall
  have hlinked : ∀ {d}, (s.threads t).pc.target = some d → d ∈ s.linked := h.target_linked
  have hopen : (s.threads t).Open → linkMachine.phase moves s t = .called op := phase_open hsince
  have hanswered : ∀ {r}, (s.threads t).outside = false → (s.threads t).answer s.node = some r →
      linkMachine.phase moves s t = .answered r := fun hin hans => phase_answered hin hans
  have hcalled : (s'.threads t).outside = false → (s'.threads t).answer s'.node = none →
      linkMachine.phase ((s, .step t weak fresh) :: moves) s' t = .called op := fun hin hans =>
    phase_called hin hans hlast
  have hidle : (s'.threads t).outside = true →
      linkMachine.phase ((s, .step t weak fresh) :: moves) s' t = .idle := fun hout =>
    phase_outside hout
  have hobj : (s.threads t).overwrites = none → linkMachine.table s' = linkMachine.table s :=
    fun hover => table_same hI hok.oneWord hs hlink hmark fun u w f ha => by
      obtain ⟨rfl, -, -⟩ := LinkAct.step.inj ha
      exact hover
  refine ⟨t, ?_, fun u hu => h.phase_others hok hs hmark hu⟩
  show linkMachine.serving.Turn Answers moves s (.step t weak fresh) s' t
    (linkMachine.events s (.step t weak fresh))
  rw [step_events hs]
  generalize hth : s.threads t = th at hstr hlinked hopen hanswered hobj
  generalize hth' : s'.threads t = th' at hstr hsees hcalled hidle
  cases hstr with
  | on ho ho' hover =>
    rw [shown_inside ho'.inside]
    exact .stay ((hcalled ho'.inside (ho'.answer _)).trans (hopen ho).symm) (hobj hover)
  | fail ho hover hr =>
    refine .look op _ (hopen ho) (hidle rfl) (hobj hover) ?_
    exact offered_of_was h₀ htrace hsince (hopen ho) (hsees.returned _ rfl rfl hr)
  | link he => exact absurd he (hlink _)
  | @flag _ _ d he ho hover hin ht =>
    obtain ⟨c', hI', -, -⟩ := linkInv_step hI hok.oneWord hs
    have hd := flags_unmarked hI hok.oneWord hs he
    have hd' : linkMachine.Alive s' d :=
      (alive_step hI hok.oneWord hs (hI.alive_iff.mp hd).1).mpr ⟨hd, by simp [he]⟩
    rw [shown_inside hin]
    exact .stay ((hcalled hin (answer_waiting ht (hI'.alive_iff.mp hd').2)).trans
      (hopen ho).symm) (hobj hover)
  | @copy key val n hop =>
    rw [hth] at hknows
    obtain ⟨hl, hkey⟩ := hknows
    have hn : linkMachine.Alive s n := hI.alive_iff.mpr ⟨hl, hok.live n (by rw [hth]; rfl)⟩
    obtain ⟨hlow, hhigh⟩ := h.keys t op recent hsince
    rw [hop] at hlow hhigh
    obtain ⟨v, hv⟩ := Option.isSome_iff_exists.mp
      (h.valued n hl (by rw [hkey]; exact hlow) (by rw [hkey]; exact hhigh))
    have hcall : linkMachine.phase moves s t = .called op :=
      hopen (open_pc (by simp) (by simp) rfl (by simp))
    refine .answer op (Res.ok none) hcall ?_ ?_
    · refine phase_answered ?_ ?_
      · show (s'.threads t).outside = false
        rw [hth']
        rfl
      · show (s'.threads t).answer s'.node = _
        rw [hth']
        rfl
    · show Answers (linkMachine.table s) op (.ok none) (linkMachine.table s')
      rw [h.table_copied hok hs hth hn hkey, hop]
      refine .updated (v := v) ?_
      rw [← hkey, table_alive hI hn, hv]
  | init => exact .ret _ (hanswered rfl rfl) (hidle rfl) (hobj rfl)
  | @wait _ _ d hin hin' ht ht' ha =>
    have hans : th'.answer s'.node = th.answer s.node := by
      refine (answer_same hI hok hs fun d' hd' => ?_).trans ha
      obtain rfl := Option.some.inj (ht'.symm.trans hd')
      exact ⟨hlinked ht, hmark _⟩
    have hphase : linkMachine.phase ((s, .step t weak fresh) :: moves) s' t =
        linkMachine.phase moves s t := by
      refine phase_same ?_ ?_ fun _ hc => by cases hc
      · show (s'.threads t).outside = (s.threads t).outside
        rw [hth, hth', hin, hin']
      · show (s'.threads t).answer s'.node = (s.threads t).answer s.node
        rw [hth, hth', hans]
    rw [shown_inside hin']
    refine .stay hphase (hobj ?_)
    cases hover : th.overwrites with
    | none => rfl
    | some n =>
      obtain ⟨key, val, rfl⟩ := overwrites_cases hover
      cases ht
  | @free key val d v =>
    have hdel := h.history.deletes t
    rw [hth] at hdel
    refine .ret _ (hanswered rfl ?_) (hidle rfl) (hobj rfl)
    simp [Thread.answer, (hdel.gone (d := d) rfl).marked]

/-! ### Runs -/

lemma table_created (h : LinkCreated s) : linkMachine.table s = fun _ => none := by
  have hI := created_linkInv h
  funext key
  by_cases hex : ∃ n, linkMachine.Alive s n ∧ (s.node n).key = key
  · obtain ⟨n, hn, rfl⟩ := hex
    rw [table_alive hI hn]
    have hl := (hI.alive_iff.mp hn).1
    rw [h.linked] at hl
    rcases List.mem_pair.mp hl with rfl | rfl
    · rw [h.head]
    · rw [h.tail]
  · exact table_absent fun n hn hk => hex ⟨n, hn, hk⟩

lemma link_turns (h₀ : LinkCreated s₀) (h : Trace LinkState.next Orderly s₀ moves s)
    (hok : Orderly s a) (hs : s.next a = some s') :
    linkMachine.serving.Turns Answers moves s a s' := by
  have hA := account_trace h₀ h
  cases a with
  | call t op => exact hA.call_turns hok hs
  | step t weak fresh =>
    cases he : s.effect (.step t weak fresh) with
    | linked n => exact hA.linked_turns hok hs he
    | marked n => exact hA.marked_turns hok hs he
    | flagged n | none =>
      refine plain_turns h₀ h hok hs (fun m => ?_) fun m => ?_ <;> rw [he] <;> simp

lemma link_linearizable (h₀ : LinkCreated s₀) (h : Trace LinkState.next Orderly s₀ moves s) :
    Linearizable Answers (fun _ => none) (linkMachine.serving.history moves) := by
  have hobj : linkMachine.serving.obj s₀ = fun _ => none := table_created h₀
  rw [← hobj]
  exact Serving.linearizable (M := linkMachine.serving) (fun t => phase_outside (h₀.threads t))
    (fun _ _ _ _ htrace hok hs => link_turns h₀ htrace hok hs) h

variable {A : Type*} [DecidableEq A] {w w₀ : ReuseState A V} {capacity : ℕ}
  {runs : List (ReuseState A V × ReuseAct A V)}

/-- **Linearizability**: in every run that uses no stale pointer, the calls of `list_insert`,
`list_delete`, `list_search` and `list_update`, however they overlap, return what a table answers
that serves each of them at one moment between its call and its return. -/
theorem list_linearizable (h₀ : ReuseCreated capacity w₀)
    (h : Trace ReuseState.next ReuseState.Orderly w₀ runs w) :
    Linearizable Answers (fun _ => none) (reuseMachine.serving.history runs) := by
  obtain ⟨u₀, moves, u, hcreated, htrace, -, hall⟩ := reuse_follows h₀ h
  rw [history_mirror hall]
  exact link_linearizable hcreated htrace

def threeKeyList : ReuseState ℕ ℕ := .new 0 1 [2, 3, 4, 5]

/-- A `list_insert` of 3 helps the deletion of 5, whose node it marks, and 5 is inserted again
before its first node is given back. -/
theorem list_linearizable_helped : ∃ moves s, ReuseCreated 3 threeKeyList ∧
    Trace ReuseState.next ReuseState.Orderly threeKeyList moves s ∧
    reuseMachine.serving.history moves = [.call 0 (.insert 5 50), .ret 0 (.ok none),
      .call 2 (.delete 5 true), .call 1 (.insert 3 30), .ret 1 (.ok none),
      .call 0 (.insert 5 55), .ret 0 (.ok none), .ret 2 (.ok (some (some 50)))] ∧
    Linearizable Answers (fun _ => none) (reuseMachine.serving.history moves) := by
  obtain ⟨moves, s, h, hhist⟩ := exists_moves ReuseState.next ReuseState.Orderly threeKeyList
    (fun moves _ => decide (reuseMachine.serving.history moves = [.call 0 (.insert 5 50),
      .ret 0 (.ok none), .call 2 (.delete 5 true), .call 1 (.insert 3 30), .ret 1 (.ok none),
      .call 0 (.insert 5 55), .ret 0 (.ok none), .ret 2 (.ok (some (some 50)))]))
    (List.flatten [reuseCall 0 (.insert 5 50) 11, reuseCall 2 (.delete 5 true) 8,
      reuseCall 1 (.insert 3 30) 23, reuseCall 0 (.insert 5 55) 15, reuseSteps 2 8])
    (by decide +kernel)
  have h₀ : ReuseCreated 3 threeKeyList := by
    constructor <;> simp [threeKeyList, ReuseState.new, Thread.outside]
  exact ⟨moves, s, h₀, h, by simpa using hhist, list_linearizable h₀ h⟩

end CoopTasks.LockFreeList
