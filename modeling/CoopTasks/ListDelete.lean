import CoopTasks.ListAloneEnds

/-!
A node is out of the list when `list_delete` gives it back.

`list_delete` flags the predecessor and then relies on its own call of `help_flagged`, or on that
of another thread, to unlink the node. Once the node is marked and nothing is flagged on it, it is
off the chain for good.
-/

namespace CoopTasks.LockFreeList

open CoopTasks.Machine

variable {N V : Type*} {mem mem' : N → Node N V} {linked c : List N} {head tail p d n : N}
  {e : Effect N} {t : ℕ} {key : ℤ}

/-! ### Nodes off the chain -/

/-- A marked node that nothing is flagged on. -/
structure Gone (mem : N → Node N V) (linked : List N) (d : N) : Prop where
  known : d ∈ linked
  marked : (mem d).succ.marked = true
  unflagged : ∀ p ∈ linked, (mem p).succ ≠ getFlaggedRef (some d)

lemma Gone.not_mem (h : Gone mem linked d) (hc : Chained mem linked head tail c) : d ∉ c :=
  fun hd => by
    obtain ⟨p, hp, hs⟩ := hc.flagger d hd h.marked
    exact h.unflagged p hp hs

/-- The head is never marked: there is no way back from it. -/
lemma Chained.head_unmarked (h : Chained mem linked head tail c) :
    (mem head).succ.marked = false := by
  by_contra hm
  have hmem := h.sub _ h.head_mem
  obtain ⟨b, hb, -, hk⟩ := h.back _ hmem (by simpa using hm)
  have := h.key_le hb
  rw [h.head_key] at hk
  omega

variable [DecidableEq N]

lemma Move.pointed (h : Move mem linked e mem') (hp : p ∈ e.link linked)
    (hs : (mem' p).succ = getFlaggedRef (some d)) :
    p ∈ linked ∧ (mem p).succ.marked = false ∧ (mem p).succ.node = some d := by
  have hkept : ∀ {q r}, p ∈ linked → r ≠ getFlaggedRef (some d) →
      (setSucc mem q r p).succ = getFlaggedRef (some d) →
      p ∈ linked ∧ (mem p).succ.marked = false ∧ (mem p).succ.node = some d :=
    fun {q r} hp hr hs => by
      have hne : p ≠ q := by
        rintro rfl
        exact hr (by simpa using hs)
      rw [setSucc_ne hne] at hs
      simp [hp, hs]
  cases h with
  | outside hsame =>
    rw [(hsame p hp).1] at hs
    exact ⟨hp, by simp [hs], by simp [hs]⟩
  | @backlink q b hq hb hk =>
    have hs : (mem p).succ = getFlaggedRef (some d) := by
      rw [← hs, setBacklink, Function.update_apply]
      split
      · rename_i heq
        rw [heq]
      · rfl
    exact ⟨hp, by simp [hs], by simp [hs]⟩
  | @link q x m hq hx hqs hxs hqx hxm =>
    rcases List.mem_cons.mp hp with rfl | hp
    · have hne : p ≠ q := by
        rintro rfl
        exact hx hq
      rw [setSucc_ne hne, hxs] at hs
      simp [getUnmarkedRef, getFlaggedRef] at hs
    · exact hkept hp (by simp [getUnmarkedRef, getFlaggedRef]) hs
  | @flag q d' hq hqs hd =>
    by_cases hpq : p = q
    · subst hpq
      simp only [setSucc_self, getFlaggedRef, Ref.mk.injEq, Option.some.injEq, and_true] at hs
      simp [hq, hqs, hs]
    · rw [setSucc_ne hpq] at hs
      exact ⟨hp, by simp [hs], by simp [hs]⟩
  | mark => exact hkept hp (by simp [getMarkedRef, getFlaggedRef]) hs
  | unlink => exact hkept hp (by simp [getUnflaggedRef, getFlaggedRef]) hs

lemma Gone.move (h : Gone mem linked d) (hc : Chained mem linked head tail c)
    (hmv : Move mem linked e mem') (hev : Evolves mem linked mem' (e.link linked)) :
    Gone mem' (e.link linked) d where
  known := hev.grows d h.known
  marked := hev.marked h.known h.marked
  unflagged p hp hs := by
    obtain ⟨hp, hm, hn⟩ := hmv.pointed hp hs
    exact h.not_mem hc (hc.succ_mem (hc.kept p hp hm) hn)

/-- A flag on a node stays until the node is gone. -/
lemma Move.taken (hmv : Move mem linked e mem') (hc : Chained mem linked head tail c)
    (hev : Evolves mem linked mem' (e.link linked)) (hp : p ∈ linked) (hd : d ∈ linked)
    (hs : (mem p).succ = getFlaggedRef (some d)) :
    (mem' p).succ = getFlaggedRef (some d) ∨ Gone mem' (e.link linked) d := by
  refine or_iff_not_imp_left.mpr fun hno => ?_
  refine ⟨hev.grows d hd, (hev.flagged p hp d hd hs).resolve_left hno, fun q hq hqs => ?_⟩
  obtain ⟨hq, hm, hn⟩ := hmv.pointed hq hqs
  have heq := hc.pred_unique (hc.kept q hq hm) (hc.kept p hp (by simp [hs])) hn (by simp [hs])
  rw [heq] at hqs
  exact hno hqs

/-! ### Deletions under way -/

variable {s s' s₀ : LinkState N V} {a : LinkAct N V} {th : Thread N V}

/-- A node whose predecessor was flagged by `list_delete`: it is gone, or the predecessor is still
flagged on it and the call of `help_flagged` about them has not returned. -/
def DeleteOk (mem : N → Node N V) (linked : List N) (th : Thread N V) : Prop :=
  ∀ d ∈ th.pc.target, Gone mem linked d ∨ ∃ f ∈ th.helps.getLast?, f.del = d ∧
    (mem f.prev).succ = getFlaggedRef (some d)

/-- The predecessor and the node at the compare-exchange of `help_marked` that is the last thing
`list_delete` does to unlink the node. -/
def Thread.unlinks (th : Thread N V) : Option (N × N) :=
  match th.helps, th.pc.target with
  | [{ prev, del, pc := .helpMarked (.cas _) }], some _ => some (prev, del)
  | _, _ => none

/-- The last compare-exchange with which `list_delete` unlinks its node does not fail although
the predecessor is flagged on the node. -/
def Unlinks (s : LinkState N V) : LinkAct N V → Prop
  | .call _ _ => True
  | .step t weak _ => weak = true → ∀ x ∈ (s.threads t).unlinks,
      (s.node x.1).succ ≠ getFlaggedRef (some x.2)

instance (s : LinkState N V) (a : LinkAct N V) : Decidable (Unlinks s a) :=
  match a with
  | .call _ _ => inferInstanceAs (Decidable True)
  | .step t weak _ => inferInstanceAs (Decidable (weak = true → ∀ x ∈ (s.threads t).unlinks,
      (s.node x.1).succ ≠ getFlaggedRef (some x.2)))

lemma DeleteOk.move (h : DeleteOk mem linked th) (hhelps : ∀ f ∈ th.helps, HelpOk mem linked f)
    (hc : Chained mem linked head tail c) (hmv : Move mem linked e mem')
    (hev : Evolves mem linked mem' (e.link linked)) : DeleteOk mem' (e.link linked) th :=
  fun d hd => by
    rcases h d hd with hg | ⟨f, hf, rfl, hs⟩
    · exact .inl (hg.move hc hmv hev)
    · have hok := hhelps f (List.mem_of_mem_getLast? hf)
      rcases hmv.taken hc hev hok.prev hok.del hs with hs | hg
      · exact .inr ⟨f, hf, rfl, hs⟩
      · exact .inl hg

omit [DecidableEq N] in
lemma helpFlagged_last {f : HelpFlagged N} :
    (helpFlagged (V := V) f).All fun r => ∀ gs ∈ r, ∀ b ∈ gs.getLast?,
      b.prev = f.prev ∧ b.del = f.del := by
  obtain ⟨prev, del, pc⟩ := f
  cases pc with
  | backlink => simp [helpFlagged, Cmd.All]
  | test =>
    intro r
    cases hm : r.marked <;> simp [hm]
  | tryMark pc =>
    refine Cmd.all_map.mpr (Cmd.all_of_forall (fun r => ?_) _)
    cases r with
    | help node => cases node <;> simp
    | _ => simp
  | helpMarked pc =>
    refine Cmd.all_map.mpr (Cmd.all_of_forall (fun r => ?_) _)
    cases r <;> simp

omit [DecidableEq N] in
lemma helpFlagged_ends {f : HelpFlagged N} (h : ∀ n, f.pc ≠ .helpMarked (.cas n)) :
    (helpFlagged (V := V) f).All fun r => r ≠ some [] := by
  obtain ⟨prev, del, pc⟩ := f
  cases pc with
  | backlink => simp [helpFlagged, Cmd.All]
  | test =>
    intro r
    cases hm : r.marked <;> simp [hm]
  | tryMark pc =>
    refine Cmd.all_map.mpr (Cmd.all_of_forall (fun r => ?_) _)
    cases r with
    | help node => cases node <;> simp
    | _ => simp
  | helpMarked pc =>
    cases pc with
    | load => simp [helpFlagged, helpMarked, Cmd.map, Cmd.All]
    | cas n => exact absurd rfl (h n)

lemma exec_map {R S : Type*} {f : R → S} {weak : Bool} {fresh : Option N} (cmd : Cmd N V R) :
    s.exec weak fresh (cmd.map f) =
      ((s.exec weak fresh cmd).1, f (s.exec weak fresh cmd).2) := by
  cases cmd with
  | cas n exp new k =>
    cases hok : !weak && decide ((s.node n).succ = exp) <;>
      simp [LinkState.exec, LinkState.casOk, Cmd.map, hok]
  | casReaders exp new k =>
    cases hok : !weak && decide (s.readers = exp) <;> simp [LinkState.exec, Cmd.map, hok]
  | _ => rfl

lemma helpFlagged_done {prev del : N} {r : Option N} {pc : Pc N V} {weak : Bool}
    {fresh : Option N} (hd : d ∈ pc.target)
    (hweak : weak = true → ∀ x ∈ (⟨[⟨prev, del, .helpMarked (.cas r)⟩], pc⟩ : Thread N V).unlinks,
      (s.node x.1).succ ≠ getFlaggedRef (some x.2)) :
    ((s.exec weak fresh (helpFlagged ⟨prev, del, .helpMarked (.cas r)⟩)).1.node prev).succ ≠
      getFlaggedRef (some del) := by
  have hd : pc.target = some d := hd
  by_cases hs : (s.node prev).succ = getFlaggedRef (some del)
  · cases weak with
    | true => exact absurd hs (hweak rfl (prev, del) (by simp [Thread.unlinks, hd]))
    | false =>
      simp [helpFlagged, helpMarked, Cmd.map, LinkState.exec, LinkState.casOk, hs, getUnflaggedRef,
        getFlaggedRef]
  · simp [helpFlagged, helpMarked, Cmd.map, LinkState.exec, LinkState.casOk, hs]

lemma deleteOk_helps {f : HelpFlagged N} {fs : List (HelpFlagged N)} {pc : Pc N V} {weak : Bool}
    {fresh : Option N} {cmd : Cmd N V (Thread N V)}
    (hcmd : (⟨f :: fs, pc⟩ : Thread N V).cmd (· == ·) = some cmd)
    (h : DeleteOk (s.exec weak fresh cmd).1.node linked (⟨f :: fs, pc⟩ : Thread N V))
    (hweak : weak = true → ∀ x ∈ (⟨f :: fs, pc⟩ : Thread N V).unlinks,
      (s.node x.1).succ ≠ getFlaggedRef (some x.2)) :
    DeleteOk (s.exec weak fresh cmd).1.node linked (s.exec weak fresh cmd).2 := by
  cases hcmd
  intro d hd
  rw [exec_map] at h hd ⊢
  have hlast := (helpFlagged_last (V := V) (f := f)).exec (s := s) weak fresh
  have hends := fun hne => (helpFlagged_ends (V := V) (f := f) hne).exec (s := s) weak fresh
  cases hr : (s.exec weak fresh (helpFlagged f)).2 with
  | none =>
    rw [hr] at hd
    cases hd
  | some gs =>
    rw [hr] at hd hlast
    rcases h d hd with hg | ⟨b, hb, hbd, hs⟩
    · exact .inl hg
    · refine .inr ?_
      cases fs with
      | cons g fs =>
        refine ⟨b, ?_, hbd, hs⟩
        simpa [List.getLast?_append] using hb
      | nil =>
        obtain rfl : f = b := by simpa using hb
        simp only [List.append_nil]
        cases hgs : gs.getLast? with
        | some b =>
          obtain ⟨hp, hbd'⟩ := hlast gs rfl b hgs
          exact ⟨b, rfl, hbd'.trans hbd, by rw [hp]; exact hs⟩
        | none =>
          exfalso
          obtain rfl : gs = [] := by simpa using hgs
          obtain ⟨prev, del, fpc⟩ := f
          obtain rfl : del = d := hbd
          by_cases hpc : ∃ n, fpc = .helpMarked (.cas n)
          · obtain ⟨n, rfl⟩ := hpc
            exact helpFlagged_done hd hweak hs
          · exact hends (fun n hn => hpc ⟨n, hn⟩) hr

omit [DecidableEq N] in
lemma DeleteOk.of_plain (h : th.pc.target = none) : DeleteOk mem linked th := fun d hd => by
  rw [h] at hd
  cases hd

omit [DecidableEq N] in
lemma DeleteOk.gone {pc : Pc N V} (h : DeleteOk mem linked (⟨[], pc⟩ : Thread N V))
    (hd : d ∈ pc.target) : Gone mem linked d := by
  rcases h d hd with hg | ⟨f, hf, -⟩
  · exact hg
  · cases hf

/-- Only the compare-exchange of `try_flag` leads to where a node is given back. -/
lemma tryFlag_target {val : Bool} {prev target : N} {pc : TryFlagPc} (h : pc ≠ .cas) :
    (tryFlag (V := V) (· == ·) key val prev target pc).All fun th => th.pc.target = none := by
  have hcond : ∀ (b : Bool) {th th' : Thread N V}, th.pc.target = none → th'.pc.target = none →
      (bif b then th else th').pc.target = none :=
    of_cond (P := fun th : Thread N V => th.pc.target = none)
  cases pc with
  | cas => exact absurd rfl h
  | testNode | testMarked | testFlagged | result | marked => exact fun r => hcond _ rfl rfl
  | backlink =>
    intro b
    cases b <;> rfl
  | key => exact fun k => rfl

lemma deleteOk_pc {pc : Pc N V} {weak : Bool} {fresh : Option N} {cmd : Cmd N V (Thread N V)}
    (hcmd : pc.cmd (· == ·) = some cmd)
    (h : DeleteOk (s.exec weak fresh cmd).1.node linked (⟨[], pc⟩ : Thread N V)) :
    DeleteOk (s.exec weak fresh cmd).1.node linked (s.exec weak fresh cmd).2 := by
  cases pc with
  | tryFlag key val prev target pc =>
    cases hcmd
    by_cases hpc : pc = .cas
    · subst hpc
      cases hok : !weak && decide ((s.node prev).succ = getUnflaggedRef (some target)) with
      | false =>
        simp only [tryFlag, LinkState.exec, LinkState.casOk, hok, cond_false]
        exact .of_plain rfl
      | true =>
        simp only [tryFlag, LinkState.exec, LinkState.casOk, hok, cond_true]
        intro d hd
        obtain rfl : target = d := by
          cases val <;> simpa [flagged, Pc.target] using hd
        exact .inr ⟨.call prev target, rfl, rfl, setSucc_self⟩
    · exact .of_plain ((tryFlag_target hpc).exec weak fresh)
  | delete key val del pc =>
    cases hcmd
    cases pc with
    | check prev =>
      refine .of_plain ?_
      simp only [listDelete, LinkState.exec]
      split <;> rfl
    | read pc =>
      have hg := h.gone (d := del) rfl
      have htarget : (listDelete (V := V) key val del (.read pc)).All fun th =>
          th.pc.target = some del :=
        Cmd.all_map.mpr (Cmd.all_of_forall (fun r => by cases r <;> rfl) _)
      intro d hd
      rw [htarget.exec weak fresh] at hd
      obtain rfl : del = d := by simpa using hd
      exact .inl hg
    | free v => exact .of_plain rfl
  | _ => exact .of_plain ((cmd_plain hcmd (by simp) (by simp)).exec weak fresh).2

/-- **Deletions in progress**, whatever a thread does. -/
theorem deletes_step (h : LinkInv s c) (hdel : ∀ t, DeleteOk s.node s.linked (s.threads t))
    (hone : OneWord s a) (hun : Unlinks s a) (hs : s.next a = some s') :
    ∀ t, DeleteOk s'.node s'.linked (s'.threads t) := by
  obtain ⟨c', h', hst, hev⟩ := linkInv_step h hone hs
  rw [hst.linked] at hev
  have hmove : ∀ t, DeleteOk s'.node s'.linked (s.threads t) := fun t => by
    rw [hst.linked]
    exact (hdel t).move (h.threads t).helps h.chained hst.move hev
  cases a with
  | call t op =>
    simp only [LinkState.next] at hs
    split at hs
    · cases hs
      intro u
      by_cases hu : u = t
      · subst hu
        refine .of_plain ?_
        simp only [Function.update_self]
        cases op <;> rfl
      · simpa [hu] using hdel u
    · cases hs
  | step t weak fresh =>
    obtain ⟨cmd, hcmd, hnode, -, hlinked, hth⟩ := next_step hs
    intro u
    rw [hth]
    by_cases hu : u = t
    · subst hu
      rw [Function.update_self, hnode]
      have hmine := hmove u
      rw [hnode] at hmine
      rcases hthr : s.threads u with ⟨helps, pc⟩
      have hun : weak = true → ∀ x ∈ (s.threads u).unlinks,
          (s.node x.1).succ ≠ getFlaggedRef (some x.2) := hun
      rw [hthr] at hcmd hmine hun
      cases helps with
      | nil => exact deleteOk_pc hcmd hmine
      | cons f fs => exact deleteOk_helps hcmd hmine hun
    · rw [Function.update_of_ne hu]
      exact hmove u

end CoopTasks.LockFreeList
