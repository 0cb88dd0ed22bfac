import CoopTasks.ListShadow

/-!
One move of a list whose nodes are used again, and of its shadow.
-/

namespace CoopTasks.LockFreeList

open CoopTasks.Machine ListMachine

variable {N A V R : Type*} [DecidableEq A] {s s' : ReuseState A V} {u u' : LinkState (A × ℕ) V}
  {c c' : List (A × ℕ)} {n m : A × ℕ} {t : ℕ}

lemma next_some [DecidableEq N] {u : LinkState N V} {weak : Bool} {fresh : Option N}
    {cmd : Cmd N V (Thread N V)} (hcmd : (u.threads t).cmd (· == ·) = some cmd)
    (hfresh : ∀ n ∈ fresh, n ∉ u.used) : ∃ u', u.next (.step t weak fresh) = some u' ∧
      u'.node = (u.exec weak fresh cmd).1.node ∧
      u'.readers = (u.exec weak fresh cmd).1.readers ∧
      u'.used = (u.exec weak fresh cmd).1.used ∧
      u'.threads = Function.update u.threads t (u.exec weak fresh cmd).2 := by
  obtain ⟨-, -, -, -, hthreads⟩ := exec_fixed u weak fresh cmd
  simp only [LinkState.next, if_pos hfresh, hcmd, Option.map_some, Option.some.injEq,
    exists_eq_left']
  exact ⟨trivial, trivial, trivial, by rw [hthreads]⟩

/-- The move that the shadow makes. -/
def ReuseState.shadow (s : ReuseState A V) : ReuseAct A V → LinkAct (A × ℕ) V
  | .call t op => .call t op
  | .step t weak _ => .step t weak s.fresh

section Step

variable {moves : List (LinkState (A × ℕ) V × LinkAct (A × ℕ) V)} {weak ok : Bool}
  {junk : A → Ref (A × ℕ)} {cmd : Cmd (A × ℕ) V (Thread (A × ℕ) V)} {th : Thread (A × ℕ) V}

lemma next_apart (h : s.Orderly (.step t weak junk))
    (hs : s.next (.step t weak junk) = some s') :
    ∃ cmd, (s.threads t).cmd samePtr = some cmd ∧ (∀ n ∈ cmd.node, n ∈ s.live) ∧
      s' = { s.write (s.casOk samePtr weak cmd) junk cmd with
        threads := Function.update s.threads t (s.answer (s.casOk samePtr weak cmd) cmd) } := by
  obtain ⟨cmd, hcmd, rfl⟩ := Option.map_eq_some_iff.mp hs
  obtain ⟨cmd', hcmd', hsame⟩ := cmd_same hcmd samePtr
  obtain ⟨hcas, hanswer⟩ := h.tellsApart cmd hcmd cmd' hcmd'
  rw [hcas] at hanswer
  refine ⟨cmd', hcmd', fun n hn => h.followsLive cmd hcmd n ?_, ?_⟩
  · rw [← Cmd.node_map (f := fun _ => ()), hsame, Cmd.node_map]
    exact hn
  · simp only [hcas, hanswer, ReuseState.write_congr hsame]

omit [DecidableEq A] in
lemma Shadow.fresh_unused (h : Shadow s u) (hn : s.fresh = some n) : n ∉ u.used := fun hused => by
  have hlt := h.count n hused
  unfold ReuseState.fresh at hn
  split at hn
  · obtain rfl := Option.some.inj hn
    exact lt_irrefl _ hlt
  · cases hn

lemma Shadow.next (h : Shadow s u) (hcmd : (s.threads t).cmd samePtr = some cmd) (weak : Bool) :
    ∃ u', u.next (.step t weak s.fresh) = some u' ∧
      u'.node = (u.exec weak s.fresh cmd).1.node ∧
      u'.readers = (u.exec weak s.fresh cmd).1.readers ∧
      u'.used = (u.exec weak s.fresh cmd).1.used ∧
      u'.threads = Function.update s.threads t (u.exec weak s.fresh cmd).2 := by
  rw [← h.threads] at hcmd ⊢
  exact next_some hcmd fun n hn => h.fresh_unused hn

lemma raw_step (hraw : th.raw = some n) (hcmd : th.cmd samePtr = some cmd)
    (hw : th.Written (u.node n) (s.mem n.1)) :
    cmd.node = some n ∧ (u.exec weak s.fresh cmd).2 = s.answer ok cmd ∧
      ((s.answer ok cmd).raw = some n → (s.answer ok cmd).Written
        ((u.exec weak s.fresh cmd).1.node n) ((s.write ok junk cmd).mem n.1)) ∧
      ((s.answer ok cmd).raw ≠ some n →
        (u.exec weak s.fresh cmd).1.node n = (s.write ok junk cmd).mem n.1) := by
  obtain ⟨helps, pc⟩ := th
  unfold Thread.raw at hraw
  split at hraw <;> cases hraw <;> rename_i hhelps hpc <;> cases hhelps <;> cases hpc <;>
    cases hcmd
  · refine ⟨rfl, rfl, fun _ => ?_, fun h => absurd rfl h⟩
    show (setSucc u.node n _ n).succ = _
    simp [listInsert, ReuseState.write, ReuseState.setNode]
  · refine ⟨rfl, rfl, fun _ => ?_, fun h => absurd rfl h⟩
    have hsucc : (u.node n).succ = (s.mem n.1).succ := hw
    refine ⟨?_, ?_⟩ <;>
      simp [listInsert, LinkState.exec, setBacklink, ReuseState.write, ReuseState.setNode, hsucc]
  · refine ⟨rfl, rfl, fun _ => ?_, fun h => absurd rfl h⟩
    obtain ⟨hsucc, hback⟩ := hw
    refine ⟨?_, ?_, ?_⟩ <;>
      simp [listInsert, LinkState.exec, ReuseState.write, ReuseState.setNode, hsucc, hback]
  · refine ⟨rfl, rfl, (fun h => by cases h), fun _ => ?_⟩
    obtain ⟨hsucc, hback, hkey⟩ := hw
    simp [listInsert, LinkState.exec, ReuseState.write, ReuseState.setNode, hsucc, hback, hkey]

omit [DecidableEq A] in
lemma lastTest_eq {x : (A × ℕ) × (A × ℕ)} (h : th.lastTest = some x) :
    ∃ key val, th = ⟨[], .tryFlag key val x.1 x.2 .testFlagged⟩ := by
  obtain ⟨helps, pc⟩ := th
  unfold Thread.lastTest at h
  simp only [] at h
  split at h <;> cases h
  exact ⟨_, _, rfl⟩

omit [DecidableEq A] in
lemma unlinks_eq {x : (A × ℕ) × (A × ℕ)} (h : th.unlinks = some x) :
    ∃ next pc, th = ⟨[⟨x.1, x.2, .helpMarked (.cas next)⟩], pc⟩ := by
  obtain ⟨helps, pc⟩ := th
  unfold Thread.unlinks at h
  simp only [] at h
  split at h <;> cases h
  exact ⟨_, _, rfl⟩

omit [DecidableEq A] in
lemma overwrites_eq (h : th.overwrites = some n) :
    ∃ key val, th = ⟨[], .updateWrite key val n .copy⟩ := by
  obtain ⟨helps, pc⟩ := th
  unfold Thread.overwrites at h
  simp only [] at h
  split at h <;> cases h
  exact ⟨_, _, rfl⟩

omit [DecidableEq A] in
lemma Shadow.deleted (h : Shadow s u) (hI : LinkInv u c) (hn : n ∈ u.linked)
    (hm : n ∈ s.live → (s.mem n.1).succ.marked = true) : (u.node n).succ.marked = true := by
  by_cases hl : n ∈ s.live
  · rw [h.linked_node hI hn hl]
    exact hm hl
  · exact (h.gone n hn hl).marked

lemma Shadow.orderly {a : ReuseAct A V} (h : Shadow s u) (hI : LinkInv u c) (hok : s.Orderly a) :
    Orderly u (s.shadow a) := by
  cases a with
  | call t op => exact ⟨trivial, trivial, trivial⟩
  | step t weak junk =>
    have hth := hI.threads t
    have hlive := hok.followsLive
    simp only [ReuseState.FollowsLive] at hlive
    rw [h.threads] at hth
    constructor
    · intro x hx hflag
      rw [h.threads] at hx
      have hone := hok.oneWord x hx
      obtain ⟨key, val, heq⟩ := lastTest_eq hx
      rw [heq] at hth hlive
      obtain ⟨-, -, hprev, htarget, -⟩ := hth.pc
      rw [h.linked_node hI hprev.1 (hlive _ rfl _ rfl)] at hflag ⊢
      exact (hone hflag).imp_right (h.deleted hI htarget)
    · intro hweak x hx
      rw [h.threads] at hx
      have hun := hok.unlinks hweak x hx
      obtain ⟨next, pc, heq⟩ := unlinks_eq hx
      rw [heq] at hth hlive
      rw [h.linked_node hI (hth.helps _ (by simp)).prev (hlive _ rfl _ rfl)]
      exact hun
    · intro n hn
      rw [h.threads] at hn
      have hwr := hok.writesLive n hn
      obtain ⟨key, val, heq⟩ := overwrites_eq hn
      rw [heq] at hth hlive
      rw [h.linked_node hI hth.pc (hlive _ rfl _ rfl)]
      exact hwr

omit [DecidableEq A] in
lemma Shadow.unique {w : ℕ} (h : Shadow s u) (hI : LinkInv u c)
    (hw : (s.threads w).pc.holds = some n) (ht : (s.threads t).pc.holds = some n) : w = t := by
  rw [← h.threads] at hw ht
  exact hI.distinct w t n hw ht

lemma Shadow.not_accessed {w : ℕ} (h : Shadow s u) (hist : History moves u) (hI : LinkInv u c)
    (hcmd : (s.threads t).cmd samePtr = some cmd) (hwt : w ≠ t)
    (hw : (s.threads w).pc.holds = some n) : cmd.node ≠ some n := fun hn => by
  rw [← h.threads] at hcmd hw
  rcases hist.accessed hcmd hn with hlinked | hmine
  · exact ((hI.threads w).pc.holds_fresh hw).2 hlinked
  · exact hwt (hI.distinct w t n hw hmine)

lemma Shadow.accessed (h : Shadow s u) (hist : History moves u) (hI : LinkInv u c)
    (hcmd : (s.threads t).cmd samePtr = some cmd) (hn : cmd.node = some n) (hl : n ∈ s.live)
    (hraw : (s.threads t).raw ≠ some n) : u.node n = s.mem n.1 := by
  refine h.node n hl fun w hw => ?_
  by_cases hwt : w = t
  · exact hraw (hwt ▸ hw)
  · exact h.not_accessed hist hI hcmd hwt (raw_holds hw) hn

omit [DecidableEq A] in
lemma Shadow.agrees (h : Shadow s u) (hn : n ∈ s.live) (ht : (s.threads t).raw ≠ some n)
    (hno : ∀ w, w ≠ t → (s.threads w).raw ≠ some n) : u.node n = s.mem n.1 := by
  refine h.node n hn fun w => ?_
  by_cases hwt : w = t
  · exact hwt ▸ ht
  · exact hno w hwt

omit [DecidableEq A] in
/-- What has to be so when a thread moves: it agrees on its own nodes, and the nodes that the
others hold stay. -/
lemma Shadow.moved (h : Shadow s u) (hhead : u'.head = s'.head) (htail : u'.tail = s'.tail)
    (hreaders : u'.readers = s'.readers) (hth : s'.threads = Function.update s.threads t th)
    (hthu : u'.threads = Function.update s.threads t th)
    (hnode : ∀ n ∈ s'.live, th.raw ≠ some n → (∀ w, w ≠ t → (s.threads w).raw ≠ some n) →
      u'.node n = s'.mem n.1)
    (hwritten : ∀ n, th.raw = some n → th.Written (u'.node n) (s'.mem n.1))
    (hheld : ∀ n, th.pc.holds = some n → n ∈ s'.live)
    (hothers : ∀ w, w ≠ t → ∀ n, (s.threads w).pc.holds = some n →
      n ∈ s'.live ∧ u'.node n = u.node n ∧ s'.mem n.1 = s.mem n.1)
    (hused : ∀ n ∈ s'.live, n ∈ u'.used) (hcount : ∀ n ∈ u'.used, n.2 < s'.count)
    (haddr : (s'.live.map Prod.fst ++ s'.free).Nodup)
    (hgone : ∀ n ∈ u'.linked, n ∉ s'.live → Gone u'.node u'.linked n) : Shadow s' u' := by
  have hsame : ∀ w, w ≠ t → s'.threads w = s.threads w := fun w hwt => by
    rw [hth, Function.update_of_ne hwt]
  have hmine : s'.threads t = th := by rw [hth, Function.update_self]
  refine ⟨hhead, htail, hreaders, hthu.trans hth.symm, fun n hn hno => ?_, fun w n hw => ?_, hused,
    hcount, haddr, fun w n hw => ?_, hgone⟩
  · exact hnode n hn (hmine ▸ hno t) fun w hwt => hsame w hwt ▸ hno w
  · by_cases hwt : w = t
    · subst hwt
      rw [hmine] at hw ⊢
      exact hwritten n hw
    · rw [hsame w hwt] at hw ⊢
      obtain ⟨-, hu, hm⟩ := hothers w hwt n (raw_holds hw)
      rw [hu, hm]
      exact h.written w n hw
  · by_cases hwt : w = t
    · subst hwt
      rw [hmine] at hw
      exact hheld n hw
    · rw [hsame w hwt] at hw
      exact (hothers w hwt n hw).1

lemma Shadow.stay_gone {e : Effect (A × ℕ)} (h : Shadow s u) (hI : LinkInv u c)
    (hst : Stepped u e u') (hev : Evolves u.node u.linked u'.node u'.linked)
    (he : ∀ n, e = .linked n → (s.threads t).pc.holds = some n) :
    ∀ n ∈ u'.linked, n ∉ s.live → Gone u'.node u'.linked n := fun n hn hl => by
  rw [hst.linked] at hn hev ⊢
  rcases Effect.mem_link hn with hn | hn
  · exact (h.gone n hn hl).move hI.chained hst.move hev
  · exact absurd (h.held t n (he n hn)) hl

lemma Shadow.access {e : Effect (A × ℕ)} (h : Shadow s u) (hist : History moves u)
    (hI : LinkInv u c) (hst : Stepped u e u')
    (hev : Evolves u.node u.linked u'.node u'.linked)
    (he : ∀ n, e = .linked n → (s.threads t).pc.holds = some n)
    (hcmd : (s.threads t).cmd samePtr = some cmd) (hlive : ∀ n ∈ cmd.node, n ∈ s.live)
    (hp : cmd.pool = false)
    (hholds : ∀ n, (u.exec weak s.fresh cmd).2.pc.holds = some n →
      (s.threads t).pc.holds = some n)
    (hu : u.next (.step t weak s.fresh) = some u') :
    Shadow { s.write (s.casOk samePtr weak cmd) junk cmd with
      threads := Function.update s.threads t (s.answer (s.casOk samePtr weak cmd) cmd) } u' := by
  obtain ⟨u'', hu'', hnode, hreaders, hused, hthreads⟩ := h.next hcmd weak
  obtain rfl := Option.some.inj (hu''.symm.trans hu)
  set ok := s.casOk samePtr weak cmd
  obtain ⟨hlv, hfr, hct⟩ := write_fixed (s := s) ok junk hp
  obtain ⟨hhd, htl⟩ := write_ends (s := s) ok junk cmd
  set th := s.answer ok cmd
  have hraw : ∀ n, (s.threads t).raw = some n → (u.exec weak s.fresh cmd).2 = th ∧
      (th.raw = some n → th.Written (u''.node n) ((s.write ok junk cmd).mem n.1)) ∧
      (th.raw ≠ some n → u''.node n = (s.write ok junk cmd).mem n.1) := fun n hn => by
    rw [hnode]
    exact (raw_step hn hcmd (h.written t n hn)).2
  have hanswer : (u.exec weak s.fresh cmd).2 = th := by
    by_cases hr : ∃ n, (s.threads t).raw = some n
    · exact (hraw _ hr.choose_spec).1
    · exact exec_answer (fun n hn => h.accessed hist hI hcmd hn (hlive n hn)
        fun hn => hr ⟨n, hn⟩) h.readers
  rw [hanswer] at hthreads hholds
  have hne : ∀ m ∈ s.live, cmd.node ≠ some m → ∀ n ∈ cmd.node, m.1 ≠ n.1 := fun m hm hn n hn' ha =>
    hn (h.addr_inj hm (hlive n hn') ha ▸ hn')
  have hagree : ∀ m ∈ s.live, (s.threads t).raw ≠ some m →
      (∀ w, w ≠ t → (s.threads w).raw ≠ some m) →
      u''.node m = (s.write ok junk cmd).mem m.1 := fun m hm hr hno => by
    have heq := h.agrees hm hr hno
    rw [hnode]
    by_cases hn : cmd.node = some m
    · exact exec_agrees hp hn heq
    · rw [exec_node_ne hn, heq, write_mem_ne hp (hne m hm hn)]
  have hinit : ∀ m, th.raw = some m → (s.threads t).raw ≠ some m →
      u''.node m = (s.write ok junk cmd).mem m.1 := fun m hm hr => by
    have hheld := hholds m (raw_holds hm)
    exact hagree m (h.held t m hheld) hr fun w hwt hw =>
      hwt (h.unique hI (raw_holds hw) hheld)
  refine h.moved (t := t) (hst.head.trans (h.head.trans hhd.symm))
    (hst.tail.trans (h.tail.trans htl.symm)) ?_ rfl hthreads (fun m hm hr hno => ?_)
    (fun m hm => ?_) (fun m hm => ?_) (fun w hwt m hm => ?_) ?_ ?_ ?_ ?_
  · rw [hreaders]
    exact exec_readers h.readers
  · by_cases hold : (s.threads t).raw = some m
    · exact (hraw m hold).2.2 hr
    · exact hagree m (hlv ▸ hm) hold hno
  · by_cases hold : (s.threads t).raw = some m
    · exact (hraw m hold).2.1 hm
    · rw [hinit m hm hold]
      exact th.written_self _
  · show m ∈ (s.write ok junk cmd).live
    rw [hlv]
    exact h.held t m (hholds m hm)
  · have hn := h.not_accessed hist hI hcmd hwt hm
    have hl := h.held w m hm
    rw [hnode, exec_node_ne hn]
    exact ⟨hlv ▸ hl, rfl, write_mem_ne hp (hne m hl hn)⟩
  · intro m hm
    rw [hused, exec_used hp]
    exact h.used m (hlv ▸ hm)
  · intro m hm
    rw [hused, exec_used hp] at hm
    exact hct ▸ h.count m hm
  · show (((s.write ok junk cmd).live).map Prod.fst ++ (s.write ok junk cmd).free).Nodup
    rw [hlv, hfr]
    exact h.addr
  · exact fun m hm hl => h.stay_gone hI hst hev he m hm (hlv ▸ hl)

lemma Shadow.alloc_write (h : Shadow s u) (ok : Bool) (junk : A → Ref (A × ℕ))
    (k : Option (A × ℕ) → R) : (s.write ok junk (.alloc k)).mem = s.mem ∧
      (s.write ok junk (.alloc k)).readers = s.readers ∧
      (s.write ok junk (.alloc k)).live = s.fresh.toList ++ s.live ∧
      (∀ n : A × ℕ, n ∈ s.fresh.toList ∨ n.2 < s.count →
        n.2 < (s.write ok junk (.alloc k)).count) ∧
      ((s.write ok junk (.alloc k)).live.map Prod.fst ++
        (s.write ok junk (.alloc k)).free).Nodup := by
  cases hfresh : s.fresh with
  | none =>
    simp only [ReuseState.write, hfresh]
    exact ⟨trivial, trivial, rfl, fun n hn => by simpa using hn, h.addr⟩
  | some m =>
    obtain ⟨b, rest, hfree, hcount⟩ : ∃ b rest, s.free = m.1 :: b :: rest ∧ m.2 = s.count := by
      unfold ReuseState.fresh at hfresh
      split at hfresh
      · rename_i a b rest hfree
        obtain rfl := Option.some.inj hfresh
        exact ⟨b, rest, hfree, rfl⟩
      · cases hfresh
    simp only [ReuseState.write, hfresh]
    refine ⟨trivial, trivial, rfl, fun n hn => ?_, ?_⟩
    · rcases hn with hn | hn
      · obtain rfl : n = m := by simpa using hn
        omega
      · omega
    · have haddr := h.addr
      rw [hfree] at haddr ⊢
      exact List.perm_middle.nodup_iff.mp haddr

/-- An allocation leaves a shadow: what is allocated has not been written to. -/
lemma Shadow.alloc {e : Effect (A × ℕ)} {k : Option (A × ℕ) → Thread (A × ℕ) V} (h : Shadow s u)
    (hI : LinkInv u c) (hst : Stepped u e u') (hev : Evolves u.node u.linked u'.node u'.linked)
    (he : ∀ n, e = .linked n → (s.threads t).pc.holds = some n)
    (hcmd : (s.threads t).cmd samePtr = some (.alloc k)) (hold : (s.threads t).raw = none)
    (hraw : (k s.fresh).raw = s.fresh) (hholds : (k s.fresh).pc.holds = s.fresh)
    (hwritten : ∀ n x y, (k s.fresh).raw = some n → (k s.fresh).Written x y)
    (hu : u.next (.step t weak s.fresh) = some u') :
    Shadow { s.write ok junk (.alloc k) with
      threads := Function.update s.threads t (s.answer ok (.alloc k)) } u' := by
  obtain ⟨u'', hu'', hnode, hreaders, hused, hthreads⟩ := h.next hcmd weak
  obtain rfl := Option.some.inj (hu''.symm.trans hu)
  have hnode : u''.node = u.node := hnode
  have hused : u''.used = s.fresh.toList ++ u.used := hused
  obtain ⟨hhd, htl⟩ := write_ends (s := s) ok junk (.alloc k)
  obtain ⟨hmem, hrd, hlive, hcount, haddr⟩ := h.alloc_write ok junk k
  have hmore : ∀ n, n ∈ (s.write ok junk (.alloc k)).live ↔ s.fresh = some n ∨ n ∈ s.live :=
    fun n => by rw [hlive]; simp
  refine h.moved (hst.head.trans (h.head.trans hhd.symm)) (hst.tail.trans (h.tail.trans htl.symm))
    (hreaders.trans (h.readers.trans hrd.symm)) rfl hthreads (fun m hm hr hno => ?_)
    (fun m hm => hwritten m _ _ hm) (fun m hm => (hmore m).mpr (.inl (hholds ▸ hm)))
    (fun w hwt m hm => ⟨(hmore m).mpr (.inr (h.held w m hm)), by rw [hnode], congrFun hmem m.1⟩)
    (fun m hm => ?_) (fun m hm => ?_) haddr
    fun m hm hl => h.stay_gone hI hst hev he m hm fun hlive => hl ((hmore m).mpr (.inr hlive))
  · have hm := ((hmore m).mp hm).resolve_left (hraw ▸ hr)
    rw [hnode, hmem]
    exact h.agrees hm (by simp [hold]) hno
  · rw [hused]
    rcases (hmore m).mp hm with hm | hm
    · simp [hm]
    · exact List.mem_append_right _ (h.used m hm)
  · rw [hused] at hm
    exact hcount m ((List.mem_append.mp hm).imp_right (h.count m))

/-- Giving back a node that is deleted, or was never linked, leaves a shadow. -/
lemma Shadow.free {e : Effect (A × ℕ)} {k : Thread (A × ℕ) V} (h : Shadow s u) (hI : LinkInv u c)
    (hst : Stepped u e u') (hev : Evolves u.node u.linked u'.node u'.linked)
    (he : ∀ n, e ≠ .linked n) (hcmd : (s.threads t).cmd samePtr = some (.free n k))
    (hn : n ∈ s.live) (hold : (s.threads t).raw = none) (hholds : k.pc.holds = none)
    (hgone : n ∈ u.linked → Gone u.node u.linked n)
    (hother : ∀ w, w ≠ t → (s.threads w).pc.holds ≠ some n)
    (hu : u.next (.step t weak s.fresh) = some u') :
    Shadow { s.write ok junk (.free n k) with
      threads := Function.update s.threads t (s.answer ok (.free n k)) } u' := by
  obtain ⟨u'', hu'', hnode, hreaders, hused, hthreads⟩ := h.next hcmd weak
  obtain rfl := Option.some.inj (hu''.symm.trans hu)
  have hnode : u''.node = u.node := hnode
  have hused : u''.used = u.used := hused
  have hnd : s.live.Nodup := List.Nodup.of_map _ h.addr.of_append_left
  have herase : ∀ {m}, m ∈ s.live.erase n ↔ m ≠ n ∧ m ∈ s.live := hnd.mem_erase_iff
  have hmem : ∀ m ∈ s.live.erase n, (s.write ok junk (.free n k)).mem m.1 = s.mem m.1 :=
    fun m hm => by
      obtain ⟨hmn, hm⟩ := herase.mp hm
      have hne : m.1 ≠ n.1 := fun ha => hmn (h.addr_inj hm hn ha)
      simp [ReuseState.write, h.not_free hm, hne]
  have hothers : ∀ w, w ≠ t → ∀ m, (s.threads w).pc.holds = some m → m ∈ s.live.erase n :=
    fun w hwt m hm => herase.mpr ⟨fun heq => hother w hwt (heq ▸ hm), h.held w m hm⟩
  have hnone : ∀ m, k.raw ≠ some m := fun m hm => by simp [raw_holds hm] at hholds
  refine h.moved (hst.head.trans h.head) (hst.tail.trans h.tail) (hreaders.trans h.readers) rfl
    hthreads (fun m hm _ hno => ?_) (fun m hm => absurd hm (hnone m))
    (fun m hm => by simp [ReuseState.answer, hholds] at hm)
    (fun w hwt m hm => ⟨hothers w hwt m hm, by rw [hnode], hmem m (hothers w hwt m hm)⟩)
    (fun m hm => hused ▸ h.used m (herase.mp hm).2) (fun m hm => h.count m (hused ▸ hm)) ?_
    (fun m hm hl => ?_)
  · rw [hnode]
    exact (h.agrees (herase.mp hm).2 (by simp [hold]) hno).trans (hmem m hm).symm
  · show ((s.live.erase n).map Prod.fst ++ (s.free ++ [n.1])).Nodup
    refine (List.Perm.nodup_iff ?_).mp h.addr
    refine ((List.perm_cons_erase hn).map Prod.fst).append_right _ |>.trans ?_
    simpa using (List.perm_append_singleton n.1 ((s.live.erase n).map Prod.fst ++ s.free)).symm
  · by_cases hmn : m = n
    · subst hmn
      rw [hst.linked] at hm hev ⊢
      exact (hgone ((Effect.mem_link hm).resolve_right (he m))).move hI.chained hst.move hev
    · exact h.stay_gone (t := t) hI hst hev (fun m hm => absurd hm (he m)) m hm
        fun hlive => hl (herase.mpr ⟨hmn, hlive⟩)

omit [DecidableEq A] in
lemma Shadow.call {op : Op V} (h : Shadow s u) (hout : (s.threads t).outside = true) :
    Shadow { s with threads := Function.update s.threads t ⟨[], op.pc s.head⟩ }
      { u with threads := Function.update u.threads t ⟨[], op.pc u.head⟩ } := by
  have hold : (s.threads t).raw = none := by
    rcases outside_cases hout with ht | ⟨r, ht⟩ <;> rw [ht] <;> rfl
  have hholds : ∀ n, (op.pc s.head).holds ≠ some n := fun n => by
    cases op <;> simp [Op.pc, Pc.holds]
  refine h.moved h.head h.tail h.readers rfl (by rw [h.threads, h.head])
    (fun n hn _ hno => h.agrees hn (by simp [hold]) hno)
    (fun n hn => absurd (raw_holds hn) (hholds n)) (fun n hn => absurd hn (hholds n))
    (fun w _ n hn => ⟨h.held w n hn, rfl, rfl⟩) h.used h.count h.addr h.gone

lemma Shadow.holds_kept (h : Shadow s u) (hI : LinkInv u c) (hI' : LinkInv u' c')
    (hok : Orderly u (.step t weak s.fresh)) (hcmd : (s.threads t).cmd samePtr = some cmd)
    (hp : cmd.pool = false) (hu : u.next (.step t weak s.fresh) = some u')
    (hn : (u.exec weak s.fresh cmd).2.pc.holds = some n) : (s.threads t).pc.holds = some n := by
  obtain ⟨u'', hu'', -, -, hused, hthreads⟩ := h.next hcmd weak
  obtain rfl := Option.some.inj (hu''.symm.trans hu)
  have hpc := (hI'.threads t).pc
  rw [hthreads, Function.update_self, hused, exec_used hp] at hpc
  rw [← h.threads] at hcmd ⊢
  have hout := thread_leads hI.chained hI.won hI.used (hI.threads t) hok.oneWord hcmd weak s.fresh
    fun n hn => h.fresh_unused hn
  exact (hout.holds n hn).resolve_right fun hnew => hnew (hpc.holds_fresh hn).1

lemma Shadow.links (h : Shadow s u) (hn : u.effect (.step t weak s.fresh) = .linked n) :
    ∃ key val prev next, s.threads t = ⟨[], .insert key val (.cas prev next n)⟩ := by
  obtain ⟨w, fresh, ha, heff⟩ := effect_step hn (by simp)
  obtain ⟨rfl, -, -⟩ := LinkAct.step.inj ha
  rw [← h.threads]
  exact effect_linked heff

/-- An access to the pool leaves a shadow: a node that is given back was never linked, or has been
unlinked. -/
lemma Shadow.pool (h : Shadow s u) (hist : History moves u) (hI : LinkInv u c)
    (hst : Stepped u (u.effect (.step t weak s.fresh)) u')
    (hev : Evolves u.node u.linked u'.node u'.linked)
    (hcmd : (s.threads t).cmd samePtr = some cmd) (hlive : ∀ n ∈ cmd.node, n ∈ s.live)
    (hp : cmd.pool = true) (hu : u.next (.step t weak s.fresh) = some u') :
    Shadow { s.write ok junk cmd with
      threads := Function.update s.threads t (s.answer ok cmd) } u' := by
  have hcmd' := hcmd
  have hnolink : (∀ key val prev next n,
      s.threads t ≠ ⟨[], .insert key val (.cas prev next n)⟩) →
      ∀ n, u.effect (.step t weak s.fresh) ≠ .linked n := fun hno n hn => by
    obtain ⟨key, val, prev, next, hth⟩ := h.links hn
    exact hno key val prev next n hth
  have hfresh : ∀ {w n}, (s.threads w).pc.holds = some n → n ∉ u.linked := fun {w n} hw => by
    rw [← h.threads] at hw
    exact ((hI.threads w).pc.holds_fresh hw).2
  rcases pool_cases hcmd hp with ⟨key, val, prev, next, hth⟩ | ⟨key, val, n, hth⟩ |
    ⟨key, val, n, v, hth⟩ <;> rw [hth] at hcmd' <;> cases hcmd'
  · have hno := hnolink (by simp [hth])
    refine h.alloc hI hst hev (fun n hn => absurd hn (hno n)) hcmd (by rw [hth]; rfl) ?_ ?_ ?_ hu
    · cases s.fresh <;> rfl
    · cases s.fresh <;> rfl
    · intro n x y hn
      cases hfresh : s.fresh with
      | none => simp [hfresh, Thread.raw] at hn
      | some m => trivial
  · have hheld : (s.threads t).pc.holds = some n := by
      rw [hth]
      rfl
    exact h.free hI hst hev (hnolink (by simp [hth])) hcmd (hlive n rfl) (by rw [hth]; rfl) rfl
      (fun hl => absurd hl (hfresh hheld)) (fun w hwt hw => hwt (h.unique hI hw hheld)) hu
  · have hgone : Gone u.node u.linked n := by
      have hdel := hist.deletes t
      rw [h.threads, hth] at hdel
      exact hdel.gone rfl
    exact h.free hI hst hev (hnolink (by simp [hth])) hcmd (hlive n rfl) (by rw [hth]; rfl) rfl
      (fun _ => hgone) (fun w _ hw => hfresh hw hgone.known) hu

/-- **Simulation**: a move without a stale pointer is a move of the shadow. -/
theorem Shadow.step {a : ReuseAct A V} (h : Shadow s u) (hist : History moves u)
    (hok : s.Orderly a) (hs : s.next a = some s') :
    ∃ u', u.next (s.shadow a) = some u' ∧ Shadow s' u' := by
  obtain ⟨c, hI⟩ := hist.link
  have hoku := h.orderly hI hok
  cases a with
  | call t op =>
    simp only [ReuseState.next] at hs
    split at hs
    · rename_i hop
      obtain rfl := Option.some.inj hs
      refine ⟨_, ?_, h.call hop.1⟩
      simp only [ReuseState.shadow, LinkState.next, h.threads, if_pos hop]
    · cases hs
  | step t weak junk =>
    obtain ⟨cmd, hcmd, hlive, rfl⟩ := next_apart hok hs
    obtain ⟨u', hu, -⟩ := h.next hcmd weak
    obtain ⟨c', hI', hst, hev⟩ := linkInv_step hI hoku.oneWord hu
    refine ⟨u', hu, ?_⟩
    cases hp : cmd.pool with
    | true => exact h.pool hist hI hst hev hcmd hlive hp hu
    | false =>
      refine h.access hist hI hst hev (fun n hn => ?_) hcmd hlive hp
        (fun n hn => h.holds_kept hI hI' hoku hcmd hp hu hn) hu
      obtain ⟨key, val, prev, next, hth⟩ := h.links hn
      rw [hth]
      rfl

end Step

end CoopTasks.LockFreeList
