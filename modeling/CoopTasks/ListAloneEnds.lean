import CoopTasks.ListAloneSteps
import CoopTasks.ListReaders
import Mathlib.Algebra.Order.BigOperators.Group.List

/-!
An operation that takes all further steps comes to its end, from whatever state the other
operations have left the list in.
-/

namespace CoopTasks.LockFreeList

open CoopTasks.Machine

variable {N V R : Type*} [DecidableEq N] {mem mem' : N → Node N V} {linked c : List N}
  {e : Effect N} {s s' s₀ : LinkState N V} {t : ℕ} {p : N}

/-! ### One thread takes all steps -/

/-- A step of a thread; `fresh` says what an allocation returns. -/
def aloneStep (fresh : LinkState N V → Option N) (t : ℕ) (s : LinkState N V) (weak : Bool) :
    Option (LinkState N V) :=
  s.next (.step t weak (fresh s))

/-- A thread is outside the operations, or waits for the other users of the values. -/
def ended (t : ℕ) (s : LinkState N V) : Option Unit :=
  if (s.threads t).outside || (s.threads t).waits s.readers then some () else none

/-- The predecessor and the target of a `try_flag` between the first and the last of its three
first loads. -/
def Pc.tests : Pc N V → Option (N × N)
  | .tryFlag _ _ prev target .testMarked | .tryFlag _ _ prev target .testFlagged =>
    some (prev, target)
  | _ => none

/-- A `try_flag` that has seen its predecessor point to its target will not take a flag on another
node for one on the target. -/
def Undeceived (s : LinkState N V) (t : ℕ) : Prop :=
  ∀ x ∈ (s.threads t).pc.tests, (s.node x.1).succ.flagged = true →
    (s.node x.1).succ.node = some x.2 ∨ (s.node x.2).succ.marked = true

instance (s : LinkState N V) (t : ℕ) : Decidable (Undeceived s t) :=
  inferInstanceAs (Decidable (∀ x ∈ (s.threads t).pc.tests, _ → _))

omit [DecidableEq N] in
lemma Thread.tests_of_lastTest {th : Thread N V} {x : N × N} (h : x ∈ th.lastTest) :
    x ∈ th.pc.tests := by
  obtain ⟨helps, pc⟩ := th
  unfold Thread.lastTest at h
  simp only [] at h
  split at h
  · exact h
  · cases h

omit [DecidableEq N] in
lemma Undeceived.oneWord {weak : Bool} {fresh : Option N} (h : Undeceived s t) :
    OneWord s (.step t weak fresh) := fun x hx => h x (Thread.tests_of_lastTest hx)

lemma Cmd.All.exec {P : R → Prop} {cmd : Cmd N V R} (h : cmd.All P) (weak : Bool)
    (fresh : Option N) : P (s.exec weak fresh cmd).2 := by
  cases cmd with
  | cas n exp new k =>
    cases hok : s.casOk weak (.cas n exp new k) <;> simp [LinkState.exec, hok] <;> exact h _
  | casReaders exp new k =>
    cases hok : !weak && decide (s.readers = exp) <;> simp [LinkState.exec, hok] <;> exact h _
  | _ => first | exact h | exact h _

lemma Move.flagged (h : Move mem linked e mem') (he : ∀ d, e ≠ .flagged d) (hp : p ∈ linked)
    (hf : (mem' p).succ.flagged = true) : (mem' p).succ = (mem p).succ := by
  have hset : ∀ {n r}, r.flagged = false → (setSucc mem n r p).succ.flagged = true →
      (setSucc mem n r p).succ = (mem p).succ := fun {n r} hr hf => by
    by_cases hpn : p = n
    · subst hpn
      simp [hr] at hf
    · rw [setSucc_ne hpn]
  cases h with
  | outside hsame => exact (hsame p hp).1
  | backlink _ _ _ =>
    unfold setBacklink
    rw [Function.update_apply]
    split
    · rename_i hpd
      rw [hpd]
    · rfl
  | link => exact hset rfl hf
  | flag => exact absurd rfl (he _)
  | mark => exact hset rfl hf
  | unlink => exact hset rfl hf

/-- The node that a `list_delete` has flagged a predecessor of. -/
def Pc.target : Pc N V → Option N
  | .delete _ _ del (.read _) | .delete _ _ del (.free _) => some del
  | _ => none

/-- A thread that neither flags nor deletes. -/
def Thread.Plain (th : Thread N V) : Prop := th.pc.tests = none ∧ th.pc.target = none

omit [DecidableEq N] in
lemma listInsert_plain {key : ℤ} {val : V} (pc : InsertPc N) :
    (listInsert key val pc : Cmd N V (Thread N V)).All Thread.Plain := by
  cases pc with
  | initSucc | initBacklink | initKey | initVal | store | free => exact ⟨rfl, rfl⟩
  | checkFirst | checkAgain =>
    intro k
    by_cases hk : k = key <;> simp only [hk, if_true, if_false] <;> exact ⟨rfl, rfl⟩
  | alloc | backlink =>
    intro n
    cases n <;> exact ⟨rfl, rfl⟩
  | load =>
    intro r
    cases hf : r.flagged <;> cases hn : r.node <;> simp only [hf, hn] <;> exact ⟨rfl, rfl⟩
  | cas | marked => exact fun r => of_cond _ ⟨rfl, rfl⟩ ⟨rfl, rfl⟩
  | result =>
    intro r
    cases hf : r.isFlag <;> cases hn : r.node <;> simp only [hf, hn] <;> exact ⟨rfl, rfl⟩

lemma cmd_plain {pc : Pc N V} {cmd : Cmd N V (Thread N V)} (hcmd : pc.cmd (· == ·) = some cmd)
    (hflag : ∀ key val prev target tpc, pc ≠ .tryFlag key val prev target tpc)
    (hdelete : ∀ key val del dpc, pc ≠ .delete key val del dpc) : cmd.All Thread.Plain := by
  cases pc with
  | idle | returned | null => simp [Pc.cmd] at hcmd
  | searchFrom ctx key pc =>
    cases hcmd
    refine Cmd.all_map.mpr (Cmd.all_of_forall (fun r => ?_) _)
    cases r with
    | ret curr next =>
      cases ctx with
      | tryFlag k val target =>
        cases hsame : next == target <;> simp only [found, hsame] <;> exact ⟨rfl, rfl⟩
      | _ => exact ⟨rfl, rfl⟩
    | _ => exact ⟨rfl, rfl⟩
  | insert key val pc =>
    cases hcmd
    exact listInsert_plain pc
  | tryFlag key val prev target pc => exact absurd rfl (hflag key val prev target pc)
  | delete key val del pc => exact absurd rfl (hdelete key val del pc)
  | searchCheck key val curr =>
    cases hcmd
    intro k
    by_cases hk : k = key <;> simp only [hk, if_true, if_false]
    · exact of_cond _ ⟨rfl, rfl⟩ ⟨rfl, rfl⟩
    · exact ⟨rfl, rfl⟩
  | searchRead key target pc =>
    cases hcmd
    exact Cmd.all_map.mpr (Cmd.all_of_forall (fun r => by cases r <;> exact ⟨rfl, rfl⟩) _)
  | updateCheck key val curr =>
    cases hcmd
    intro k
    by_cases hk : k = key <;> simp only [hk, if_true, if_false] <;> exact ⟨rfl, rfl⟩
  | updateWrite key val target pc =>
    cases hcmd
    exact Cmd.all_map.mpr (Cmd.all_of_forall (fun r => by cases r <;> exact ⟨rfl, rfl⟩) _)

/-! ### The invariant of a run alone -/

lemma next_step {weak : Bool} {fresh : Option N} (hs : s.next (.step t weak fresh) = some s') :
    ∃ cmd, (s.threads t).cmd (· == ·) = some cmd ∧ s'.node = (s.exec weak fresh cmd).1.node ∧
      s'.readers = (s.exec weak fresh cmd).1.readers ∧
      s'.linked = (bif s.casOk weak cmd then (s.threads t).effect else .none).link s.linked ∧
      s'.threads = Function.update s.threads t (s.exec weak fresh cmd).2 := by
  simp only [LinkState.next] at hs
  split at hs
  · obtain ⟨cmd, hcmd, rfl⟩ := Option.map_eq_some_iff.mp hs
    obtain ⟨-, -, hlinked, -, hthreads⟩ := exec_fixed s weak fresh cmd
    refine ⟨cmd, hcmd, rfl, rfl, ?_, ?_⟩
    · simp [LinkState.effect, hcmd, hlinked]
    · simp [hthreads]
  · cases hs

lemma helps_all {f : HelpFlagged N} {fs : List (HelpFlagged N)} {pc : Pc N V}
    {cmd : Cmd N V (Thread N V)}
    (hcmd : (⟨f :: fs, pc⟩ : Thread N V).cmd (· == ·) = some cmd) :
    cmd.All fun th => th.pc = pc ∨ th.pc = .null := by
  cases hcmd
  refine Cmd.all_map.mpr (Cmd.all_of_forall (fun r => ?_) _)
  cases r with
  | none => exact .inr rfl
  | some gs => exact .inl rfl

omit [DecidableEq N] in
lemma tests_linked {used : List N} {pc : Pc N V} {x : N × N} (h : PcOk mem linked used pc)
    (hx : x ∈ pc.tests) : x.1 ∈ linked ∧ x.2 ∈ linked := by
  cases pc with
  | tryFlag key val prev target pc =>
    obtain ⟨-, -, hp, ht, -⟩ := h
    cases pc <;> simp only [Pc.tests, Option.mem_def, Option.some.injEq, reduceCtorEq] at hx <;>
      subst hx <;> exact ⟨hp.1, ht⟩
  | _ => simp [Pc.tests] at hx

lemma effect_not_flagged {weak : Bool} {fresh : Option N} {d : N}
    (h : ∀ key val prev pc, s.threads t ≠ ⟨[], .tryFlag key val prev d pc⟩) :
    s.effect (.step t weak fresh) ≠ .flagged d := by
  simp only [LinkState.effect]
  cases ((s.threads t).cmd (· == ·)).any (s.casOk weak) with
  | false => simp
  | true =>
    intro he
    simp only [cond_true] at he
    rcases hth : s.threads t with ⟨helps, pc⟩
    rw [hth] at he h
    unfold Thread.effect at he
    simp only [] at he
    split at he <;> cases he
    exact h _ _ _ _ rfl

lemma tryFlag_tests {key : ℤ} {val : Bool} {prev target : N} {pc : TryFlagPc} {weak : Bool}
    {fresh : Option N} {x : N × N}
    (hx : x ∈ (s.exec weak fresh (tryFlag (V := V) (· == ·) key val prev target pc)).2.pc.tests) :
    (s.exec weak fresh (tryFlag (V := V) (· == ·) key val prev target pc)).1 = s ∧
      x = (prev, target) ∧ ((s.node prev).succ.node = some target ∨ pc = .testMarked) := by
  have hflagged : ∀ deleted, (flagged (V := V) key val prev target deleted).pc.tests = none :=
    fun deleted => by
      cases deleted <;> cases val <;> rfl
  cases pc with
  | testNode =>
    simp only [LinkState.exec, tryFlag] at hx ⊢
    by_cases hn : (s.node prev).succ.node = some target
    · rw [hn, isNode_self] at hx
      exact ⟨trivial, by simpa [Pc.tests, eq_comm] using hx, .inl hn⟩
    · rw [isNode_ne hn] at hx
      cases hx
  | testMarked =>
    simp only [LinkState.exec, tryFlag] at hx ⊢
    cases hm : (s.node prev).succ.marked with
    | true =>
      rw [hm] at hx
      cases hx
    | false =>
      rw [hm] at hx
      exact ⟨trivial, by simpa [Pc.tests, eq_comm] using hx, .inr trivial⟩
  | testFlagged =>
    simp only [LinkState.exec, tryFlag] at hx
    cases hf : (s.node prev).succ.flagged <;> rw [hf] at hx
    · cases hx
    · simp [hflagged] at hx
  | cas =>
    have hall : (tryFlag (· == ·) key val prev target .cas : Cmd N V (Thread N V)).All
        fun th => th.pc.tests = none := fun ok => by
      cases ok
      · rfl
      · exact hflagged true
    have := hall.exec (s := s) weak fresh
    rw [this] at hx
    cases hx
  | result =>
    simp only [LinkState.exec, tryFlag] at hx
    cases hf : isNode (· == ·) (s.node prev).succ.node target && (s.node prev).succ.isFlag <;>
      rw [hf] at hx
    · cases hx
    · simp [hflagged] at hx
  | marked =>
    simp only [LinkState.exec, tryFlag] at hx
    cases hm : (s.node prev).succ.marked <;> rw [hm] at hx <;> cases hx
  | backlink =>
    simp only [LinkState.exec, tryFlag] at hx
    cases hb : (s.node prev).backlink <;> rw [hb] at hx <;> cases hx
  | key => cases hx

omit [DecidableEq N] in
lemma listDelete_tests {key : ℤ} {val : Bool} {del : N} {pc : DeletePc N V} :
    (listDelete key val del pc).All fun th => th.pc.tests = none := by
  cases pc with
  | check prev =>
    intro k
    by_cases hk : k = key <;> simp only [hk, if_true, if_false] <;> rfl
  | read pc => exact Cmd.all_map.mpr (Cmd.all_of_forall (fun r => by cases r <;> rfl) _)
  | free v => rfl

lemma undeceived_step {weak : Bool} {fresh : Option N} (h : LinkInv s c) (hun : Undeceived s t)
    (hs : s.next (.step t weak fresh) = some s') : Undeceived s' t := by
  obtain ⟨cmd, hcmd, hnode, -, -, hth⟩ := next_step hs
  obtain ⟨c', h', hst, hev⟩ := linkInv_step h hun.oneWord hs
  have hpc := (h.threads t).pc
  intro x hx hf
  rw [hth, Function.update_self] at hx
  unfold Undeceived at hun
  rcases hthr : s.threads t with ⟨helps, pc⟩
  rw [hthr] at hcmd hpc hun
  cases helps with
  | cons f fs =>
    rcases (helps_all hcmd).exec (s := s) weak fresh with hsame | hnull
    · rw [hsame] at hx
      obtain ⟨hp, ht⟩ := tests_linked hpc hx
      have hword := hst.move.flagged (fun d => effect_not_flagged (by simp [hthr])) hp hf
      rw [hword] at hf ⊢
      rcases hun x hx hf with hn | hm
      · exact .inl hn
      · exact .inr (hev.marked ht hm)
    · rw [hnull] at hx
      cases hx
  | nil =>
    have hcmd : pc.cmd (· == ·) = some cmd := hcmd
    cases pc with
    | tryFlag key val prev target pc =>
      cases hcmd
      obtain ⟨hsame, rfl, hn⟩ := tryFlag_tests hx
      rw [hnode, hsame] at hf ⊢
      rcases hn with hn | rfl
      · exact .inl hn
      · exact hun (prev, target) rfl hf
    | delete key val del pc =>
      cases hcmd
      rw [listDelete_tests.exec weak fresh] at hx
      cases hx
    | _ =>
      have hplain := (cmd_plain hcmd (by simp) (by simp)).exec (s := s) weak fresh
      rw [hplain.1] at hx
      cases hx

lemma exists_cmd {used : List N} {th : Thread N V} (h : ThreadOk mem linked used th)
    (hin : th.outside = false) : ∃ cmd, th.cmd (· == ·) = some cmd := by
  obtain ⟨helps, pc⟩ := th
  cases helps with
  | cons f fs => exact ⟨_, rfl⟩
  | nil =>
    cases pc with
    | null => exact h.pc.elim
    | idle | returned => simp [Thread.outside] at hin
    | _ => exact ⟨_, rfl⟩

lemma exists_next (weak : Bool) {fresh : Option N} (h : LinkInv s c)
    (hin : (s.threads t).outside = false) (hfresh : ∀ n ∈ fresh, n ∉ s.used) :
    ∃ s', s.next (.step t weak fresh) = some s' := by
  obtain ⟨cmd, hcmd⟩ := exists_cmd (h.threads t) hin
  simp only [LinkState.next, if_pos hfresh, hcmd, Option.map_some]
  exact ⟨_, rfl⟩

lemma aloneRank_next {fresh : Option N} (h : LinkInv s c)
    (hfree : (s.threads t).waits s.readers = false)
    (hs : s.next (.step t false fresh) = some s') :
    aloneRank s'.node s'.linked s'.readers (s'.threads t) <
      aloneRank s.node s.linked s.readers (s.threads t) := by
  obtain ⟨cmd, hcmd, hnode, hreaders, hlinked, hth⟩ := next_step hs
  rw [hnode, hreaders, hlinked, hth, Function.update_self]
  exact thread_nearer h.chained (h.threads t) hfree hcmd fresh

/-- What holds while a thread runs alone. -/
def AloneInv (t : ℕ) (s : LinkState N V) : Prop := (∃ c, LinkInv s c) ∧ Undeceived s t

lemma AloneInv.step {weak : Bool} {fresh : Option N} (h : AloneInv t s)
    (hs : s.next (.step t weak fresh) = some s') : AloneInv t s' := by
  obtain ⟨⟨c, hc⟩, hun⟩ := h
  obtain ⟨c', hc', -, -⟩ := linkInv_step hc hun.oneWord hs
  exact ⟨⟨c', hc'⟩, undeceived_step hc hun hs⟩

omit [DecidableEq N] in
lemma ended_eq_none (h : ended t s = none) :
    (s.threads t).outside = false ∧ (s.threads t).waits s.readers = false := by
  simpa [ended] using h

/-- **Alone to the end**, with an invariant that the steps of the thread keep. -/
theorem alone_ends {fresh : LinkState N V → Option N} (hfresh : ∀ s, ∀ n ∈ fresh s, n ∉ s.used)
    {I : LinkState N V → Prop} (hinv : ∀ s, I s → ∃ c, LinkInv s c)
    (hkeep : ∀ s weak s', I s → s.next (.step t weak (fresh s)) = some s' → I s')
    (h : I s) (weak : List Bool) :
    ∃ n s', (∀ fuel ≥ n, runAlone (aloneStep fresh t) (ended t) fuel weak s = some (s', ())) ∧
      I s' ∧ ended t s' = some () := by
  have hstep : ∀ u weak, I u → ended t u = none → ∃ u', aloneStep fresh t u weak = some u' ∧
      I u' ∧ (weak = false → aloneRank u'.node u'.linked u'.readers (u'.threads t) <
        aloneRank u.node u.linked u.readers (u.threads t)) := fun u weak hu hdone => by
    obtain ⟨hin, hfree⟩ := ended_eq_none hdone
    obtain ⟨c, hc⟩ := hinv u hu
    obtain ⟨u', hu'⟩ := exists_next weak hc hin (hfresh u)
    refine ⟨u', hu', hkeep u weak u' hu hu', ?_⟩
    rintro rfl
    exact aloneRank_next hc hfree hu'
  obtain ⟨n, s', u, hrun, hI, hend⟩ := runAlone_returns _ hstep weak h
  exact ⟨n, s', hrun, hI, hend⟩

/-- A thread goes on with its operation, or with a new call. -/
inductive Resumed (s : LinkState N V) (t : ℕ) : LinkState N V → Prop
  | same (h : Undeceived s t) : Resumed s t s
  | call {op : Op V} {s' : LinkState N V} (h : s.next (.call t op) = some s') : Resumed s t s'

lemma Resumed.alone (h : Resumed s t s') (hc : LinkInv s c) : AloneInv t s' := by
  cases h with
  | same hun => exact ⟨⟨c, hc⟩, hun⟩
  | @call op _ hs =>
    obtain ⟨c', hc', -, -⟩ := linkInv_step hc (show OneWord s (.call t op) from trivial) hs
    refine ⟨⟨c', hc'⟩, fun x hx => ?_⟩
    simp only [LinkState.next] at hs
    split at hs
    · cases hs
      have hx : x ∈ (op.pc s.head : Pc N V).tests := by simpa using hx
      cases op <;> cases hx
    · cases hs

/-- **An operation that runs alone finishes**: from every state of a run in which the loads of
`try_flag` do not take a flag on another node for one on its target, a call that takes all further
steps, and that will not make this mistake either, returns or waits for the users of the values,
whatever finite pattern of spurious failures it meets, and never stands before a null pointer. -/
theorem list_alone_ends {s₁ : LinkState N V} (fresh : LinkState N V → Option N)
    (hfresh : ∀ s, ∀ n ∈ fresh s, n ∉ s.used) (h₀ : LinkCreated s₀)
    (h : Reach LinkState.next OneWord s₀ s) (hgo : Resumed s t s₁) :
    (∀ weak, ∃ n s₂,
      (∀ fuel ≥ n, runAlone (aloneStep fresh t) (ended t) fuel weak s₁ = some (s₂, ())) ∧
      ((s₂.threads t).outside = true ∨ (s₂.threads t).waits s₂.readers = true)) ∧
    ∀ s₂, Reach LinkState.next (fun _ a => ∃ weak fresh, a = .step t weak fresh) s₁ s₂ →
      (s₂.threads t).pc ≠ .null := by
  obtain ⟨⟨c, hI⟩, -⟩ := linkInv_reach (created_linkInv h₀) h
  have halone := hgo.alone hI
  refine ⟨fun weak => ?_, fun s₂ hr => ?_⟩
  · obtain ⟨n, s₂, hrun, -, hend⟩ := alone_ends hfresh (fun _ hu => hu.1)
      (fun _ _ _ hu => hu.step) halone weak
    refine ⟨n, s₂, hrun, ?_⟩
    by_contra hno
    simp [ended, hno] at hend
  · have hall := hr.inv (I := AloneInv t) halone fun u l v hu hl hn => by
      obtain ⟨weak, fresh, rfl⟩ := hl
      exact hu.step hn
    obtain ⟨⟨c', hc'⟩, -⟩ := hall
    intro hnull
    have hpc := (hc'.threads t).pc
    rw [hnull] at hpc
    exact hpc

/-- A number above those in use. -/
def freshNumber (s : LinkState ℕ ℕ) : Option ℕ := some (s.used.sum + 1)

lemma freshNumber_new (s : LinkState ℕ ℕ) : ∀ n ∈ freshNumber s, n ∉ s.used := by
  intro n hn hmem
  have hle := List.single_le_sum (fun _ _ => Nat.zero_le _) n hmem
  obtain rfl : s.used.sum + 1 = n := by simpa [freshNumber] using hn
  omega

/-- Keys 10 and 5 are being deleted, the nodes being neighbours: 10 is marked but still linked,
and 5 is flagged but not marked. A call that inserts 7 between them goes on alone. -/
theorem list_alone_ends_two : ∃ s s₁ : LinkState ℕ ℕ,
    Reach LinkState.next OneWord (LinkState.new 0 1) s ∧
    (s.node 0).succ = getFlaggedRef (some 3) ∧ (s.node 3).succ = getFlaggedRef (some 2) ∧
    (s.node 2).succ = getMarkedRef (some 1) ∧ s.next (.call 3 (.insert 7 0)) = some s₁ ∧
    ∃ n s₂, ∀ fuel ≥ n,
      runAlone (aloneStep freshNumber 3) (ended 3) fuel [] s₁ = some (s₂, ()) := by
  obtain ⟨s, hs, hp⟩ := exists_reach LinkState.next OneWord (LinkState.new 0 1 : LinkState ℕ ℕ)
    (fun s => decide ((s.node 0).succ = getFlaggedRef (some 3)) &&
      decide ((s.node 3).succ = getFlaggedRef (some 2)) &&
      decide ((s.node 2).succ = getMarkedRef (some 1)) &&
      (s.next (.call 3 (.insert 7 0))).isSome)
    (linkInsert 0 10 2 ++ linkInsert 0 5 3 ++ [.call 1 (.delete 10 false)] ++ linkSteps 1 12 ++
      [.call 2 (.delete 5 false)] ++ linkSteps 2 17)
    (by decide +kernel)
  simp only [Bool.and_eq_true, decide_eq_true_eq] at hp
  obtain ⟨⟨⟨h0, h3⟩, h2⟩, hcall⟩ := hp
  obtain ⟨s₁, hs₁⟩ := Option.isSome_iff_exists.mp hcall
  obtain ⟨n, s₂, hrun, -⟩ := (list_alone_ends freshNumber freshNumber_new
    (new_created (by decide)) hs (.call hs₁)).1 []
  exact ⟨s, s₁, hs, h0, h3, h2, hs₁, n, s₂, hrun⟩

/-! ### A search that goes round in circles -/

/-- Whether a search stands in its inner loop between two nodes. -/
def SearchPc.Inner (curr next : N) : SearchPc N → Prop
  | .nextMarked c n | .currMarked c n | .agrees c n | .helpMarked c n _ => c = curr ∧ n = next
  | .reload c => c = curr
  | _ => False

/-- A search stands in its inner loop between an unmarked node and a marked one behind it that
nothing is flagged on. -/
structure Spins (t : ℕ) (ctx : Ctx N V) (key : ℤ) (curr next : N) (s : LinkState N V) : Prop where
  word : (s.node curr).succ = getUnmarkedRef (some next)
  marked : (s.node next).succ.marked = true
  thread : ∃ pc, s.threads t = ⟨[], .searchFrom ctx key pc⟩ ∧ pc.Inner curr next

/-- `help_marked` has no flag to take away, and the search reads the same pointer again. -/
lemma Spins.step {ctx : Ctx N V} {key : ℤ} {curr next : N} {weak : Bool} {fresh : Option N}
    (h : Spins t ctx key curr next s) (hs : s.next (.step t weak fresh) = some s') :
    Spins t ctx key curr next s' := by
  obtain ⟨hcurr, hnext, pc, hth, hpc⟩ := h
  obtain ⟨cmd, hcmd, hnode, -, -, hth'⟩ := next_step hs
  rw [hth] at hcmd
  have hgo : ∀ pc' : SearchPc N, (s.exec weak fresh cmd).1 = s →
      (s.exec weak fresh cmd).2 = ⟨[], .searchFrom ctx key pc'⟩ → pc'.Inner curr next →
      Spins t ctx key curr next s' := fun pc' hsame hres hpc' => by
    rw [hsame] at hnode
    refine ⟨by rw [hnode]; exact hcurr, by rw [hnode]; exact hnext, pc', ?_, hpc'⟩
    rw [hth', Function.update_self, hres]
  cases pc with
  | nextMarked c n =>
    obtain ⟨rfl, rfl⟩ := hpc
    cases hcmd
    exact hgo (.currMarked c n) rfl
      (by simp [LinkState.exec, searchFrom, Cmd.map, hnext]) ⟨rfl, rfl⟩
  | currMarked c n =>
    obtain ⟨rfl, rfl⟩ := hpc
    cases hcmd
    exact hgo (.agrees c n) rfl (by simp [LinkState.exec, searchFrom, Cmd.map, hcurr]) ⟨rfl, rfl⟩
  | agrees c n =>
    obtain ⟨rfl, rfl⟩ := hpc
    cases hcmd
    exact hgo (.helpMarked c n .load) rfl
      (by simp [LinkState.exec, searchFrom, Cmd.map, hcurr, isNode_self]) ⟨rfl, rfl⟩
  | helpMarked c n pc' =>
    obtain ⟨rfl, rfl⟩ := hpc
    cases pc' with
    | load =>
      cases hcmd
      exact hgo (.helpMarked c n (.cas _)) rfl rfl ⟨rfl, rfl⟩
    | cas m =>
      cases hcmd
      have hno : (s.node c).succ ≠ getFlaggedRef (some n) := by
        simp [hcurr, getUnmarkedRef, getFlaggedRef]
      refine hgo (.reload c) ?_ ?_ rfl <;>
        simp [LinkState.exec, LinkState.casOk, searchFrom, helpMarked, Cmd.map, hno]
  | reload c =>
    obtain rfl := hpc
    cases hcmd
    exact hgo (.nextMarked c next) rfl
      (by simp [LinkState.exec, searchFrom, Cmd.map, hcurr, SearchRes.follow]) ⟨rfl, rfl⟩
  | _ => exact hpc.elim

omit [DecidableEq N] in
lemma Spins.ended {ctx : Ctx N V} {key : ℤ} {curr next : N} (h : Spins t ctx key curr next s) :
    ended t s = none := by
  obtain ⟨pc, hth, -⟩ := h.thread
  simp [LockFreeList.ended, hth, Thread.outside, Thread.waits]

/-- After the run of `try_flag_deceived`, a search for 10 that takes all further steps never
ends. -/
theorem alone_search_spins : ¬ ∀ (s s₁ : LinkState ℕ ℕ) (t : ℕ),
    Reach LinkState.next (fun _ _ => True) (LinkState.new 0 1) s → Resumed s t s₁ →
    ∃ n s₂, ∀ fuel ≥ n,
      runAlone (aloneStep freshNumber t) (ended t) fuel [] s₁ = some (s₂, ()) := by
  intro hall
  obtain ⟨s, hs, hp⟩ := exists_reach LinkState.next (fun _ _ => True)
    (LinkState.new 0 1 : LinkState ℕ ℕ)
    (fun s => decide ((s.node 3).succ = getUnmarkedRef (some 2)) &&
      decide ((s.node 2).succ.marked = true) &&
      decide (s.threads 4 = ⟨[], .searchFrom (.search false) 10 (.nextMarked 3 2)⟩))
    (linkInsert 0 10 2 ++ [.call 1 (.delete 10 false)] ++ linkSteps 1 4 ++ linkInsert 2 5 3 ++
      linkSteps 1 1 ++ [.call 3 (.delete 5 false)] ++ linkSteps 3 7 ++ linkSteps 1 5 ++
      [.call 4 (.search 10 false)] ++ linkSteps 4 6)
    (by decide +kernel)
  simp only [Bool.and_eq_true, decide_eq_true_eq] at hp
  obtain ⟨⟨hword, hmark⟩, hth⟩ := hp
  have hspin : Spins 4 (.search false) 10 3 2 s := ⟨hword, hmark, _, hth, rfl, rfl⟩
  have hun : Undeceived s 4 := fun x hx => by
    rw [hth] at hx
    cases hx
  obtain ⟨n, s₂, hrun⟩ := hall s s 4 hs (.same hun)
  have hnever : runAlone (aloneStep freshNumber 4) (ended 4) n [] s = none :=
    runAlone_diverges (I := Spins 4 (.search false) 10 3 2) (fun _ => Spins.ended)
      (fun _ _ _ h hs => h.step hs) hspin n []
  rw [hrun n le_rfl] at hnever
  cases hnever

end CoopTasks.LockFreeList
