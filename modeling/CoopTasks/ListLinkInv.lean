import CoopTasks.ListLink

/-!
What every thread of a list knows while it works, when no node is given back.

A thread holds a node from `list_alloc_node` until it is linked; of all others it only knows
that they are linked and how their keys compare. `Outcome` says what one access of a thread does.
-/

namespace CoopTasks.LockFreeList

variable {N V : Type*}

/-! ### Knowledge -/

def HelpMarkedOk (mem : N → Node N V) (del : N) : HelpMarkedPc N → Prop
  | .load => (mem del).succ.marked = true
  | .cas next => (mem del).succ.marked = true ∧ next = (mem del).succ.node

def HelpFlaggedOk (mem : N → Node N V) (linked : List N) (del : N) : HelpFlaggedPc N → Prop
  | .backlink => True
  | .test | .tryMark _ => Back mem linked del
  | .helpMarked pc => HelpMarkedOk mem del pc

/-- A call of `help_flagged` is about a node that is marked or has its predecessor flagged. -/
structure HelpOk (mem : N → Node N V) (linked : List N) (f : HelpFlagged N) : Prop where
  prev : f.prev ∈ linked
  del : f.del ∈ linked
  key : (mem f.prev).key < (mem f.del).key
  flagged : (mem f.del).succ.marked = true ∨ (mem f.prev).succ = getFlaggedRef (some f.del)
  pc : HelpFlaggedOk mem linked f.del f.pc

/-- A linked node at or before a key. -/
def Before (mem : N → Node N V) (linked : List N) (key : ℤ) (n : N) : Prop :=
  n ∈ linked ∧ (mem n).key ≤ key

def SearchOk (mem : N → Node N V) (linked : List N) (key : ℤ) : SearchPc N → Prop
  | .load curr | .reload curr => Before mem linked key curr
  | .testKey curr next | .nextMarked curr next | .advance curr next =>
    Before mem linked key curr ∧ next ∈ linked
  | .currMarked curr next | .differs curr next | .agrees curr next =>
    Before mem linked key curr ∧ next ∈ linked ∧ (mem next).succ.marked = true
  | .helpMarked curr next pc =>
    Before mem linked key curr ∧ next ∈ linked ∧ HelpMarkedOk mem next pc

/-- A node that was allocated and is not linked yet. -/
def Fresh (linked used : List N) (n : N) : Prop := n ∈ used ∧ n ∉ linked

/-- A linked node after a key. -/
def After (mem : N → Node N V) (linked : List N) (key : ℤ) (n : N) : Prop :=
  n ∈ linked ∧ key < (mem n).key

def CtxOk (mem : N → Node N V) (linked used : List N) (key : ℤ) : Ctx N V → Prop
  | .insertFirst _ => intptrMin < key
  | .insertAgain _ node => intptrMin < key ∧ Fresh linked used node ∧ (mem node).key = key
  | .delete _ => key + 1 < intptrMax
  | .tryFlag k _ target => key = k - 1 ∧ After mem linked key target ∧ (mem target).key = k ∧
      k < intptrMax
  | .search _ | .update _ => True

def InsertOk (mem : N → Node N V) (linked used : List N) (key : ℤ) : InsertPc N → Prop
  | .checkFirst prev next => Before mem linked key prev ∧ After mem linked key next
  | .alloc prev next => Before mem linked (key - 1) prev ∧ After mem linked key next
  | .initSucc prev next node | .initBacklink prev next node | .initKey prev next node =>
    Before mem linked (key - 1) prev ∧ After mem linked key next ∧ Fresh linked used node
  | .initVal prev next node | .load prev next node | .store prev next node =>
    Before mem linked (key - 1) prev ∧ After mem linked key next ∧ Fresh linked used node ∧
      (mem node).key = key
  | .cas prev next node =>
    Before mem linked (key - 1) prev ∧ After mem linked key next ∧ Fresh linked used node ∧
      (mem node).key = key ∧ (mem node).succ = getUnmarkedRef (some next)
  | .result prev node | .marked prev node =>
    Before mem linked (key - 1) prev ∧ Fresh linked used node ∧ (mem node).key = key
  | .backlink prev node =>
    Before mem linked (key - 1) prev ∧ Fresh linked used node ∧ (mem node).key = key ∧
      (mem prev).succ.marked = true
  | .checkAgain prev next node =>
    Before mem linked key prev ∧ After mem linked key next ∧ Fresh linked used node ∧
      (mem node).key = key
  | .free node => Fresh linked used node

/-- What a thread knows below its calls of `help_flagged`. -/
def PcOk (mem : N → Node N V) (linked used : List N) : Pc N V → Prop
  | .idle | .returned _ => True
  | .null => False
  | .searchFrom ctx key pc => intptrMin ≤ key ∧ key < intptrMax ∧ SearchOk mem linked key pc ∧
      CtxOk mem linked used key ctx
  | .insert key _ pc => intptrMin < key ∧ key < intptrMax ∧ InsertOk mem linked used key pc
  | .tryFlag key _ prev target pc => intptrMin < key ∧ key < intptrMax ∧
      Before mem linked (key - 1) prev ∧ target ∈ linked ∧ (mem target).key = key ∧
      (pc = .backlink → (mem prev).succ.marked = true)
  | .delete key _ del (.check prev) => intptrMin < key ∧ key < intptrMax ∧
      Before mem linked (key - 1) prev ∧ del ∈ linked
  | .delete _ _ _ _ | .searchCheck _ _ _ | .searchRead _ _ _ => True
  | .updateCheck _ _ curr => curr ∈ linked
  | .updateWrite _ _ target _ => target ∈ linked

/-- The node a thread holds. -/
def Pc.holds : Pc N V → Option N
  | .searchFrom (.insertAgain _ node) _ _ => some node
  | .insert _ _ pc =>
    match pc with
    | .checkFirst _ _ | .alloc _ _ => none
    | .initSucc _ _ node | .initBacklink _ _ node | .initKey _ _ node | .initVal _ _ node
    | .load _ _ node | .store _ _ node | .cas _ _ node | .result _ node | .marked _ node
    | .backlink _ node | .checkAgain _ _ node | .free node => some node
  | _ => none

structure ThreadOk (mem : N → Node N V) (linked used : List N) (th : Thread N V) : Prop where
  helps : ∀ f ∈ th.helps, HelpOk mem linked f
  pc : PcOk mem linked used th.pc

variable {mem mem' : N → Node N V} {linked linked' used used' : List N} {n : N} {key : ℤ}
  {th : Thread N V}

/-! ### Knowledge is kept -/

section Evolves

variable (hev : Evolves mem linked mem' linked')
include hev

lemma Before.evolves (h : Before mem linked key n) : Before mem' linked' key n :=
  ⟨hev.grows n h.1, by rw [hev.key n h.1]; exact h.2⟩

lemma After.evolves (h : After mem linked key n) : After mem' linked' key n :=
  ⟨hev.grows n h.1, by rw [hev.key n h.1]; exact h.2⟩

lemma Evolves.marked (hn : n ∈ linked) (h : (mem n).succ.marked = true) :
    (mem' n).succ.marked = true := by
  rw [hev.frozen n hn h]
  exact h

lemma HelpMarkedOk.evolves {pc : HelpMarkedPc N} (hn : n ∈ linked) (h : HelpMarkedOk mem n pc) :
    HelpMarkedOk mem' n pc := by
  cases pc with
  | load => exact hev.marked hn h
  | cas next => exact ⟨hev.marked hn h.1, by rw [hev.frozen n hn h.1]; exact h.2⟩

lemma HelpOk.evolves {f : HelpFlagged N} (h : HelpOk mem linked f) : HelpOk mem' linked' f where
  prev := hev.grows _ h.prev
  del := hev.grows _ h.del
  key := by
    rw [hev.key _ h.prev, hev.key _ h.del]
    exact h.key
  flagged := by
    rcases h.flagged with hm | hf
    · exact .inl (hev.marked h.del hm)
    · exact (hev.flagged _ h.prev _ h.del hf).symm
  pc := by
    have hpc := h.pc
    revert hpc
    cases f.pc with
    | backlink => exact id
    | test => exact hev.back _ h.del
    | tryMark pc => exact hev.back _ h.del
    | helpMarked pc => exact .evolves hev h.del

lemma SearchOk.evolves {pc : SearchPc N} (h : SearchOk mem linked key pc) :
    SearchOk mem' linked' key pc := by
  cases pc with
  | load | reload => exact Before.evolves hev h
  | helpMarked =>
    exact ⟨h.1.evolves hev, hev.grows _ h.2.1, h.2.2.evolves hev h.2.1⟩
  | currMarked | differs | agrees =>
    exact ⟨h.1.evolves hev, hev.grows _ h.2.1, hev.marked h.2.1 h.2.2⟩
  | testKey | nextMarked | advance => exact ⟨h.1.evolves hev, hev.grows _ h.2⟩

variable (hused : ∀ n ∈ used, n ∈ used')
include hused

lemma CtxOk.evolves {ctx : Ctx N V} (h : CtxOk mem linked used key ctx)
    (hx : ∀ val node, ctx = .insertAgain val node → mem' node = mem node ∧ node ∉ linked') :
    CtxOk mem' linked' used' key ctx := by
  cases ctx with
  | insertAgain val node =>
    obtain ⟨hk, hf, hn⟩ := h
    obtain ⟨hsame, hnew⟩ := hx val node rfl
    exact ⟨hk, ⟨hused _ hf.1, hnew⟩, by rw [hsame]; exact hn⟩
  | tryFlag k val target =>
    obtain ⟨hk, ht, hn, hmax⟩ := h
    exact ⟨hk, ht.evolves hev, by rw [hev.key _ ht.1]; exact hn, hmax⟩
  | _ => exact h

lemma InsertOk.evolves {val : V} {pc : InsertPc N} (h : InsertOk mem linked used key pc)
    (hx : ∀ x, (Pc.insert key val pc).holds = some x → mem' x = mem x ∧ x ∉ linked') :
    InsertOk mem' linked' used' key pc := by
  have hfresh : ∀ {x}, (Pc.insert key val pc).holds = some x → Fresh linked used x →
      Fresh linked' used' x := fun h hf => ⟨hused _ hf.1, (hx _ h).2⟩
  cases pc with
  | checkFirst prev next => exact ⟨h.1.evolves hev, h.2.evolves hev⟩
  | alloc prev next => exact ⟨h.1.evolves hev, h.2.evolves hev⟩
  | initSucc prev next node | initBacklink prev next node | initKey prev next node =>
    exact ⟨h.1.evolves hev, h.2.1.evolves hev, hfresh rfl h.2.2⟩
  | initVal prev next node | load prev next node | store prev next node
  | checkAgain prev next node =>
    exact ⟨h.1.evolves hev, h.2.1.evolves hev, hfresh rfl h.2.2.1,
      by rw [(hx node rfl).1]; exact h.2.2.2⟩
  | cas prev next node =>
    exact ⟨h.1.evolves hev, h.2.1.evolves hev, hfresh rfl h.2.2.1,
      by rw [(hx node rfl).1]; exact h.2.2.2⟩
  | result prev node | marked prev node =>
    exact ⟨h.1.evolves hev, hfresh rfl h.2.1, by rw [(hx node rfl).1]; exact h.2.2⟩
  | backlink prev node =>
    exact ⟨h.1.evolves hev, hfresh rfl h.2.1, by rw [(hx node rfl).1]; exact h.2.2.1,
      hev.marked h.1.1 h.2.2.2⟩
  | free node => exact hfresh rfl h

lemma PcOk.evolves {pc : Pc N V} (h : PcOk mem linked used pc)
    (hx : ∀ x, pc.holds = some x → mem' x = mem x ∧ x ∉ linked') : PcOk mem' linked' used' pc := by
  cases pc with
  | searchFrom ctx key pc =>
    obtain ⟨hlow, hhigh, hs, hc⟩ := h
    refine ⟨hlow, hhigh, hs.evolves hev, hc.evolves hev hused fun val node heq => ?_⟩
    subst heq
    exact hx node rfl
  | insert key val pc => exact ⟨h.1, h.2.1, h.2.2.evolves hev hused hx⟩
  | tryFlag key val prev target pc =>
    obtain ⟨hlow, hhigh, hp, ht, hk, hm⟩ := h
    exact ⟨hlow, hhigh, hp.evolves hev, hev.grows _ ht, by rw [hev.key _ ht]; exact hk,
      fun heq => hev.marked hp.1 (hm heq)⟩
  | delete key val del pc =>
    cases pc with
    | check prev => exact ⟨h.1, h.2.1, h.2.2.1.evolves hev, hev.grows _ h.2.2.2⟩
    | read | free => trivial
  | updateCheck | updateWrite => exact hev.grows _ h
  | null => exact h
  | idle | returned | searchCheck | searchRead => trivial

lemma ThreadOk.evolves (h : ThreadOk mem linked used th)
    (hx : ∀ x, th.pc.holds = some x → mem' x = mem x ∧ x ∉ linked') :
    ThreadOk mem' linked' used' th :=
  ⟨fun f hf => (h.helps f hf).evolves hev, h.pc.evolves hev hused hx⟩

end Evolves

/-! ### One access -/

variable [DecidableEq N]

/-- An access of a thread makes a move, touches no node outside the list but the one the thread
holds, and leaves the thread with what it knows at its next place. -/
structure Outcome (s : LinkState N V) (th : Thread N V) (e : Effect N) (s' : LinkState N V)
    (th' : Thread N V) : Prop where
  move : Move s.node s.linked e s'.node
  frame : ∀ n, n ∉ s.linked → th.pc.holds ≠ some n → s'.node n = s.node n
  plain : ∀ n, n ∉ s.linked → (s.node n).succ.flagged = false → (s'.node n).succ.flagged = false
  used : ∀ n ∈ s.used, n ∈ s'.used
  holds : ∀ n, th'.pc.holds = some n → th.pc.holds = some n ∨ n ∉ s.used
  linked : ∀ n, e = .linked n → th.pc.holds = some n
  ok : ThreadOk s'.node (e.link s.linked) s'.used th'

variable {s s' : LinkState N V} {e : Effect N} {th' : Thread N V} {c : List N}

/-- Whatever one access of a thread finds, its outcome is as it should be. -/
def Leads (s : LinkState N V) (th : Thread N V) (cmd : Cmd N V (Thread N V)) : Prop :=
  ∀ weak fresh, (∀ n ∈ fresh, n ∉ s.used) →
    Outcome s th (bif s.casOk weak cmd then th.effect else .none) (s.exec weak fresh cmd).1
      (s.exec weak fresh cmd).2

/-- A thread goes on with what it knows in the same state. -/
structure Quiet (s : LinkState N V) (th th' : Thread N V) : Prop where
  holds : ∀ n, th'.pc.holds = some n → th.pc.holds = some n
  ok : ThreadOk s.node s.linked s.used th'

omit [DecidableEq N] in
lemma PcOk.holds_fresh {pc : Pc N V} (h : PcOk mem linked used pc) (hx : pc.holds = some n) :
    Fresh linked used n := by
  cases pc with
  | searchFrom ctx key pc =>
    cases ctx with
    | insertAgain val node =>
      obtain rfl : node = n := by simpa [Pc.holds] using hx
      exact h.2.2.2.2.1
    | _ => simp [Pc.holds] at hx
  | insert key val pc =>
    have hok := h.2.2
    cases pc <;> simp only [Pc.holds, Option.some.injEq, reduceCtorEq] at hx <;> subst hx
    case initSucc | initBacklink | initKey => exact hok.2.2
    case initVal | load | store | cas | checkAgain => exact hok.2.2.1
    case result | marked | backlink => exact hok.2.1
    case free => exact hok
  | _ => simp [Pc.holds] at hx

lemma Quiet.outcome (h : Quiet s th th') (hnode : s'.node = s.node) (hused : s'.used = s.used) :
    Outcome s th .none s' th' where
  move := by
    rw [hnode]
    exact .outside fun _ _ => ⟨rfl, rfl, rfl⟩
  frame _ _ _ := by rw [hnode]
  plain _ _ hf := by rw [hnode]; exact hf
  used _ hn := by rw [hused]; exact hn
  holds n hn := .inl (h.holds n hn)
  linked _ he := by cases he
  ok := by
    rw [hnode, hused]
    exact h.ok

lemma leads_load {n : N} {k : Ref N → Thread N V} (h : Quiet s th (k (s.node n).succ)) :
    Leads s th (.load n k) := fun _ _ _ => h.outcome rfl rfl

lemma leads_loadKey {n : N} {k : ℤ → Thread N V} (h : Quiet s th (k (s.node n).key)) :
    Leads s th (.loadKey n k) := fun _ _ _ => h.outcome rfl rfl

lemma leads_loadBacklink {n : N} {k : Option N → Thread N V}
    (h : Quiet s th (k (s.node n).backlink)) : Leads s th (.loadBacklink n k) :=
  fun _ _ _ => h.outcome rfl rfl

lemma leads_loadVal {n : N} {k : Option V → Thread N V} (h : ∀ v, Quiet s th (k v)) :
    Leads s th (.loadVal n k) := fun _ _ _ => (h _).outcome rfl rfl

lemma leads_free {n : N} {k : Thread N V} (h : Quiet s th k) : Leads s th (.free n k) :=
  fun _ _ _ => h.outcome rfl rfl

lemma leads_loadReaders {k : ℕ → Thread N V} (h : ∀ r, Quiet s th (k r)) :
    Leads s th (.loadReaders k) := fun _ _ _ => (h _).outcome rfl rfl

lemma leads_casReaders {exp new : ℕ} {k : Bool → Thread N V} (h : ∀ ok, Quiet s th (k ok)) :
    Leads s th (.casReaders exp new k) := fun weak fresh _ => by
  cases hok : !weak && decide (s.readers = exp) <;>
    simp only [LinkState.exec, LinkState.casOk, hok, cond_false] <;> exact (h _).outcome rfl rfl

lemma leads_subReaders {k : Thread N V} (h : Quiet s th k) : Leads s th (.subReaders k) :=
  fun _ _ _ => h.outcome rfl rfl

lemma leads_initReaders {k : Thread N V} (h : Quiet s th k) : Leads s th (.initReaders k) :=
  fun _ _ _ => h.outcome rfl rfl

lemma outcome_linked (hc : Chained s.node s.linked s.head s.tail c) (hw : Won s.node s.linked s.won)
    (hpc : PcOk s.node s.linked s.used th.pc) (hmv : Move s.node s.linked e s'.node)
    (hused : s'.used = s.used) (hframe : ∀ n, n ∉ s.linked → s'.node n = s.node n)
    (hlinked : ∀ n, e = .linked n → th.pc.holds = some n ∧ th'.pc.holds = none)
    (hholds : ∀ n, th'.pc.holds = some n → th.pc.holds = some n)
    (h : Evolves s.node s.linked s'.node (e.link s.linked) →
      (∀ x, th'.pc.holds = some x → s'.node x = s.node x ∧ x ∉ e.link s.linked) →
      ThreadOk s'.node (e.link s.linked) s.used th') : Outcome s th e s' th' where
  move := hmv
  frame n hn _ := hframe n hn
  plain n hn hf := by rw [hframe n hn]; exact hf
  used n hn := by rw [hused]; exact hn
  holds n hn := .inl (hholds n hn)
  linked n hn := (hlinked n hn).1
  ok := by
    obtain ⟨c', -, -, hev⟩ := hc.move hw hmv
    rw [hused]
    refine h hev fun x hx => ?_
    have hnew := (hpc.holds_fresh (hholds x hx)).2
    refine ⟨hframe x hnew, ?_⟩
    cases e with
    | linked n => simp [(hlinked n rfl).2] at hx
    | _ => exact hnew

lemma leads_cas (hc : Chained s.node s.linked s.head s.tail c) (hw : Won s.node s.linked s.won)
    (hpc : PcOk s.node s.linked s.used th.pc) {n : N} {exp new : Ref N} {k : Bool → Thread N V}
    (hn : n ∈ s.linked)
    (hmv : (s.node n).succ = exp → Move s.node s.linked th.effect (setSucc s.node n new))
    (hlinked : ∀ n, th.effect = .linked n → th.pc.holds = some n ∧ (k true).pc.holds = none)
    (hholds : ∀ n, (k true).pc.holds = some n → th.pc.holds = some n)
    (h : (s.node n).succ = exp →
      Evolves s.node s.linked (setSucc s.node n new) (th.effect.link s.linked) →
      (∀ x, (k true).pc.holds = some x →
        setSucc s.node n new x = s.node x ∧ x ∉ th.effect.link s.linked) →
      ThreadOk (setSucc s.node n new) (th.effect.link s.linked) s.used (k true))
    (hfail : Quiet s th (k false)) : Leads s th (.cas n exp new k) := fun weak fresh _ => by
  cases hok : s.casOk weak (.cas n exp new k) with
  | false =>
    simp only [LinkState.exec, hok, cond_false]
    exact hfail.outcome rfl rfl
  | true =>
    have hexp : (s.node n).succ = exp := by
      simp only [LinkState.casOk, Bool.and_eq_true, decide_eq_true_eq] at hok
      exact hok.2
    simp only [LinkState.exec, hok, cond_true]
    refine outcome_linked hc hw hpc (hmv hexp) rfl (fun m hm => setSucc_ne ?_) hlinked hholds
      (h hexp)
    rintro rfl
    exact hm hn

lemma outcome_held {x : N} {y : Node N V} (hpc : PcOk s.node s.linked s.used th.pc)
    (hx : th.pc.holds = some x) (hx' : th'.pc.holds = some x)
    (hnode : s'.node = Function.update s.node x y) (hused : s'.used = s.used)
    (hy : (s.node x).succ.flagged = false → y.succ.flagged = false)
    (h : Evolves s.node s.linked (Function.update s.node x y) s.linked →
      ThreadOk (Function.update s.node x y) s.linked s.used th') : Outcome s th .none s' th' := by
  have hnew := (hpc.holds_fresh hx).2
  have hne : ∀ n ∈ s.linked, n ≠ x := fun n hn heq => hnew (heq ▸ hn)
  constructor
  · refine .outside fun n hn => ?_
    simp [hnode, hne n hn]
  · intro n hn hh
    have hnx : n ≠ x := by rintro rfl; exact hh hx
    simp [hnode, hnx]
  · intro n hn hf
    by_cases hnx : n = x
    · subst hnx
      simpa [hnode] using hy hf
    · simpa [hnode, hnx] using hf
  · intro n hn
    rw [hused]
    exact hn
  · intro n hn
    exact .inl (by rw [hx, ← hx', hn])
  · intro n hn
    cases hn
  · rw [hnode, hused]
    refine h (evolves_outside fun n hn => ?_)
    have hsame : Function.update s.node x y n = s.node n := Function.update_of_ne (hne n hn) ..
    refine ⟨by rw [hsame], by rw [hsame],
      fun hb => hb.grow hn (fun m hm => ⟨hm, ?_⟩) (by rw [hsame])⟩
    rw [Function.update_of_ne (hne m hm)]

end CoopTasks.LockFreeList
