import CoopTasks.ListMoments

/-!
What each place of each list operation knows about the moments its call has come by.

A call that fails, and a `list_search`, returns what the table could have answered at one of these
moments.
-/

namespace CoopTasks.LockFreeList

open CoopTasks.Machine CoopTasks.Linearize ListMachine

variable {N V : Type*} [DecidableEq N] {s s' : LinkState N V} {a : LinkAct N V} {c : List N}
  {curr next n : N} {key : ℤ} {op : Op V} {r : Res V}
  {recent : List (LinkState N V × LinkAct N V)}

/-- Whether a call that returns this has changed nothing. -/
def Op.keeps : Op V → Res V → Bool
  | .search _ _, _ | _, .fail _ => true
  | _, .ok _ => false

/-- The table could have answered the call at some moment since it was made. -/
def Served (recent : List (LinkState N V × LinkAct N V)) (s : LinkState N V) (op : Op V)
    (r : Res V) : Prop :=
  Was (CouldAnswer op r) recent s

/-! ### Knowledge -/

/-- The neighbours that a key lies between. -/
def Lies (recent : List (LinkState N V × LinkAct N V)) (s : LinkState N V) (key : ℤ)
    (curr : N) : Prop :=
  ∃ next, Sight recent s curr next ∧ (s.node curr).key ≤ key ∧ key < (s.node next).key

def SearchSees (recent : List (LinkState N V × LinkAct N V)) (s : LinkState N V) :
    SearchPc N → Prop
  | .load curr | .reload curr => Met recent s curr
  | .testKey curr next | .nextMarked curr next | .currMarked curr next | .agrees curr next
  | .helpMarked curr next _ => Sight recent s curr next
  | .differs curr next => Sight recent s curr next ∧ (s.node curr).succ.marked = true
  | .advance curr next => Sight recent s curr next ∧ Met recent s next

def Ctx.Sees (recent : List (LinkState N V × LinkAct N V)) (s : LinkState N V) (op : Op V)
    (key : ℤ) : Ctx N V → Prop
  | .insertFirst val | .insertAgain val _ => op = .insert key val
  | .delete val => op = .delete (key + 1) val
  | .tryFlag k val target => op = .delete k val ∧ Was (Chains target) recent s
  | .search val => op = .search key val
  | .update val => op = .update key val

def InsertSees (recent : List (LinkState N V × LinkAct N V)) (s : LinkState N V) (op : Op V) :
    InsertPc N → Prop
  | .checkFirst prev _ | .checkAgain prev _ _ => Met recent s prev
  | .free _ => Served recent s op (.fail (some .eexist))
  | _ => True

/-- A node whose value was taken holds it still. -/
def Took (s : LinkState N V) (d : N) (v : Option V) : Prop :=
  d ∈ s.linked ∧ (s.node d).succ.marked = true ∧ (s.node d).val = v

/-- A linked node with a key. -/
def Keyed (s : LinkState N V) (key : ℤ) (d : N) : Prop := d ∈ s.linked ∧ (s.node d).key = key

def DeleteSees (recent : List (LinkState N V × LinkAct N V)) (s : LinkState N V) (key : ℤ)
    (val : Bool) (d : N) : DeletePc N V → Prop
  | .check prev => Sight recent s prev d ∧ key ≤ (s.node d).key
  | .read pc => Keyed s key d ∧ val = true ∧ ∀ v, pc = .sub v → Took s d v
  | .free v => Keyed s key d ∧ v.isSome = val ∧ ∀ w, v = some w → Took s d w

/-- What a place of a call of `op` knows. -/
def Pc.Sees (recent : List (LinkState N V × LinkAct N V)) (s : LinkState N V) (op : Op V) :
    Pc N V → Prop
  | .idle | .returned _ | .null => True
  | .searchFrom ctx key pc => SearchSees recent s pc ∧ ctx.Sees recent s op key
  | .insert key val pc => op = .insert key val ∧ InsertSees recent s op pc
  | .tryFlag key val prev target pc => op = .delete key val ∧ Was (Chains target) recent s ∧
      (pc = .key → Met recent s prev)
  | .delete key val d pc => op = .delete key val ∧ DeleteSees recent s key val d pc
  | .searchCheck key val curr => op = .search key val ∧ Lies recent s key curr
  | .searchRead key _ pc => op = .search key true ∧ ∀ v, pc = .sub v →
      Served recent s op (.ok (some v))
  | .updateCheck key val curr => op = .update key val ∧ Lies recent s key curr
  | .updateWrite key val _ _ => op = .update key val

/-- A `list_delete` that fails when its calls of `help_flagged` have returned. -/
structure Loses (recent : List (LinkState N V × LinkAct N V)) (s : LinkState N V) (op : Op V)
    (d : N) (r : Res V) : Prop where
  fails : r = .fail none
  chains : Was (Chains d) recent s
  call : ∃ val, op = .delete (s.node d).key val

structure Thread.Sees (recent : List (LinkState N V × LinkAct N V)) (s : LinkState N V)
    (op : Op V) (th : Thread N V) : Prop where
  pc : th.pc.Sees recent s op
  returned : ∀ r, th.helps = [] → th.pc = .returned r → op.keeps r = true →
    Served recent s op r
  loses : ∀ r, th.pc = .returned r → ∀ f ∈ th.helps.getLast?, Loses recent s op f.del r

/-! ### Knowledge is kept -/

section Cons

variable (hseg : Segment recent s) (htrail : Trail recent s)
  (hev : Evolves s.node s.linked s'.node s'.linked)
include hseg htrail hev

lemma Lies.cons (h : Lies recent s key curr) : Lies ((s, a) :: recent) s' key curr := by
  obtain ⟨next, hsight, hlow, hhigh⟩ := h
  refine ⟨next, hsight.cons hseg htrail hev, ?_, ?_⟩
  · rw [hev.key curr (hseg.linked curr hsight.met)]
    exact hlow
  · rw [hev.key next (htrail.linked next hsight.chains)]
    exact hhigh

lemma SearchSees.cons {pc : SearchPc N} (h : SearchSees recent s pc) :
    SearchSees ((s, a) :: recent) s' pc := by
  cases pc with
  | load | reload => exact Met.cons h
  | testKey | nextMarked | currMarked | agrees | helpMarked => exact Sight.cons hseg htrail hev h
  | differs curr next =>
    exact ⟨h.1.cons hseg htrail hev, hev.marked (hseg.linked curr h.1.met) h.2⟩
  | advance => exact ⟨h.1.cons hseg htrail hev, h.2.cons⟩

omit hseg htrail [DecidableEq N] in
lemma Took.cons {d : N} {v : Option V} (hval : ∀ n ∈ s.linked, (s.node n).succ.marked = true →
    (s'.node n).val = (s.node n).val) (h : Took s d v) : Took s' d v :=
  ⟨hev.grows d h.1, hev.marked h.1 h.2.1, (hval d h.1 h.2.1).trans h.2.2⟩

omit hseg htrail [DecidableEq N] in
lemma Keyed.cons {d : N} (h : Keyed s key d) : Keyed s' key d :=
  ⟨hev.grows d h.1, (hev.key d h.1).trans h.2⟩

omit hseg in
lemma Loses.cons {d : N} (h : Loses recent s op d r) : Loses ((s, a) :: recent) s' op d r where
  fails := h.fails
  chains := h.chains.cons
  call := by
    rw [hev.key d (htrail.linked d h.chains)]
    exact h.call

lemma Pc.Sees.cons {pc : Pc N V} (hval : ∀ n ∈ s.linked, (s.node n).succ.marked = true →
    (s'.node n).val = (s.node n).val) (h : pc.Sees recent s op) :
    pc.Sees ((s, a) :: recent) s' op := by
  cases pc with
  | idle | returned | null => trivial
  | searchFrom ctx key pc =>
    refine ⟨h.1.cons hseg htrail hev, ?_⟩
    have hctx := h.2
    cases ctx with
    | tryFlag k val target => exact ⟨hctx.1, hctx.2.cons⟩
    | _ => exact hctx
  | insert key val pc =>
    refine ⟨h.1, ?_⟩
    have hpc := h.2
    cases pc with
    | checkFirst | checkAgain => exact Met.cons hpc
    | free => exact Was.cons hpc
    | _ => trivial
  | tryFlag => exact ⟨h.1, h.2.1.cons, fun hpc => (h.2.2 hpc).cons⟩
  | delete key val d pc =>
    refine ⟨h.1, ?_⟩
    have hpc := h.2
    cases pc with
    | check prev =>
      refine ⟨hpc.1.cons hseg htrail hev, ?_⟩
      rw [hev.key d (htrail.linked d hpc.1.chains)]
      exact hpc.2
    | read pc => exact ⟨hpc.1.cons hev, hpc.2.1, fun v hv => (hpc.2.2 v hv).cons hev hval⟩
    | free v => exact ⟨hpc.1.cons hev, hpc.2.1, fun w hw => (hpc.2.2 w hw).cons hev hval⟩
  | searchCheck => exact ⟨h.1, h.2.cons hseg htrail hev⟩
  | searchRead => exact ⟨h.1, fun v hv => Was.cons (h.2 v hv)⟩
  | updateCheck => exact ⟨h.1, h.2.cons hseg htrail hev⟩
  | updateWrite => exact h

lemma Thread.Sees.cons {th : Thread N V} (hval : ∀ n ∈ s.linked, (s.node n).succ.marked = true →
    (s'.node n).val = (s.node n).val) (h : th.Sees recent s op) :
    th.Sees ((s, a) :: recent) s' op where
  pc := h.pc.cons hseg htrail hev hval
  returned r hhelps hpc hkeeps := Was.cons (h.returned r hhelps hpc hkeeps)
  loses r hpc f hf := (h.loses r hpc f hf).cons htrail hev

end Cons

/-! ### One step -/

variable {th : Thread N V} {cmd : Cmd N V (Thread N V)} {weak : Bool} {fresh : Option N}

lemma sees_plain {helps : List (HelpFlagged N)} {pc : Pc N V} (h : pc.Sees recent s op)
    (hpc : ∀ r, pc ≠ .returned r) : (⟨helps, pc⟩ : Thread N V).Sees recent s op :=
  ⟨h, fun r _ heq => absurd heq (hpc r), fun r heq => absurd heq (hpc r)⟩

lemma sees_returned (h : op.keeps r = true → Served recent s op r) :
    (⟨[], .returned r⟩ : Thread N V).Sees recent s op where
  pc := trivial
  returned r' _ heq hkeeps := by
    obtain rfl : r = r' := by simpa using heq
    exact h hkeeps
  loses r' _ f hf := by cases hf

lemma sees_null : (⟨[], .null⟩ : Thread N V).Sees recent s op := sees_plain trivial (by simp)

/-- The inner nodes of the list hold values. -/
def Valued (s : LinkState N V) : Prop :=
  ∀ n ∈ s.linked, intptrMin < (s.node n).key → (s.node n).key < intptrMax →
    (s.node n).val.isSome = true

section Step

variable (hI : LinkInv s c) (hseg : Segment recent s) (htrail : Trail recent s)

lemma Trail.valued (hvalued : Valued s) (hseg : Segment recent s) (htrail : Trail recent s)
    (hn : Met recent s n) (hlow : intptrMin < (s.node n).key) (hhigh : (s.node n).key < intptrMax) :
    ∃ v, (s.node n).val = some v ∧
      Was (fun u => linkMachine.table u (s.node n).key = some v) recent s := by
  obtain ⟨v, hv⟩ := Option.isSome_iff_exists.mp
    (hvalued n (hseg.linked n hn) hlow hhigh)
  refine ⟨v, hv, ?_⟩
  rw [← hv]
  exact htrail.stored n hn

/-- How a step of `search_from` ends, as far as earlier moments go. -/
def SearchRes.Sees (recent : List (LinkState N V × LinkAct N V)) (s : LinkState N V) (key : ℤ) :
    SearchRes N → Prop
  | .more pc => SearchSees recent s pc
  | .ret curr next => Sight recent s curr next ∧ (s.node curr).key ≤ key ∧
      key < (s.node next).key
  | .null => True

include hI hseg htrail

lemma search_sees {pc : SearchPc N} (hok : SearchOk s.node s.linked key pc)
    (h : SearchSees recent s pc) :
    (s.exec weak fresh (searchFrom (V := V) (· == ·) key pc)).2.Sees recent s key := by
  have hgo : ∀ {curr next}, Met recent s curr → (s.node curr).succ.node = some next →
      Sight recent s curr next := fun hcurr hs => sight_succ hI hseg htrail hcurr hs
  cases pc with
  | load curr =>
    simp only [searchFrom, LinkState.exec]
    cases hs : (s.node curr).succ.node with
    | none => trivial
    | some next => exact hgo h hs
  | testKey curr next =>
    simp only [searchFrom, LinkState.exec]
    split_ifs with hk
    · exact h
    · exact ⟨h, hok.1.2, by omega⟩
  | nextMarked curr next =>
    simp only [searchFrom, LinkState.exec]
    cases hm : (s.node next).succ.marked with
    | true => exact h
    | false => exact ⟨h, .inl (hI.alive_iff.mpr ⟨hok.2, hm⟩)⟩
  | currMarked curr next =>
    simp only [searchFrom, LinkState.exec]
    cases hm : (s.node curr).succ.marked with
    | true => exact ⟨h, hm⟩
    | false => exact h
  | differs curr next =>
    simp only [searchFrom, LinkState.exec]
    cases hn : isNode (· == ·) (s.node curr).succ.node next with
    | false => exact h.1
    | true =>
      have hnext : (s.node curr).succ.node = some next := by
        obtain ⟨x, hx, heq⟩ := (Option.any_eq_true _ _).mp hn
        rw [hx, eq_of_beq heq]
      exact ⟨h.1, hseg.after curr next h.1.met h.2 hnext⟩
  | agrees curr next =>
    simp only [searchFrom, LinkState.exec]
    cases isNode (· == ·) (s.node curr).succ.node next with
    | true => exact h
    | false => exact h.met
  | helpMarked curr next pc =>
    refine (Cmd.all_map.mpr (Cmd.all_of_forall (fun r => ?_) _)).exec weak fresh
    cases r with
    | some pc' => exact h
    | none => exact h.met
  | reload curr =>
    simp only [searchFrom, LinkState.exec]
    cases hs : (s.node curr).succ.node with
    | none => trivial
    | some next => exact hgo h hs
  | advance curr next =>
    simp only [searchFrom, LinkState.exec]
    split_ifs
    · exact h.2
    · exact h.1

omit hseg in
lemma found_sees {ctx : Ctx N V} (hctx : CtxOk s.node s.linked s.used key ctx)
    (h : ctx.Sees recent s op key) (hsight : Sight recent s curr next)
    (hcurr : (s.node curr).key ≤ key) (hnext : key < (s.node next).key) :
    (⟨[], found (· == ·) key curr next ctx⟩ : Thread N V).Sees recent s op := by
  cases ctx with
  | insertFirst val | insertAgain val node => exact sees_plain ⟨h, hsight.met⟩ (by simp [found])
  | delete val =>
    refine sees_plain ⟨h, hsight, ?_⟩ (by simp [found])
    omega
  | tryFlag k val target =>
    obtain ⟨rfl, hchains⟩ := h
    obtain ⟨rfl, -, rfl, -⟩ := hctx
    cases heq : next == target with
    | true =>
      simp only [found, heq, cond_true]
      exact sees_plain ⟨rfl, hchains, by simp⟩ (by simp)
    | false =>
      simp only [found, heq, cond_false]
      refine sees_returned fun _ => ?_
      have hne : next ≠ target := by simpa using heq
      exact (was_table (hsight.lacks_target hI htrail hchains hne (by omega) (by omega))).imp
        fun _ => .missing
  | search val => exact sees_plain ⟨h, next, hsight, hcurr, hnext⟩ (by simp [found])
  | update val => exact sees_plain ⟨h, next, hsight, hcurr, hnext⟩ (by simp [found])

variable (hvalued : Valued s) (hlow : intptrMin < op.key) (hhigh : op.key < intptrMax)
include hvalued hlow hhigh

omit hI in
lemma met_value (hn : Met recent s n) (hk : (s.node n).key = op.key) :
    ∃ v, (s.node n).val = some v ∧ Was (fun u => linkMachine.table u op.key = some v) recent s := by
  rw [← hk] at hlow hhigh ⊢
  exact htrail.valued hvalued hseg hn hlow hhigh

lemma insert_sees {val : V} {pc : InsertPc N}
    (hok : InsertOk s.node s.linked s.used key pc) (hop : op = .insert key val)
    (h : InsertSees recent s op pc) :
    (s.exec weak fresh (listInsert key val pc)).2.Sees recent s op := by
  subst hop
  have hgo : ∀ pc', InsertSees recent s (.insert key val) pc' →
      (⟨[], .insert key val pc'⟩ : Thread N V).Sees recent s (.insert key val) := fun pc' hpc' =>
    sees_plain ⟨rfl, hpc'⟩ (by simp)
  have hexist : ∀ {prev}, Met recent s prev → (s.node prev).key = key →
      Served recent s (.insert key val) (.fail (some .eexist)) := fun hmet hk => by
    obtain ⟨v, -, hv⟩ := met_value hseg htrail hvalued hlow hhigh hmet hk
    exact hv.imp fun _ => .present
  have halive : ∀ {prev}, prev ∈ s.linked → (s.node prev).succ.marked = false →
      Met recent s prev := fun hp hm => .inl (hI.alive_iff.mpr ⟨hp, hm⟩)
  cases pc with
  | checkFirst prev next =>
    simp only [listInsert, LinkState.exec]
    split_ifs with hk
    · exact sees_returned fun _ => hexist h hk
    · exact hgo _ trivial
  | alloc prev next =>
    simp only [listInsert, LinkState.exec]
    cases fresh with
    | none => exact sees_returned fun _ => .inl .room
    | some node => exact hgo _ trivial
  | initSucc | initBacklink | initKey | initVal | store => exact hgo _ trivial
  | load prev next node =>
    simp only [listInsert, LinkState.exec]
    cases hf : (s.node prev).succ.flagged with
    | false => exact hgo _ trivial
    | true =>
      -- a flagged word is not marked
      have hm : (s.node prev).succ.marked = false := by
        by_contra hm
        simp [hI.chained.both prev hok.1.1 (by simpa using hm)] at hf
      cases (s.node prev).succ.node with
      | none => exact sees_null
      | some del => exact sees_plain ⟨halive hok.1.1 hm, rfl⟩ (by simp)
  | cas prev next node =>
    cases hcas : s.casOk weak (listInsert key val (.cas prev next node)) with
    | false =>
      simp only [listInsert] at hcas
      simp only [listInsert, LinkState.exec, hcas, cond_false]
      exact hgo _ trivial
    | true =>
      simp only [listInsert] at hcas
      simp only [listInsert, LinkState.exec, hcas, cond_true]
      exact sees_returned fun hkeeps => by cases hkeeps
  | result prev node =>
    simp only [listInsert, LinkState.exec]
    cases (s.node prev).succ.isFlag with
    | false => exact hgo _ trivial
    | true =>
      cases (s.node prev).succ.node with
      | none => exact sees_null
      | some del => exact sees_plain ⟨rfl, trivial⟩ (by simp)
  | marked prev node =>
    simp only [listInsert, LinkState.exec]
    cases hm : (s.node prev).succ.marked with
    | true => exact hgo _ trivial
    | false => exact sees_plain ⟨halive hok.1.1 hm, rfl⟩ (by simp)
  | backlink prev node =>
    simp only [listInsert, LinkState.exec]
    cases (s.node prev).backlink with
    | none => exact sees_null
    | some prev' => exact hgo _ trivial
  | checkAgain prev next node =>
    simp only [listInsert, LinkState.exec]
    split_ifs with hk
    · exact hgo _ (hexist h hk)
    · exact hgo _ trivial
  | free node => exact sees_returned fun _ => h

end Step

lemma tryFlag_sees (hI : LinkInv s c) {val : Bool} {prev target : N} {pc : TryFlagPc}
    (hprev : prev ∈ s.linked) (htarget : Keyed s key target) (hop : op = .delete key val)
    (hchains : Was (Chains target) recent s) (hmet : pc = .key → Met recent s prev) :
    (s.exec weak fresh (tryFlag (· == ·) key val prev target pc)).2.Sees recent s op := by
  have hgo : ∀ prev' pc', pc' ≠ .key →
      (⟨[], .tryFlag key val prev' target pc'⟩ : Thread N V).Sees recent s op :=
    fun prev' pc' hpc' => sees_plain ⟨hop, hchains, fun heq => absurd heq hpc'⟩ (by simp)
  have hlose : (flagged key val prev target false : Thread N V).Sees recent s op := by
    constructor
    · trivial
    · intro r hhelps
      cases hhelps
    intro r hpc f hf
    obtain rfl : HelpFlagged.call prev target = f := by simpa [flagged] using hf
    obtain rfl : .fail none = r := by simpa [flagged] using hpc
    refine ⟨rfl, hchains, val, ?_⟩
    rw [hop, ← htarget.2]
    rfl
  have hwin : (flagged key val prev target true : Thread N V).Sees recent s op := by
    cases val with
    | true => exact sees_plain ⟨hop, htarget, rfl, fun v hv => by cases hv⟩ (by simp)
    | false => exact sees_plain ⟨hop, htarget, rfl, fun w hw => by cases hw⟩ (by simp)
  have hcond : ∀ (b : Bool) {th th' : Thread N V}, th.Sees recent s op → th'.Sees recent s op →
      (bif b then th else th').Sees recent s op :=
    of_cond (P := fun th : Thread N V => th.Sees recent s op)
  cases pc with
  | testNode | testMarked => exact hcond _ (hgo _ _ (by simp)) (hgo _ _ (by simp))
  | testFlagged | result => exact hcond _ hlose (hgo _ _ (by simp))
  | cas =>
    have hall : (tryFlag (V := V) (· == ·) key val prev target .cas).All fun th =>
        th.Sees recent s op := fun ok => hcond ok hwin (hgo _ _ (by simp))
    exact hall.exec weak fresh
  | marked =>
    simp only [tryFlag, LinkState.exec]
    cases hm : (s.node prev).succ.marked with
    | true => exact hgo _ _ (by simp)
    | false =>
      exact sees_plain ⟨hop, hchains, fun _ => .inl (hI.alive_iff.mpr ⟨hprev, hm⟩)⟩ (by simp)
  | backlink =>
    simp only [tryFlag, LinkState.exec]
    cases (s.node prev).backlink with
    | none => exact sees_null
    | some prev' => exact hgo _ _ (by simp)
  | key =>
    exact sees_plain ⟨hmet rfl, hop, hchains⟩ (by simp)

lemma delete_sees {val : Bool} {d : N} {pc : DeletePc N V}
    (hok : PcOk s.node s.linked s.used (.delete key val d pc : Pc N V))
    (hdel : DeleteOk s.node s.linked (⟨[], .delete key val d pc⟩ : Thread N V))
    (hop : op = .delete key val) (h : DeleteSees recent s key val d pc) :
    (s.exec weak fresh (listDelete key val d pc)).2.Sees recent s op := by
  have hgo : ∀ pc', DeleteSees recent s key val d pc' →
      (⟨[], .delete key val d pc'⟩ : Thread N V).Sees recent s op := fun pc' hpc' =>
    sees_plain ⟨hop, hpc'⟩ (by simp)
  cases pc with
  | check prev =>
    obtain ⟨-, -, hprev, -⟩ := hok
    obtain ⟨hsight, hle⟩ := h
    simp only [listDelete, LinkState.exec]
    split_ifs with hk
    · exact sees_plain ⟨hop, hsight.chains, by simp⟩ (by simp)
    · refine sees_returned fun _ => ?_
      have hbefore := hprev.2
      rw [hop]
      exact (was_table (hsight.lacks (by omega) (by omega))).imp fun _ => .missing
  | read pc =>
    obtain ⟨hkeyed, rfl, htook⟩ := h
    have hgone := hdel.gone (d := d) rfl
    cases pc with
    | load =>
      simp only [listDelete, readVal, Cmd.map, LinkState.exec, Function.comp]
      split_ifs <;> exact hgo _ ⟨hkeyed, rfl, fun v hv => by cases hv⟩
    | cas orig =>
      have hall : (listDelete (V := V) key true d (.read (.cas orig))).All fun th =>
          th.Sees recent s op := fun ok => by
        cases ok <;> exact hgo _ ⟨hkeyed, rfl, fun v hv => by cases hv⟩
      exact hall.exec weak fresh
    | copy =>
      refine hgo (.read (.sub (s.node d).val)) ⟨hkeyed, rfl, fun v hv => ?_⟩
      obtain rfl : (s.node d).val = v := by simpa using hv
      exact ⟨hgone.known, hgone.marked, rfl⟩
    | sub v =>
      refine hgo (.free (some v)) ⟨hkeyed, rfl, fun w hw => ?_⟩
      obtain rfl : v = w := by simpa using hw
      exact htook v rfl
  | free v =>
    refine sees_returned fun hkeeps => ?_
    rw [hop] at hkeeps
    cases hkeeps

/-- Calls of `help_flagged` go on above a place that stays, and the last one returns when its node
is marked. -/
lemma helps_sees (htrail : Trail recent s) {f : HelpFlagged N} {fs : List (HelpFlagged N)}
    {pc : Pc N V} (hok : ∀ g ∈ f :: fs, HelpOk s.node s.linked g)
    (hcmd : (⟨f :: fs, pc⟩ : Thread N V).cmd (· == ·) = some cmd)
    (h : (⟨f :: fs, pc⟩ : Thread N V).Sees recent s op) :
    (s.exec weak fresh cmd).2.Sees recent s op := by
  cases hcmd
  rw [exec_map]
  have hlast := (helpFlagged_last (V := V) (f := f)).exec (s := s) weak fresh
  have hends := fun hne => (helpFlagged_ends (V := V) (f := f) hne).exec (s := s) weak fresh
  cases hr : (s.exec weak fresh (helpFlagged f)).2 with
  | none => exact sees_null
  | some gs =>
    rw [hr] at hlast hends
    -- the outermost call stays, or returns
    have hbottom : ∀ g ∈ (gs ++ fs).getLast?, ∃ b ∈ (f :: fs).getLast?, g.del = b.del := by
      intro g hg
      cases fs with
      | nil =>
        rw [List.append_nil] at hg
        exact ⟨f, rfl, (hlast gs rfl g hg).2⟩
      | cons b fs =>
        rw [List.getLast?_append_of_ne_nil _ (by simp)] at hg
        rw [List.getLast?_cons_cons]
        exact ⟨g, hg, rfl⟩
    refine ⟨h.pc, fun r hhelps hpc _ => ?_, fun r hpc g hg => ?_⟩
    · obtain ⟨rfl, rfl⟩ := List.append_eq_nil_iff.mp hhelps
      obtain ⟨hfails, hchains, val, hop⟩ := h.loses r hpc f rfl
      have hmark : (s.node f.del).succ.marked = true := by
        by_cases hne : ∃ n, f.pc = .helpMarked (.cas n)
        · obtain ⟨n, hn⟩ := hne
          have hpc := (hok f (by simp)).pc
          rw [hn] at hpc
          exact hpc.1
        · exact absurd rfl (hends fun n hn => hne ⟨n, hn⟩)
      rw [hop, hfails]
      exact (was_table (htrail.lacks f.del hchains hmark)).imp fun _ => .forestalled
    · obtain ⟨b, hb, hdel⟩ := hbottom g hg
      rw [hdel]
      exact h.loses r hpc b hb

/-- **One step** of a list operation, and what it knows of earlier moments. -/
theorem sees_step (hI : LinkInv s c) (hseg : Segment recent s) (htrail : Trail recent s)
    (hvalued : Valued s) (hlow : intptrMin < op.key) (hhigh : op.key < intptrMax)
    (hok : ThreadOk s.node s.linked s.used th) (hdel : DeleteOk s.node s.linked th)
    (hknows : th.pc.Knows recent s op) (h : th.Sees recent s op)
    (hcmd : th.cmd (· == ·) = some cmd) : (s.exec weak fresh cmd).2.Sees recent s op := by
  obtain ⟨helps, pc⟩ := th
  cases helps with
  | cons f fs => exact helps_sees htrail hok.helps hcmd h
  | nil =>
    have hok := hok.pc
    have h := h.pc
    cases pc with
    | idle | returned | null => cases hcmd
    | searchFrom ctx key pc =>
      cases hcmd
      have hres : (s.exec weak fresh (searchFrom (V := V) (· == ·) key pc)).2.Sees recent s key :=
        search_sees hI hseg htrail hok.2.2.1 h.1
      rw [exec_map]
      cases hr : (s.exec weak fresh (searchFrom (V := V) (· == ·) key pc)).2 with
      | more pc' =>
        rw [hr] at hres
        exact sees_plain ⟨hres, h.2⟩ (by simp)
      | ret curr next =>
        rw [hr] at hres
        exact found_sees hI htrail hok.2.2.2 h.2 hres.1 hres.2.1 hres.2.2
      | null => exact sees_null
    | insert key val pc =>
      cases hcmd
      exact insert_sees hI hseg htrail hvalued hlow hhigh hok.2.2 h.1 h.2
    | tryFlag key val prev target pc =>
      cases hcmd
      obtain ⟨-, -, hprev, htarget, hkey, -⟩ := hok
      exact tryFlag_sees hI hprev.1 ⟨htarget, hkey⟩ h.1 h.2.1 h.2.2
    | delete key val d pc =>
      cases hcmd
      exact delete_sees hok hdel h.1 h.2
    | searchCheck key val curr =>
      cases hcmd
      obtain ⟨rfl, next, hsight, hle, hlt⟩ := h
      simp only [LinkState.exec]
      split_ifs with hk
      · cases val with
        | true => exact sees_plain ⟨rfl, fun v hv => by cases hv⟩ (by simp)
        | false =>
          obtain ⟨v, -, hv⟩ := met_value hseg htrail hvalued hlow hhigh hsight.met hk
          exact sees_returned fun _ => hv.imp fun _ => .found
      · refine sees_returned fun _ => ?_
        exact (was_table (hsight.lacks (by omega) hlt)).imp fun _ => .unknown
    | searchRead key target pc =>
      cases hcmd
      obtain ⟨rfl, hv⟩ := h
      have hgo : ∀ pc', (∀ v, pc' = .sub v → Served recent s (.search key true) (.ok (some v))) →
          (⟨[], .searchRead key target pc'⟩ : Thread N V).Sees recent s (.search key true) :=
        fun pc' hpc' => sees_plain ⟨rfl, hpc'⟩ (by simp)
      cases pc with
      | load =>
        simp only [readVal, Cmd.map, LinkState.exec, Function.comp]
        split_ifs <;> exact hgo _ fun v hv => by cases hv
      | cas orig =>
        rw [exec_map]
        have hall : (readVal (V := V) target (.cas orig)).All fun r =>
            r = .more .copy ∨ r = .more .load := fun ok => by cases ok <;> simp
        rcases hall.exec (s := s) weak fresh with hr | hr <;> rw [hr] <;>
          exact hgo _ fun v hv => by cases hv
      | copy =>
        obtain ⟨hmet, hk, -⟩ := hknows
        refine hgo (.sub (s.node target).val) fun v hv' => ?_
        obtain rfl : (s.node target).val = v := by simpa using hv'
        obtain ⟨w, hw, hwas⟩ := met_value hseg htrail hvalued hlow hhigh hmet hk
        rw [hw]
        exact hwas.imp fun _ => .found
      | sub v => exact sees_returned fun _ => hv v rfl
    | updateCheck key val curr =>
      cases hcmd
      obtain ⟨rfl, next, hsight, hle, hlt⟩ := h
      simp only [LinkState.exec]
      split_ifs with hk
      · exact sees_plain rfl (by simp)
      · refine sees_returned fun _ => ?_
        exact (was_table (hsight.lacks (by omega) hlt)).imp fun _ => .absent
    | updateWrite key val target pc =>
      cases hcmd
      rw [exec_map]
      cases (s.exec weak fresh (writeVal target val pc)).2 with
      | none =>
        refine sees_returned fun hkeeps => ?_
        have hop : op = .update key val := h
        rw [hop] at hkeeps
        cases hkeeps
      | some pc' => exact sees_plain h (by simp)

end CoopTasks.LockFreeList
