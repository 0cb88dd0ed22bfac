import CoopTasks.ListClean
import CoopTasks.ListPoolRun

/-!
One thread at a time on the list over its pool.

Between calls the list is clean and its nodes are apart from the free fragments. A call is then a
sequence of steps without a choice: a search, and behind it a straight line of accesses.
-/

namespace CoopTasks.LockFreeList

open CoopTasks.Chain (Tagged Cells Linked casOk)
open CoopTasks.Advance CoopTasks.Alone CoopTasks.Machine

variable {N V R S : Type*} {m m' : Mem V} {n head tail k : ℕ} {r : Ref ℕ} {c free : List ℕ}
  {th th' : Thread ℕ V} {Q : Mem V × Thread ℕ V → Prop} {weak : Bool}

/-! ### Nodes in memory -/

/-- The node in a fragment. -/
def Mem.node (m : Mem V) (n : ℕ) : Node ℕ V :=
  ⟨refOf (m.cells.link n), (m.cells.data n).backlink, (m.cells.data n).key, (m.cells.data n).val⟩

/-- The word of a node was written by the list. -/
def Mem.Own (m : Mem V) (n : ℕ) : Prop := m.cells.link n = tagOf (m.node n).succ

@[simp] lemma refOf_tagOf (r : Ref ℕ) : refOf (tagOf r) = r := by
  obtain ⟨node, marked, flagged⟩ := r
  cases marked <;> cases flagged <;> simp [refOf, tagOf]

lemma node_setSucc : (m.setSucc n r).node = setSucc m.node n r := by
  funext k
  by_cases hk : k = n
  · subst hk
    simp [Mem.node, Mem.setSucc, LockFreeList.setSucc, Chain.Cells.setLink]
  · simp [Mem.node, Mem.setSucc, LockFreeList.setSucc, Chain.Cells.setLink, hk]

lemma node_setFields {d : Fields V} : (m.setFields n d).node =
    Function.update m.node n ⟨(m.node n).succ, d.backlink, d.key, d.val⟩ := by
  funext k
  by_cases hk : k = n
  · subst hk
    simp [Mem.node, Mem.setFields, Chain.Cells.setData]
  · simp [Mem.node, Mem.setFields, Chain.Cells.setData, hk]

lemma link_setSucc_self : (m.setSucc n r).cells.link n = tagOf r := by simp [Mem.setSucc]

lemma link_setSucc_ne {k : ℕ} (h : k ≠ n) : (m.setSucc n r).cells.link k = m.cells.link k :=
  Chain.setLink_ne _ _ h

/-! ### A step alone -/

/-- What a thread does next on the memory. -/
def soloStep (x : Mem V × Thread ℕ V) (weak : Bool) : Option (Mem V × Thread ℕ V) :=
  (x.2.cmd (· == ·)).bind (x.1.exec weak)

/-- Whether the compare-exchange of `help_marked` comes next. -/
def Thread.unlinking (th : Thread N V) : Bool :=
  match th.helps, th.pc with
  | { prev := _, del := _, pc := .helpMarked (.cas _) } :: _, _ => true
  | [], .searchFrom _ _ (.helpMarked _ _ (.cas _)) => true
  | _, _ => false

/-- Whether an access leaves the sentinels as they are: it does not read or write their values,
does not mark them, flags nothing on them, does not unlink them and does not give them back. -/
def Cmd.Spares (head tail : ℕ) : Cmd ℕ V R → Prop
  | .cas n exp new _ => (new.marked = true → n ≠ head ∧ n ≠ tail) ∧
      (new.flagged = true → new.node ≠ some head ∧ new.node ≠ some tail) ∧
      (exp.flagged = true → exp.node ≠ some head ∧ exp.node ≠ some tail)
  | .store n _ _ | .storeKey n _ _ | .storeBacklink n _ _ | .loadVal n _ | .storeVal n _ _
  | .free n _ => n ≠ head ∧ n ≠ tail
  | _ => True

lemma Cmd.spares_map {f : R → S} {cmd : Cmd ℕ V R} :
    (cmd.map f).Spares head tail ↔ cmd.Spares head tail := by
  cases cmd <;> rfl

/-- A place that no null pointer leads to, and where the argument of `search_from` is a key. -/
def Pc.ArgOk : Pc ℕ V → Prop
  | .null => False
  | .searchFrom _ key _ => intptrMin ≤ key ∧ key ≤ intptrMax
  | _ => True

/-- A thread that leaves the sentinels alone with its next access. -/
structure Spared (head tail : ℕ) (th : Thread ℕ V) : Prop where
  arg : th.pc.ArgOk
  cmd : ∀ cmd, th.cmd (· == ·) = some cmd → cmd.Spares head tail

instance (cmd : Cmd ℕ V R) : Decidable (cmd.Spares head tail) :=
  match cmd with
  | .cas n exp new _ => inferInstanceAs (Decidable ((new.marked = true → n ≠ head ∧ n ≠ tail) ∧
      (new.flagged = true → new.node ≠ some head ∧ new.node ≠ some tail) ∧
      (exp.flagged = true → exp.node ≠ some head ∧ exp.node ≠ some tail)))
  | .store n _ _ | .storeKey n _ _ | .storeBacklink n _ _ | .loadVal n _ | .storeVal n _ _
  | .free n _ => inferInstanceAs (Decidable (n ≠ head ∧ n ≠ tail))
  | .load _ _ | .loadKey _ _ | .loadBacklink _ _ | .alloc _ | .loadReaders _ | .casReaders _ _ _
  | .subReaders _ | .initReaders _ => isTrue trivial

instance (pc : Pc ℕ V) : Decidable pc.ArgOk :=
  match pc with
  | .null => isFalse id
  | .searchFrom _ key _ => inferInstanceAs (Decidable (intptrMin ≤ key ∧ key ≤ intptrMax))
  | .idle | .returned _ | .insert _ _ _ | .tryFlag _ _ _ _ _ | .delete _ _ _ _
  | .searchCheck _ _ _ | .searchRead _ _ _ | .updateCheck _ _ _ | .updateWrite _ _ _ _ =>
    isTrue trivial

instance (th : Thread ℕ V) : Decidable (Spared head tail th) :=
  decidable_of_iff (th.pc.ArgOk ∧ ∀ cmd ∈ th.cmd (· == ·), cmd.Spares head tail)
    ⟨fun h => ⟨h.1, h.2⟩, fun h => ⟨h.arg, h.cmd⟩⟩

lemma spared {cmd : Cmd ℕ V (Thread ℕ V)} (harg : th.pc.ArgOk)
    (hcmd : th.cmd (· == ·) = some cmd) (h : cmd.Spares head tail) : Spared head tail th :=
  ⟨harg, fun cmd' hcmd' => by
    rw [hcmd] at hcmd'
    cases hcmd'
    exact h⟩

/-- A thread that goes on alone leaves the sentinels alone and comes to `Q`, even if up to `k`
compare-exchanges other than those of `help_marked` fail spuriously. -/
abbrev Serves (head tail : ℕ) (Q : Mem V × Thread ℕ V → Prop) : ℕ → Mem V × Thread ℕ V → Prop :=
  Ensures soloStep (fun x => x.2.unlinking = false) (fun x => Spared head tail x.2) Q

lemma Serves.access {cmd : Cmd ℕ V (Thread ℕ V)} (harg : th.pc.ArgOk)
    (hcmd : th.cmd (· == ·) = some cmd) (hspares : cmd.Spares head tail)
    (hexec : ∀ weak, m.exec weak cmd = some (m', th'))
    (h : Serves head tail Q k (m', th')) : Serves head tail Q k (m, th) := by
  have hstep : ∀ weak, soloStep (m, th) weak = some (m', th') := fun weak => by
    simp only [soloStep, hcmd, Option.bind_some]
    exact hexec weak
  refine .step (spared harg hcmd hspares) (hstep false) h fun j hj u _ hu => ?_
  obtain rfl := Option.some.inj ((hstep true).symm.trans hu)
  exact h.mono hj.le

lemma Serves.cas {exp new : Ref ℕ} {next : Bool → Thread ℕ V} (harg : th.pc.ArgOk)
    (hcmd : th.cmd (· == ·) = some (.cas n exp new next))
    (hspares : (Cmd.cas n exp new next : Cmd ℕ V (Thread ℕ V)).Spares head tail)
    (hword : m.cells.link n = tagOf exp)
    (hok : Serves head tail Q k (m.setSucc n new, next true))
    (hfail : th.unlinking = false → ∀ j < k, Serves head tail Q j (m, next false)) :
    Serves head tail Q k (m, th) := by
  refine .step (spared harg hcmd hspares) ?_ hok fun j hj u hmay hu => ?_
  · simp [soloStep, hcmd, Mem.exec, hword, casOk]
  · obtain rfl : (m, next false) = u := by
      simpa [soloStep, hcmd, Mem.exec, hword, casOk] using hu
    exact hfail hmay j hj

lemma Serves.casReaders {exp new : ℕ} {next : Bool → Thread ℕ V} (harg : th.pc.ArgOk)
    (hcmd : th.cmd (· == ·) = some (.casReaders exp new next)) (hword : m.readers = exp)
    (hok : Serves head tail Q k ({ m with readers := new }, next true))
    (hfail : ∀ j < k, Serves head tail Q j (m, next false)) : Serves head tail Q k (m, th) := by
  refine .step (spared harg hcmd trivial) ?_ hok fun j hj u _ hu => ?_
  · simp [soloStep, hcmd, Mem.exec, hword]
  · obtain rfl : (m, next false) = u := by
      simpa [soloStep, hcmd, Mem.exec, hword] using hu
    exact hfail j hj

lemma exec_load {next : Ref ℕ → R} (h : (m.node n).succ = r) :
    m.exec weak (.load n next) = some (m, next r) := by
  subst h
  rfl

lemma exec_loadKey {key : ℤ} {next : ℤ → R} (h : (m.node n).key = key) :
    m.exec weak (.loadKey n next) = some (m, next key) := by
  subst h
  rfl

lemma exec_alloc {P : Pool.MemoryPool} {x : Option ℕ} {next : Option ℕ → R}
    (h : runPick poolFuel m.pool m.cells (.loop .loadHead) = some (P, x)) :
    m.exec weak (.alloc next) = some ({ m with pool := P }, next x) := by
  simp [Mem.exec, h]

lemma exec_free {P : Pool.MemoryPool} {C : Cells ℕ (Fields V)} {next : R}
    (h : runPut n poolFuel m.pool m.cells .init = some (P, C)) :
    m.exec weak (.free n next) = some ({ m with pool := P, cells := C }, next) := by
  simp [Mem.exec, h]

lemma exec_loadReaders {next : ℕ → R} {readers : ℕ} (h : m.readers = readers) :
    m.exec weak (.loadReaders next) = some (m, next readers) := by
  subst h
  rfl

lemma exec_peek {cmd : Cmd ℕ V R} {x : R} (h : cmd.peek m.node = some x) :
    m.exec weak cmd = some (m, x) := by
  cases cmd <;> simp only [Cmd.peek, reduceCtorEq, Option.some.injEq] at h <;> subst h <;> rfl

/-! ### At rest -/

/-- Between calls: the list is clean, its inner nodes have values, and the pool holds the free
fragments. -/
structure Rests (m : Mem V) (head tail : ℕ) (c free : List ℕ) : Prop where
  clean : Clean m.node head tail c
  own : ∀ n ∈ c, m.Own n
  ready : Ready m.pool m.cells free
  apart : c.Disjoint free
  readers : m.readers = 0

/-- **Searching**: what holds between the neighbours of the key is come to. -/
theorem Serves.search {ctx : Ctx ℕ V} {key : ℤ} {pc : SearchPc ℕ} (h : Clean m.node head tail c)
    (hlow : intptrMin ≤ key) (hkey : key < intptrMax) (hpc : SearchAt m.node c key pc)
    (hfound : ∀ curr next, Between m.node c key curr next →
      Serves head tail Q k (m, ⟨[], found (· == ·) key curr next ctx⟩)) :
    Serves head tail Q k (m, ⟨[], .searchFrom ctx key pc⟩) := by
  induction hrank : searchRank m.node key pc using Nat.strong_induction_on generalizing pc with
  | _ i ih =>
    have hspares : (searchFrom (V := V) (· == ·) key pc).Spares head tail := by
      cases pc <;> trivial
    rcases searchFrom_clean (V := V) (· == ·) h hkey hpc with
      ⟨pc', hpeek, hpc', hlt⟩ | ⟨curr, next, hpeek, hb⟩
    · refine .access ⟨hlow, hkey.le⟩ rfl (Cmd.spares_map.mpr hspares) (fun weak => ?_)
        (ih _ (hrank ▸ hlt) hpc' rfl)
      refine exec_peek ?_
      rw [Cmd.peek_map, hpeek]
      rfl
    · refine .access ⟨hlow, hkey.le⟩ rfl (Cmd.spares_map.mpr hspares) (fun weak => ?_)
        (hfound curr next hb)
      refine exec_peek ?_
      rw [Cmd.peek_map, hpeek]
      rfl

end CoopTasks.LockFreeList
