import CoopTasks.LockFreeList
import CoopTasks.ReadersWriters
import Mathlib.Logic.Function.Basic

/-!
The word `readers` in the programs of the list operations.

Whatever its accesses to nodes return, a thread enters the copying of a value only by a
compare-exchange on `readers`, and leaves it by a decrement or by the initialisation.
-/

namespace CoopTasks.LockFreeList

open CoopTasks.ReadersWriters

variable {N V R S : Type*} {th : Thread N V}

/-- Whatever the access returns. -/
def Cmd.All (P : R → Prop) : Cmd N V R → Prop
  | .load _ k => ∀ r, P (k r)
  | .cas _ _ _ k => ∀ ok, P (k ok)
  | .store _ _ k => P k
  | .loadKey _ k => ∀ key, P (k key)
  | .storeKey _ _ k => P k
  | .loadBacklink _ k => ∀ b, P (k b)
  | .storeBacklink _ _ k => P k
  | .loadVal _ k => ∀ v, P (k v)
  | .storeVal _ _ k => P k
  | .alloc k => ∀ n, P (k n)
  | .free _ k => P k
  | .loadReaders k => ∀ r, P (k r)
  | .casReaders _ _ k => ∀ ok, P (k ok)
  | .subReaders k => P k
  | .initReaders k => P k

lemma of_cond {P : R → Prop} (b : Bool) {x y : R} (hx : P x) (hy : P y) :
    P (bif b then x else y) := by
  cases b
  · exact hy
  · exact hx

lemma Cmd.all_of_forall {P : R → Prop} (h : ∀ r, P r) (cmd : Cmd N V R) : cmd.All P := by
  cases cmd <;> first | exact h _ | exact fun _ => h _

lemma Cmd.All.imp {P Q : R → Prop} {cmd : Cmd N V R} (h : cmd.All P) (himp : ∀ r, P r → Q r) :
    cmd.All Q := by
  cases cmd <;> first | exact himp _ h | exact fun r => himp _ (h r)

lemma Cmd.all_map {P : S → Prop} {f : R → S} {cmd : Cmd N V R} :
    (cmd.map f).All P ↔ cmd.All fun r => P (f r) := by
  cases cmd <;> rfl

/-- Whether an access leaves `readers` alone. -/
def Cmd.quiet : Cmd N V R → Bool
  | .casReaders _ _ _ | .subReaders _ | .initReaders _ => false
  | _ => true

lemma Cmd.quiet_map {f : R → S} (cmd : Cmd N V R) : (cmd.map f).quiet = cmd.quiet := by
  cases cmd <;> rfl

def ReadPc.side : ReadPc V → Side
  | .copy | .sub _ => .read
  | _ => .out

def WritePc.side : WritePc → Side
  | .copy | .init => .write
  | _ => .out

/-- Where a thread stands with respect to `readers`. -/
def Pc.side : Pc N V → Side
  | .delete _ _ _ (.read pc) | .searchRead _ _ pc => pc.side
  | .updateWrite _ _ _ pc => pc.side
  | _ => .out

def ReadPc.CasOk : ReadPc V → Prop
  | .cas orig => orig ≠ uint32Max
  | _ => True

def WritePc.CasOk : WritePc → Prop
  | .cas orig => orig = 0
  | _ => True

/-- A compare-exchange on `readers` was preceded by the test of what was loaded. -/
def Pc.CasOk : Pc N V → Prop
  | .delete _ _ _ (.read pc) | .searchRead _ _ pc => pc.CasOk
  | .updateWrite _ _ _ pc => pc.CasOk
  | _ => True

/-- A thread that helps is outside the copying. -/
structure Thread.ReadersOk (th : Thread N V) : Prop where
  helps : th.helps ≠ [] → th.pc.side = .out
  cas : th.pc.CasOk

/-- A thread outside the copying. -/
structure Thread.Out (th : Thread N V) : Prop where
  side : th.pc.side = .out
  cas : th.pc.CasOk

lemma Thread.Out.ok (h : th.Out) : th.ReadersOk := ⟨fun _ => h.side, h.cas⟩

/-- What an access of a thread means for `readers`. -/
inductive SideStep (side : Side) : Cmd N V (Thread N V) → Prop
  | same {cmd} (hquiet : cmd.quiet = true)
      (h : cmd.All fun th => th.pc.side = side ∧ th.ReadersOk) : SideStep side cmd
  | readLock {orig : ℕ} {k} (hne : orig ≠ uint32Max) (hside : side = .out)
      (hin : (k true).pc.side = .read ∧ (k true).ReadersOk) (hout : (k false).Out) :
      SideStep side (.casReaders orig (orig + 1) k)
  | readUnlock {k} (hside : side = .read) (hout : k.Out) : SideStep side (.subReaders k)
  | writeLock {k} (hside : side = .out) (hin : (k true).pc.side = .write ∧ (k true).ReadersOk)
      (hout : (k false).Out) : SideStep side (.casReaders 0 uint32Max k)
  | writeUnlock {k} (hside : side = .write) (hout : k.Out) : SideStep side (.initReaders k)

lemma SideStep.out {cmd : Cmd N V (Thread N V)} (hquiet : cmd.quiet = true)
    (h : cmd.All Thread.Out) : SideStep .out cmd :=
  .same hquiet (h.imp fun _ hout => ⟨hout.side, hout.ok⟩)

/-! ### The programs -/

variable {same : N → N → Bool} {key : ℤ} {n : N} {pc : Pc N V}

lemma readVal_side {pc : ReadPc V} {k : ReadRes V → Thread N V} (hcas : pc.CasOk)
    (hmore : ∀ pc', (k (.more pc')).pc.side = pc'.side ∧ (k (.more pc')).helps = [] ∧
      ((k (.more pc')).pc.CasOk ↔ pc'.CasOk))
    (hret : ∀ v, (k (.ret v)).Out) : SideStep pc.side ((readVal n pc).map k) := by
  have hok : ∀ {pc' : ReadPc V}, pc'.CasOk →
      (k (.more pc')).pc.side = pc'.side ∧ (k (.more pc')).ReadersOk := fun {pc'} h =>
    ⟨(hmore pc').1, fun hne => absurd (hmore pc').2.1 hne, (hmore pc').2.2.mpr h⟩
  have hload : (k (.more .load)).Out := ⟨(hmore .load).1, (hmore .load).2.2.mpr trivial⟩
  cases pc with
  | load =>
    refine .out rfl fun orig => ?_
    by_cases h : orig = uint32Max
    · simpa [h] using hload
    · have hc := hmore (.cas orig)
      simpa [h] using (⟨hc.1, hc.2.2.mpr h⟩ : (k (.more (.cas orig))).Out)
  | cas orig => exact .readLock hcas rfl (hok trivial) hload
  | copy => exact .same rfl fun v => hok trivial
  | sub v => exact .readUnlock rfl (hret v)

lemma writeVal_side {val : V} {pc : WritePc} {k : Option WritePc → Thread N V} (hcas : pc.CasOk)
    (hmore : ∀ pc', (k (some pc')).pc.side = pc'.side ∧ (k (some pc')).helps = [] ∧
      ((k (some pc')).pc.CasOk ↔ pc'.CasOk))
    (hret : (k none).Out) : SideStep pc.side ((writeVal n val pc).map k) := by
  have hok : ∀ {pc' : WritePc}, pc'.CasOk →
      (k (some pc')).pc.side = pc'.side ∧ (k (some pc')).ReadersOk := fun {pc'} h =>
    ⟨(hmore pc').1, fun hne => absurd (hmore pc').2.1 hne, (hmore pc').2.2.mpr h⟩
  have hload : (k (some .load)).Out := ⟨(hmore .load).1, (hmore .load).2.2.mpr trivial⟩
  cases pc with
  | load =>
    refine .out rfl fun orig => ?_
    by_cases h : orig = 0
    · have hc := hmore (.cas 0)
      simpa [h] using (⟨hc.1, hc.2.2.mpr rfl⟩ : (k (some (.cas 0))).Out)
    · simpa [h] using hload
  | cas orig =>
    obtain rfl : orig = 0 := hcas
    exact .writeLock rfl (hok trivial) hload
  | copy => exact .same rfl (hok trivial)
  | init => exact .writeUnlock rfl hret

lemma found_out (curr next : N) (ctx : Ctx N V) :
    (⟨[], found same key curr next ctx⟩ : Thread N V).Out := by
  cases ctx with
  | tryFlag k val target =>
    cases h : same next target <;> simp only [found, h] <;> exact ⟨rfl, trivial⟩
  | _ => exact ⟨rfl, trivial⟩

lemma searchFrom_side (ctx : Ctx N V) (pc : SearchPc N) :
    SideStep .out ((searchFrom same key pc).map fun
      | .more pc' => ⟨[], .searchFrom ctx key pc'⟩
      | .ret curr next => ⟨[], found same key curr next ctx⟩
      | .null => (⟨[], .null⟩ : Thread N V)) := by
  refine .out ?_ (Cmd.all_map.mpr (Cmd.all_of_forall (fun r => ?_) _))
  · rw [Cmd.quiet_map]
    cases pc with
    | helpMarked curr next pc => cases pc <;> rfl
    | _ => rfl
  · cases r with
    | ret curr next => exact found_out curr next ctx
    | _ => exact ⟨rfl, trivial⟩

lemma listInsert_side (val : V) (pc : InsertPc N) :
    SideStep .out (listInsert key val pc : Cmd N V (Thread N V)) := by
  cases pc with
  | initSucc | initBacklink | initKey | initVal | store | free => exact .out rfl ⟨rfl, trivial⟩
  | checkFirst | checkAgain =>
    refine .out rfl fun k => ?_
    by_cases hk : k = key <;> simp only [hk, if_true, if_false] <;> exact ⟨rfl, trivial⟩
  | alloc =>
    refine .out rfl fun n => ?_
    cases n <;> exact ⟨rfl, trivial⟩
  | load =>
    refine .out rfl fun r => ?_
    cases hf : r.flagged <;> cases hn : r.node <;> simp only [hf, hn] <;> exact ⟨rfl, trivial⟩
  | cas | marked => exact .out rfl fun r => of_cond _ ⟨rfl, trivial⟩ ⟨rfl, trivial⟩
  | result =>
    refine .out rfl fun r => ?_
    cases hf : r.isFlag <;> cases hn : r.node <;> simp only [hf, hn] <;> exact ⟨rfl, trivial⟩
  | backlink =>
    refine .out rfl fun b => ?_
    cases b <;> exact ⟨rfl, trivial⟩

lemma tryFlag_side (val : Bool) (prev target : N) (pc : TryFlagPc) :
    SideStep .out (tryFlag same key val prev target pc : Cmd N V (Thread N V)) := by
  have hflagged : ∀ deleted, (flagged key val prev target deleted : Thread N V).Out := by
    intro deleted
    cases deleted <;> cases val <;> exact ⟨rfl, trivial⟩
  cases pc with
  | testNode | testMarked | marked =>
    exact .out rfl fun r => of_cond _ ⟨rfl, trivial⟩ ⟨rfl, trivial⟩
  | testFlagged | cas | result =>
    exact .out rfl fun r => of_cond _ (hflagged _) ⟨rfl, trivial⟩
  | backlink =>
    refine .out rfl fun b => ?_
    cases b <;> exact ⟨rfl, trivial⟩
  | key => exact .out rfl fun k => ⟨rfl, trivial⟩

lemma listDelete_side (val : Bool) (del : N) (pc : DeletePc N V)
    (hcas : (Pc.delete key val del pc).CasOk) :
    SideStep (Pc.delete key val del pc).side (listDelete key val del pc) := by
  cases pc with
  | check prev =>
    refine .out rfl fun k => ?_
    by_cases hk : k = key <;> simp only [hk, if_true, if_false] <;> exact ⟨rfl, trivial⟩
  | read pc =>
    exact readVal_side hcas (fun pc' => ⟨rfl, rfl, .rfl⟩) fun v => ⟨rfl, trivial⟩
  | free v => exact .out rfl ⟨rfl, trivial⟩

lemma pc_side (hcas : pc.CasOk) {cmd : Cmd N V (Thread N V)} (h : pc.cmd same = some cmd) :
    SideStep pc.side cmd := by
  cases pc with
  | idle | returned r | null => simp [Pc.cmd] at h
  | searchFrom ctx key pc =>
    obtain rfl := by simpa [Pc.cmd] using h
    exact searchFrom_side ctx pc
  | insert key val pc =>
    obtain rfl := by simpa [Pc.cmd] using h
    exact listInsert_side val pc
  | tryFlag key val prev target pc =>
    obtain rfl := by simpa [Pc.cmd] using h
    exact tryFlag_side val prev target pc
  | delete key val del pc =>
    obtain rfl := by simpa [Pc.cmd] using h
    exact listDelete_side val del pc hcas
  | searchCheck key val curr =>
    obtain rfl := by simpa [Pc.cmd] using h
    refine .out rfl fun k => ?_
    by_cases hk : k = key <;> simp only [hk, if_true, if_false]
    · exact of_cond _ ⟨rfl, trivial⟩ ⟨rfl, trivial⟩
    · exact ⟨rfl, trivial⟩
  | searchRead key target pc =>
    obtain rfl := by simpa [Pc.cmd] using h
    exact readVal_side hcas (fun pc' => ⟨rfl, rfl, .rfl⟩) fun v => ⟨rfl, trivial⟩
  | updateCheck key val curr =>
    obtain rfl := by simpa [Pc.cmd] using h
    refine .out rfl fun k => ?_
    by_cases hk : k = key <;> simp only [hk, if_true, if_false] <;> exact ⟨rfl, trivial⟩
  | updateWrite key val target pc =>
    obtain rfl := by simpa [Pc.cmd] using h
    exact writeVal_side hcas (fun pc' => ⟨rfl, rfl, .rfl⟩) ⟨rfl, trivial⟩

/-- **One step** of a list operation, and `readers`. -/
theorem thread_side (h : th.ReadersOk) {cmd : Cmd N V (Thread N V)}
    (hcmd : th.cmd same = some cmd) : SideStep th.pc.side cmd := by
  obtain ⟨helps, pc⟩ := th
  cases helps with
  | nil => exact pc_side h.cas hcmd
  | cons f fs =>
    have hside : pc.side = .out := h.helps (by simp)
    obtain rfl := by simpa [Thread.cmd] using hcmd
    rw [show (⟨f :: fs, pc⟩ : Thread N V).pc.side = .out from hside]
    refine .out ?_ (Cmd.all_map.mpr (Cmd.all_of_forall (fun r => ?_) _))
    · rw [Cmd.quiet_map]
      obtain ⟨prev, del, pc⟩ := f
      cases pc with
      | tryMark pc => cases pc <;> rfl
      | helpMarked pc => cases pc <;> rfl
      | _ => rfl
    · cases r with
      | none => exact ⟨rfl, trivial⟩
      | some gs => exact ⟨hside, h.cas⟩

end CoopTasks.LockFreeList
