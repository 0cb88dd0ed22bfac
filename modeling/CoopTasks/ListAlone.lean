import CoopTasks.ListLinkSafe
import Mathlib.Data.Prod.Lex

/-!
How far an operation of the list is from its end when it runs alone.

A retry finds the nodes as they are, so one more round of a loop is enough, unless it meets a
flagged predecessor, and then the help takes that flag away. Six numbers are compared one after
the other: whether the word that decides the operation is still to be written, the flags that
are not on their way out, the place of the operation, where its loop over nodes stands, the calls
of `help_flagged` that have nothing left to do, and the innermost call.
-/

namespace CoopTasks.LockFreeList

open CoopTasks.Machine

variable {N V : Type*} [DecidableEq N]

/-! ### Helping -/

/-- How many linked nodes are flagged. -/
def flags (mem : N → Node N V) (linked : List N) : ℕ :=
  linked.countP fun n => (mem n).succ.flagged

/-- Whether a call of `help_flagged` will take its flag away. -/
def HelpFlagged.pending (mem : N → Node N V) (f : HelpFlagged N) : Bool :=
  decide ((mem f.prev).succ = getFlaggedRef (some f.del))

/-- How far a call of `help_flagged` is from its end, or from a nested call; `r` is the word of
the node to delete. -/
def helpFlaggedRank (r : Ref N) : HelpFlaggedPc N → ℕ
  | .backlink => 40
  | .test => 39
  | .tryMark .load => bif r.marked then 8 else bif r.flagged then 33 else 14
  | .tryMark (.cas next) =>
    bif r.marked then 7 else bif r.flagged then 32 else if r.node = next then 13 else 17
  | .tryMark .result => bif r.marked then 6 else bif r.flagged then 31 else 16
  | .tryMark .test => bif r.marked then 5 else bif r.flagged then 34 else 15
  | .helpMarked .load => 2
  | .helpMarked (.cas _) => 1

/-- How far the innermost call is from its end; a nested call is about a larger key. -/
def innerRank (mem : N → Node N V) : List (HelpFlagged N) → ℕ
  | [] => 0
  | f :: _ => 64 * (intptrMax - (mem f.del).key).toNat + helpFlaggedRank (mem f.del).succ f.pc

/-! ### Searching -/

/-- Whether `next` is what `curr` points to. -/
abbrev Agrees (mem : N → Node N V) (curr next : N) : Prop := (mem curr).succ.node = some next

/-- The distance to a key. -/
def distance (mem : N → Node N V) (key : ℤ) (n : N) : ℕ := 16 * (key - (mem n).key).toNat

/-- More than any distance between linked nodes and a key. -/
def afar (key : ℤ) : ℕ := 16 * (key - intptrMin).toNat + 32

/-- How far a search is from its end; a search that goes on with an old pointer is far. -/
def searchAloneRank (mem : N → Node N V) (key : ℤ) : SearchPc N → ℕ
  | .load curr => distance mem key curr + 7
  | .reload curr => distance mem key curr + 9
  | .testKey curr next =>
    if key < (mem next).key then 1
    else if Agrees mem curr next then distance mem key curr + 6 else afar key + 6
  | .nextMarked curr next =>
    if Agrees mem curr next then distance mem key curr + 5 else afar key + 5
  | .currMarked curr next =>
    if Agrees mem curr next then distance mem key curr + 4 else afar key + 4
  | .differs curr next =>
    if Agrees mem curr next then distance mem key curr + 3 else afar key + 3
  | .agrees curr next =>
    if Agrees mem curr next then
      bif (mem curr).succ.marked then distance mem key curr + 12 else distance mem key curr + 3
    else afar key + 2
  | .helpMarked curr next .load =>
    if Agrees mem curr next then
      bif (mem curr).succ.marked then distance mem key curr + 11 else distance mem key curr + 2
    else afar key + 1
  | .helpMarked curr next (.cas _) =>
    if Agrees mem curr next then
      bif (mem curr).succ.marked then distance mem key curr + 10 else distance mem key curr + 1
    else afar key
  | .advance curr next =>
    if key < (mem next).key then 2
    else if Agrees mem curr next then distance mem key curr + 1 else afar key

/-- A search that will return an unmarked node and the one that it points to. -/
def SearchFresh (mem : N → Node N V) : SearchPc N → Prop
  | .load curr | .reload curr => (mem curr).succ.marked = false
  | .testKey curr next | .nextMarked curr next =>
    (mem curr).succ.marked = false ∧ Agrees mem curr next
  | .advance curr next => (mem curr).succ.marked = false ∧ Agrees mem curr next ∧
      (mem next).succ.marked = false
  | .currMarked curr _ | .agrees curr _ | .helpMarked curr _ _ => (mem curr).succ.marked = false
  | .differs _ _ => False

instance (mem : N → Node N V) : (pc : SearchPc N) → Decidable (SearchFresh mem pc)
  | .load curr | .reload curr | .currMarked curr _ | .agrees curr _ | .helpMarked curr _ _ =>
    inferInstanceAs (Decidable ((mem curr).succ.marked = false))
  | .testKey curr next | .nextMarked curr next =>
    inferInstanceAs (Decidable ((mem curr).succ.marked = false ∧ Agrees mem curr next))
  | .advance curr next => inferInstanceAs (Decidable ((mem curr).succ.marked = false ∧
      Agrees mem curr next ∧ (mem next).succ.marked = false))
  | .differs _ _ => inferInstanceAs (Decidable False)

/-! ### The operations -/

/-- Twice the distance of a key from the smallest one. -/
def depth (mem : N → Node N V) (n : N) : ℕ := 2 * ((mem n).key - intptrMin).toNat

/-- Whether `list_insert` will link its node, or find a flag to take away. -/
def CanLink (mem : N → Node N V) (prev next : N) : Prop :=
  (mem prev).succ.flagged = true ∨ (mem prev).succ = getUnmarkedRef (some next)

instance (mem : N → Node N V) (prev next : N) : Decidable (CanLink mem prev next) :=
  inferInstanceAs (Decidable (_ ∨ _))

/-- Whether `try_flag` will flag its predecessor, or find it flagged. -/
def CanFlag (mem : N → Node N V) (prev target : N) : Prop :=
  (mem prev).succ.marked = false ∧ Agrees mem prev target

instance (mem : N → Node N V) (prev target : N) : Decidable (CanFlag mem prev target) :=
  inferInstanceAs (Decidable (_ ∧ _))

/-- The place of a `list_insert` and where it stands there: 1 when it is about to link its node,
3 while it walks back, and 4 when its nodes are old. -/
def insertTier (mem : N → Node N V) : InsertPc N → ℕ × ℕ
  | .checkFirst prev next => (if CanLink mem prev next then 1 else 4, 10)
  | .alloc prev next => (if CanLink mem prev next then 1 else 4, 9)
  | .initSucc prev next _ => (if CanLink mem prev next then 1 else 4, 8)
  | .initBacklink prev next _ => (if CanLink mem prev next then 1 else 4, 7)
  | .initKey prev next _ => (if CanLink mem prev next then 1 else 4, 6)
  | .initVal prev next _ | .checkAgain prev next _ => (if CanLink mem prev next then 1 else 4, 5)
  | .load prev next _ => (if CanLink mem prev next then 1 else 4, 4)
  | .store prev next _ => (if CanLink mem prev next then 1 else 4, 3)
  | .cas prev next _ => (if CanLink mem prev next then 1 else 4, 2)
  | .result prev _ => bif (mem prev).succ.flagged then (1, 1) else (3, depth mem prev + 2)
  | .marked prev _ => (3, depth mem prev + 1)
  | .backlink prev _ => (3, depth mem prev)
  | .free _ => (1, 1)

/-- The place of a `try_flag` and where it stands there, in the same way. -/
def tryFlagTier (mem : N → Node N V) (prev target : N) : TryFlagPc → ℕ × ℕ
  | .testNode => (if CanFlag mem prev target then 1 else 4, 6)
  | .testMarked => (if CanFlag mem prev target then 1 else 4, 5)
  | .testFlagged => (if CanFlag mem prev target then 1 else 4, 4)
  | .cas => (if CanFlag mem prev target then 1 else 4, 3)
  | .result =>
    if CanFlag mem prev target ∧ (mem prev).succ.flagged = true then (1, 2)
    else (3, depth mem prev + 3)
  | .marked => (3, depth mem prev + 2)
  | .backlink => (3, depth mem prev + 1)
  | .key => (bif (mem prev).succ.marked then 6 else 3, 0)

/-- Where a copy out of a node stands. -/
def readTier (readers : ℕ) : ReadPc V → ℕ
  | .load => 5
  | .cas orig => if orig = readers then 4 else 6
  | .copy => 3
  | .sub _ => 2

/-- Where a copy into a node stands. -/
def writeTier (readers : ℕ) : WritePc → ℕ
  | .load => 5
  | .cas orig => if orig = readers then 4 else 6
  | .copy => 3
  | .init => 2

/-- The place of an operation and where it stands there. -/
def Pc.tier (mem : N → Node N V) (readers : ℕ) : Pc N V → ℕ × ℕ
  | .idle | .returned _ | .null => (0, 0)
  | .searchFrom ctx key pc =>
    (match ctx with
      | .insertFirst _ | .insertAgain _ _ | .tryFlag _ _ _ => if SearchFresh mem pc then 2 else 5
      | .delete _ | .search _ | .update _ => 8, searchAloneRank mem key pc)
  | .insert _ _ pc => insertTier mem pc
  | .tryFlag _ _ prev target pc => tryFlagTier mem prev target pc
  | .delete _ _ _ (.check _) => (7, 0)
  | .delete _ _ _ (.read pc) | .searchRead _ _ pc => (0, readTier readers pc)
  | .delete _ _ _ (.free _) => (0, 1)
  | .searchCheck _ _ _ | .updateCheck _ _ _ => (0, 7)
  | .updateWrite _ _ _ pc => (0, writeTier readers pc)

/-- Whether the word that decides the operation is still to be written or to be found. -/
def Pc.stage : Pc N V → ℕ
  | .searchFrom _ _ _ | .insert _ _ _ | .tryFlag _ _ _ _ _ | .delete _ _ _ (.check _) => 1
  | _ => 0

/-- Whether a thread waits for other readers or for a writer. -/
def Thread.waits (readers : ℕ) (th : Thread N V) : Bool :=
  match th.helps, th.pc with
  | [], .delete _ _ _ (.read .load) | [], .searchRead _ _ .load => readers = uint32Max
  | [], .updateWrite _ _ _ .load => readers ≠ 0
  | _, _ => false

/-- How far a thread that runs alone is from the end of its operation. -/
def aloneRank (mem : N → Node N V) (linked : List N) (readers : ℕ) (th : Thread N V) :
    ℕ ×ₗ ℕ ×ₗ ℕ ×ₗ ℕ ×ₗ ℕ ×ₗ ℕ :=
  let pending := th.helps.any (·.pending mem)
  let tier := bif pending then (9, 0) else th.pc.tier mem readers
  toLex (th.pc.stage, toLex (flags mem linked - pending.toNat, toLex (tier.1, toLex (tier.2,
    toLex (th.helps.countP (!·.pending mem), innerRank mem th.helps)))))

end CoopTasks.LockFreeList
