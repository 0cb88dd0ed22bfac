import CoopTasks.ListValues

/-!
The list over a pool whose nodes are used again.

A pointer is an address, and beside it the number of the allocation that it points to. No step
looks at a number: pointers, and the words they stand in, are compared by address. The numbers, and
with them the list of the nodes that are allocated now, only tell which pointers are out of date.

`mempool_alloc` takes the free node that was given back first, but never the last fragment of the
pool; `mempool_free` appends a node. The free nodes are chained through their words `succ`, which
it overwrites.
-/

namespace CoopTasks.LockFreeList

open CoopTasks.Machine ListMachine

variable {N A V R S : Type*} [DecidableEq A]

/-- Pointers are compared by their addresses. -/
def sameAddr (m n : A × ℕ) : Bool := m.1 == n.1

/-- Pointers as they would be compared if numbers counted. -/
def samePtr (m n : A × ℕ) : Bool := m = n

/-- Words are compared as their pointers are. -/
def Ref.agrees (same : N → N → Bool) (r r' : Ref N) : Bool :=
  r.marked == r'.marked && r.flagged == r'.flagged &&
    match r.node, r'.node with
    | some m, some n => same m n
    | none, none => true
    | _, _ => false

/-- The list, its pool and its threads. -/
structure ReuseState (A V : Type*) where
  mem : A → Node (A × ℕ) V
  head : A × ℕ
  tail : A × ℕ
  readers : ℕ
  threads : ℕ → Thread (A × ℕ) V
  free : List A
  live : List (A × ℕ)
  count : ℕ

/-- A call is made, or a thread makes an access; `junk` is what the pool leaves in the words of free
nodes. -/
inductive ReuseAct (A V : Type*)
  | call (t : ℕ) (op : Op V)
  | step (t : ℕ) (weak : Bool) (junk : A → Ref (A × ℕ))

namespace ReuseState

variable (s : ReuseState A V)

/-- Whether an access is a compare-exchange that goes through. -/
def casOk (same : A × ℕ → A × ℕ → Bool) (weak : Bool) : Cmd (A × ℕ) V R → Bool
  | .cas n exp _ _ => !weak && (s.mem n.1).succ.agrees same exp
  | .casReaders exp _ _ => !weak && s.readers = exp
  | _ => false

/-- The node that `list_alloc_node` takes. -/
def fresh : Option (A × ℕ) :=
  match s.free with
  | a :: _ :: _ => some (a, s.count)
  | _ => none

/-- What comes after an access; `ok` tells whether its compare-exchange goes through. -/
def answer (ok : Bool) : Cmd (A × ℕ) V R → R
  | .load n k => k (s.mem n.1).succ
  | .loadKey n k => k (s.mem n.1).key
  | .loadBacklink n k => k (s.mem n.1).backlink
  | .loadVal n k => k (s.mem n.1).val
  | .loadReaders k => k s.readers
  | .cas _ _ _ k | .casReaders _ _ k => k ok
  | .alloc k => k s.fresh
  | .store _ _ k | .storeKey _ _ k | .storeBacklink _ _ k | .storeVal _ _ k | .free _ k
  | .subReaders k | .initReaders k => k

/-- Write to a node. -/
def setNode (n : A × ℕ) (x : Node (A × ℕ) V) : ReuseState A V :=
  { s with mem := Function.update s.mem n.1 x }

/-- What an access does to the memory. -/
def write (ok : Bool) (junk : A → Ref (A × ℕ)) : Cmd (A × ℕ) V R → ReuseState A V
  | .cas n _ new _ => bif ok then s.setNode n { s.mem n.1 with succ := new } else s
  | .store n r _ => s.setNode n { s.mem n.1 with succ := r }
  | .storeKey n key _ => s.setNode n { s.mem n.1 with key := key }
  | .storeBacklink n b _ => s.setNode n { s.mem n.1 with backlink := b }
  | .storeVal n v _ => s.setNode n { s.mem n.1 with val := some v }
  | .alloc _ =>
    match s.fresh with
    | some n => { s with free := s.free.tail, live := n :: s.live, count := s.count + 1 }
    | none => s
  | .free n _ =>
    { s with
      mem := fun a => if a ∈ s.free ++ [n.1] then { s.mem a with succ := junk a } else s.mem a
      free := s.free ++ [n.1]
      live := s.live.erase n }
  | .casReaders _ new _ => bif ok then { s with readers := new } else s
  | .subReaders _ => { s with readers := s.readers - 1 }
  | .initReaders _ => { s with readers := 0 }
  | .load _ _ | .loadKey _ _ | .loadBacklink _ _ | .loadVal _ _ | .loadReaders _ => s

/-- Keys lie strictly between those of the sentinels, and calls do not nest. -/
def next : ReuseAct A V → Option (ReuseState A V)
  | .call t op =>
    if (s.threads t).outside ∧ intptrMin < op.key ∧ op.key < intptrMax then
      some { s with threads := Function.update s.threads t ⟨[], op.pc s.head⟩ }
    else none
  | .step t weak junk => ((s.threads t).cmd sameAddr).map fun cmd =>
    let ok := s.casOk sameAddr weak cmd
    { s.write ok junk cmd with threads := Function.update s.threads t (s.answer ok cmd) }

/-- The nodes met by following `succ.node` from the head. -/
def chain : List (A × ℕ) := follow (fun n => s.mem n.1) s.live.length (some s.head)

end ReuseState

/-- What `list_create` makes: the two sentinels, and free nodes enough for `capacity` keys. -/
structure ReuseCreated (capacity : ℕ) (s : ReuseState A V) : Prop where
  head : s.mem s.head.1 = ⟨getUnmarkedRef (some s.tail), none, intptrMin, none⟩
  tail : s.mem s.tail.1 = ⟨getUnmarkedRef none, none, intptrMax, none⟩
  readers : s.readers = 0
  threads : ∀ t, (s.threads t).outside
  live : s.live = [s.head, s.tail]
  addr : (s.head.1 :: s.tail.1 :: s.free).Nodup
  room : s.free.length = capacity + 1
  count : ∀ n ∈ s.live, n.2 < s.count

/-- A new list at given addresses. -/
def ReuseState.new (head tail : A) (free : List A) : ReuseState A V where
  mem a :=
    if a = head then ⟨getUnmarkedRef (some (tail, 0)), none, intptrMin, none⟩
    else if a = tail then ⟨getUnmarkedRef none, none, intptrMax, none⟩
    else ⟨getUnmarkedRef none, none, 0, none⟩
  head := (head, 0)
  tail := (tail, 0)
  readers := 0
  threads _ := ⟨[], .idle⟩
  free := free
  live := [(head, 0), (tail, 0)]
  count := 1

/-- The list over its pool. -/
def reuseMachine : ListMachine (ReuseState A V) (ReuseAct A V) (A × ℕ) V where
  next := ReuseState.next
  call
    | .call t op => some (t, op)
    | .step _ _ _ => none
  mover
    | .call _ _ => none
    | .step t _ _ => some t
  chain := ReuseState.chain
  node s n := s.mem n.1
  threads s := s.threads

/-! ### Runs without a stale pointer -/

/-- The node that an access follows a pointer to. -/
def Cmd.node : Cmd N V R → Option N
  | .load n _ | .cas n _ _ _ | .store n _ _ | .loadKey n _ | .storeKey n _ _ | .loadBacklink n _
  | .storeBacklink n _ _ | .loadVal n _ | .storeVal n _ _ | .free n _ => some n
  | .alloc _ | .loadReaders _ | .casReaders _ _ _ | .subReaders _ | .initReaders _ => none

namespace ReuseState

variable (s : ReuseState A V)

/-- No pointer is followed to a node that was given back since. -/
def FollowsLive : ReuseAct A V → Prop
  | .call _ _ => True
  | .step t _ _ => ∀ cmd ∈ (s.threads t).cmd sameAddr, ∀ n ∈ cmd.node, n ∈ s.live

instance (a : ReuseAct A V) : Decidable (s.FollowsLive a) :=
  match a with
  | .call _ _ => inferInstanceAs (Decidable True)
  | .step t _ _ => inferInstanceAs (Decidable
      (∀ cmd ∈ (s.threads t).cmd sameAddr, ∀ n ∈ cmd.node, n ∈ s.live))

/-- No pointer to a node that was given back is taken for one to the node that has its address now:
the step goes on as if numbers were compared with the addresses. -/
def TellsApart : ReuseAct A V → Prop
  | .call _ _ => True
  | .step t weak _ => ∀ cmd ∈ (s.threads t).cmd sameAddr, ∀ cmd' ∈ (s.threads t).cmd samePtr,
      s.casOk sameAddr weak cmd = s.casOk samePtr weak cmd' ∧
      s.answer (s.casOk sameAddr weak cmd) cmd = s.answer (s.casOk samePtr weak cmd') cmd'

instance [DecidableEq V] (a : ReuseAct A V) : Decidable (s.TellsApart a) :=
  match a with
  | .call _ _ => inferInstanceAs (Decidable True)
  | .step t weak _ => inferInstanceAs (Decidable (∀ cmd ∈ (s.threads t).cmd sameAddr,
      ∀ cmd' ∈ (s.threads t).cmd samePtr,
        s.casOk sameAddr weak cmd = s.casOk samePtr weak cmd' ∧
        s.answer (s.casOk sameAddr weak cmd) cmd = s.answer (s.casOk samePtr weak cmd') cmd'))

/-- When the last of `try_flag`'s three first loads finds the predecessor flagged, it is flagged
on the target, or the target was deleted. -/
def OneWord : ReuseAct A V → Prop
  | .call _ _ => True
  | .step t _ _ => ∀ x ∈ (s.threads t).lastTest, (s.mem x.1.1).succ.flagged = true →
      (s.mem x.1.1).succ.node = some x.2 ∨ (x.2 ∈ s.live → (s.mem x.2.1).succ.marked = true)

instance (a : ReuseAct A V) : Decidable (s.OneWord a) :=
  match a with
  | .call _ _ => inferInstanceAs (Decidable True)
  | .step t _ _ => inferInstanceAs (Decidable (∀ x ∈ (s.threads t).lastTest,
      (s.mem x.1.1).succ.flagged = true → (s.mem x.1.1).succ.node = some x.2 ∨
        (x.2 ∈ s.live → (s.mem x.2.1).succ.marked = true)))

/-- The last compare-exchange with which `list_delete` unlinks its node does not fail although
the predecessor is flagged on the node. -/
def Unlinks : ReuseAct A V → Prop
  | .call _ _ => True
  | .step t weak _ => weak = true → ∀ x ∈ (s.threads t).unlinks,
      (s.mem x.1.1).succ ≠ getFlaggedRef (some x.2)

instance (a : ReuseAct A V) : Decidable (s.Unlinks a) :=
  match a with
  | .call _ _ => inferInstanceAs (Decidable True)
  | .step t weak _ => inferInstanceAs (Decidable (weak = true → ∀ x ∈ (s.threads t).unlinks,
      (s.mem x.1.1).succ ≠ getFlaggedRef (some x.2)))

/-- No `list_update` copies its value into a node that has been deleted. -/
def WritesLive : ReuseAct A V → Prop
  | .call _ _ => True
  | .step t _ _ => ∀ n ∈ (s.threads t).overwrites, (s.mem n.1).succ.marked = false

instance (a : ReuseAct A V) : Decidable (s.WritesLive a) :=
  match a with
  | .call _ _ => inferInstanceAs (Decidable True)
  | .step t _ _ => inferInstanceAs (Decidable (∀ n ∈ (s.threads t).overwrites,
      (s.mem n.1).succ.marked = false))

/-- What the moves of a run have to meet. -/
structure Orderly (a : ReuseAct A V) : Prop where
  followsLive : s.FollowsLive a
  tellsApart : s.TellsApart a
  oneWord : s.OneWord a
  unlinks : s.Unlinks a
  writesLive : s.WritesLive a

lemma orderly_iff {a : ReuseAct A V} : s.Orderly a ↔ s.FollowsLive a ∧ s.TellsApart a ∧
    s.OneWord a ∧ s.Unlinks a ∧ s.WritesLive a := by
  constructor
  · exact fun h => ⟨h.followsLive, h.tellsApart, h.oneWord, h.unlinks, h.writesLive⟩
  · rintro ⟨hlive, hapart, hone, hun, hwr⟩
    exact ⟨hlive, hapart, hone, hun, hwr⟩

instance [DecidableEq V] (a : ReuseAct A V) : Decidable (s.Orderly a) :=
  decidable_of_iff _ (orderly_iff s).symm

end ReuseState

end CoopTasks.LockFreeList
