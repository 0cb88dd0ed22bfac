import CoopTasks.ListChain
import CoopTasks.Machine

/-!
The list when no node is ever given back: `list_alloc_node` returns a node that was never used,
and `mempool_free` does nothing.
-/

namespace CoopTasks.LockFreeList

open CoopTasks.Machine

variable {N V R : Type*} [DecidableEq N]

/-- The list and its threads. `used` are the nodes allocated so far, `linked` those that were
linked, and `won` the targets that `try_flag` returned true for. -/
structure LinkState (N V : Type*) where
  node : N → Node N V
  head : N
  tail : N
  readers : ℕ
  threads : ℕ → Thread N V
  used : List N
  linked : List N
  won : List N

/-- Whether an access is a compare-exchange that goes through. -/
def LinkState.casOk (s : LinkState N V) (weak : Bool) : Cmd N V R → Bool
  | .cas n exp _ _ => !weak && (s.node n).succ = exp
  | _ => false

/-- Make one access; `fresh` is what an allocation returns. -/
def LinkState.exec (s : LinkState N V) (weak : Bool) (fresh : Option N) (cmd : Cmd N V R) :
    LinkState N V × R :=
  match cmd with
  | .load n k => (s, k (s.node n).succ)
  | .cas n exp new k =>
    bif s.casOk weak (.cas n exp new k) then ({ s with node := setSucc s.node n new }, k true)
    else (s, k false)
  | .store n r k => ({ s with node := setSucc s.node n r }, k)
  | .loadKey n k => (s, k (s.node n).key)
  | .storeKey n key k =>
    ({ s with node := Function.update s.node n { s.node n with key := key } }, k)
  | .loadBacklink n k => (s, k (s.node n).backlink)
  | .storeBacklink n b k => ({ s with node := setBacklink s.node n b }, k)
  | .loadVal n k => (s, k (s.node n).val)
  | .storeVal n v k =>
    ({ s with node := Function.update s.node n { s.node n with val := some v } }, k)
  | .alloc k => ({ s with used := fresh.toList ++ s.used }, k fresh)
  | .free _ k => (s, k)
  | .loadReaders k => (s, k s.readers)
  | .casReaders exp new k =>
    if !weak && s.readers = exp then ({ s with readers := new }, k true) else (s, k false)
  | .subReaders k => ({ s with readers := s.readers - 1 }, k)
  | .initReaders k => ({ s with readers := 0 }, k)

/-- What a thread's compare-exchange means when it goes through. -/
def Thread.effect (th : Thread N V) : Effect N :=
  match th.helps, th.pc with
  | { del, pc := .tryMark (.cas _), .. } :: _, _ => .marked del
  | [], .insert _ _ (.cas _ _ node) => .linked node
  | [], .tryFlag _ _ _ target .cas => .flagged target
  | _, _ => .none

/-- A call is made, or a thread makes an access. -/
inductive LinkAct (N V : Type*)
  | call (t : ℕ) (op : Op V)
  | step (t : ℕ) (weak : Bool) (fresh : Option N)
  deriving DecidableEq, Repr

/-- What an action means for the list. -/
def LinkState.effect (s : LinkState N V) : LinkAct N V → Effect N
  | .call _ _ => .none
  | .step t weak _ =>
    bif ((s.threads t).cmd (· == ·)).any (s.casOk weak) then (s.threads t).effect else .none

/-- Keys lie strictly between those of the sentinels, calls do not nest, and allocated nodes are
new. -/
def LinkState.next (s : LinkState N V) (a : LinkAct N V) : Option (LinkState N V) :=
  match a with
  | .call t op =>
    if (s.threads t).outside ∧ intptrMin < op.key ∧ op.key < intptrMax then
      some { s with threads := Function.update s.threads t ⟨[], op.pc s.head⟩ }
    else none
  | .step t weak fresh =>
    if ∀ n ∈ fresh, n ∉ s.used then
      ((s.threads t).cmd (· == ·)).map fun cmd =>
        let (s', th) := s.exec weak fresh cmd
        { s' with
          threads := Function.update s'.threads t th
          linked := (s.effect a).link s'.linked
          won := (s.effect a).win s'.won }
    else none

/-- What `list_create` makes: the two sentinels, and nodes that were never used. -/
structure LinkCreated (s : LinkState N V) : Prop where
  ne : s.head ≠ s.tail
  head : s.node s.head = ⟨getUnmarkedRef (some s.tail), none, intptrMin, none⟩
  tail : s.node s.tail = ⟨getUnmarkedRef none, none, intptrMax, none⟩
  unflagged : ∀ n, (s.node n).succ.flagged = false
  readers : s.readers = 0
  threads : ∀ t, (s.threads t).outside
  used : s.used = [s.head, s.tail]
  linked : s.linked = [s.head, s.tail]
  won : s.won = []

/-- A new list. -/
def LinkState.new (head tail : N) : LinkState N V where
  node n :=
    if n = head then ⟨getUnmarkedRef (some tail), none, intptrMin, none⟩
    else if n = tail then ⟨getUnmarkedRef none, none, intptrMax, none⟩
    else ⟨getUnmarkedRef none, none, 0, none⟩
  head := head
  tail := tail
  readers := 0
  threads _ := ⟨[], .idle⟩
  used := [head, tail]
  linked := [head, tail]
  won := []

/-- The predecessor and the target of a `try_flag` that makes the last of its three first loads. -/
def Thread.lastTest (th : Thread N V) : Option (N × N) :=
  match th.helps, th.pc with
  | [], .tryFlag _ _ prev target .testFlagged => some (prev, target)
  | _, _ => none

/-- When the last of `try_flag`'s three first loads finds the predecessor flagged, it is flagged
on the target, or the target is marked. -/
def OneWord (s : LinkState N V) : LinkAct N V → Prop
  | .call _ _ => True
  | .step t _ _ => ∀ x ∈ (s.threads t).lastTest, (s.node x.1).succ.flagged = true →
      (s.node x.1).succ.node = some x.2 ∨ (s.node x.2).succ.marked = true

instance (s : LinkState N V) (a : LinkAct N V) : Decidable (OneWord s a) :=
  match a with
  | .call _ _ => inferInstanceAs (Decidable True)
  | .step t _ _ => inferInstanceAs (Decidable (∀ x ∈ (s.threads t).lastTest,
      (s.node x.1).succ.flagged = true →
        (s.node x.1).succ.node = some x.2 ∨ (s.node x.2).succ.marked = true))

/-- The nodes from `n` on, at most `k` of them. -/
def follow (node : N → Node N V) : ℕ → Option N → List N
  | 0, _ => []
  | _, none => []
  | k + 1, some n => n :: follow node k (node n).succ.node

/-- The nodes met by following `succ.node` from the head. -/
def LinkState.chain (s : LinkState N V) : List N :=
  follow s.node s.linked.length (some s.head)

end CoopTasks.LockFreeList
