import CoopTasks.ListLinear

/-!
`list_dump` on a list that changes under it.

It follows the pointers from the head to the tail, without a look at the marks, and gives the key of
each node that it comes to to `printf`. These keys are recorded here as the signed numbers that they
are; the format `PRIuPTR` shows a negative one modulo `2 ^ 64`. A node that the dump comes to was on
the chain at some moment since it was called, and no key lay between two nodes that it comes to one
after the other at the moment at which they were neighbours.
-/

namespace CoopTasks.LockFreeList

open CoopTasks.Machine ListMachine

/-- Where `list_dump` stands: before it loads the pointer of `curr`, or before it prints its key;
`null` is the place before a null pointer is followed. -/
inductive DumpPc (N : Type*)
  | load (curr : N)
  | print (curr : N)
  | null
  | done
  deriving DecidableEq, Repr

/-- A list, and a thread that dumps it: where it stands, and the keys that it gave to `printf`. -/
structure Dump (σ N : Type*) where
  list : σ
  pc : DumpPc N
  printed : List ℤ

variable {σ ℓ τ κ N V : Type*}

/-- The node that a dump follows a pointer to. -/
def DumpPc.node : DumpPc N → Option N
  | .load curr | .print curr => some curr
  | .null | .done => none

namespace ListMachine

variable (M : ListMachine σ ℓ N V) (same : N → N → Bool)

/-- `list_dump` is called. -/
def dump (head : N) (s : σ) : Dump σ N := ⟨s, .load head, []⟩

/-- The list makes a move, or the dump a step; `same` compares two addresses. -/
def dumpNext (tail : N) (d : Dump σ N) : Option ℓ → Option (Dump σ N)
  | some a => (M.next d.list a).map fun s => { d with list := s }
  | none =>
    match d.pc with
    | .load curr =>
      match (M.node d.list curr).succ.node with
      | some n => some { d with pc := bif same n tail then .done else .print n }
      | none => some { d with pc := .null }
    | .print curr =>
      some { d with pc := .load curr, printed := d.printed ++ [(M.node d.list curr).key] }
    | .null | .done => none

/-- Something was so at some moment of a dump. -/
def During (P : σ → Prop) (ls : List (Dump σ N × Option ℓ)) (d : Dump σ N) : Prop :=
  P d.list ∨ ∃ x ∈ ls, P x.1.list

/-- What a dump gives to `printf`: keys in ascending order, each that of a node that was on the
chain at some moment of the dump, and in the end all keys that were in the list throughout. -/
structure Dumped (ls : List (Dump σ N × Option ℓ)) (d : Dump σ N) : Prop where
  null : d.pc ≠ .null
  sorted : d.printed.Pairwise (· < ·)
  inner : ∀ k ∈ d.printed, intptrMin < k ∧ k < intptrMax
  seen : ∀ k ∈ d.printed, During (fun s => ∃ n ∈ M.chain s, (M.node s n).key = k) ls d
  complete : d.pc = .done → ∀ k, intptrMin < k → k < intptrMax → k ∉ d.printed →
    During (fun s => ∀ v, ¬ M.Stored s k v) ls d

/-- The moves that the list makes meanwhile. -/
def listMoves (ls : List (Dump σ N × Option ℓ)) : List (σ × ℓ) :=
  ls.filterMap fun x => x.2.map fun a => (x.1.list, a)

/-! ### Two machines -/

section

variable {M} {M' : ListMachine τ κ N V} {d : Dump σ N} {d' : Dump τ N}
  {ls : List (Dump σ N × Option ℓ)} {ls' : List (Dump τ N × Option κ)}

lemma During.mirror {P : σ → Prop} {P' : τ → Prop}
    (hall : List.Forall₂ (fun x x' => Mirrors M M' x.1.list x'.1.list) ls ls')
    (hd : Mirrors M M' d.list d'.list) (himp : ∀ s s', Mirrors M M' s s' → P' s' → P s)
    (h : During P' ls' d') : During P ls d := by
  rcases h with h | ⟨x', hx', h⟩
  · exact .inl (himp _ _ hd h)
  · obtain ⟨x, hx, hxx⟩ := forall₂_mem hall.flip hx'
    exact .inr ⟨x, hx, himp _ _ hxx h⟩

lemma Dumped.mirror
    (hall : List.Forall₂ (fun x x' => Mirrors M M' x.1.list x'.1.list) ls ls')
    (hd : Mirrors M M' d.list d'.list) (hpc : d'.pc = d.pc) (hprinted : d'.printed = d.printed)
    (h : M'.Dumped ls' d') : M.Dumped ls d where
  null := hpc ▸ h.null
  sorted := hprinted ▸ h.sorted
  inner := hprinted ▸ h.inner
  seen k hk := by
    refine (h.seen k (hprinted ▸ hk)).mirror hall hd fun s s' hm => ?_
    rintro ⟨n, hn, hkey⟩
    rw [← hm.chain] at hn
    exact ⟨n, hn, by rw [hm.node n hn]; exact hkey⟩
  complete hdone k hlow hhigh hk := by
    refine (h.complete (hpc.trans hdone) k hlow hhigh (hprinted ▸ hk)).mirror hall hd
      fun s s' hm hno v hv => ?_
    exact hno v (hm.stored hv)

end

end ListMachine

/-! ### A list whose nodes are never given back -/

variable [DecidableEq N] {s s' s₀ : LinkState N V} {a : LinkAct N V} {c : List N} {n m : N}
  {recent : List (LinkState N V × LinkAct N V)}

/-- A node that was on the chain had the successor that it has now at that moment, or since. -/
def Passed (recent : List (LinkState N V × LinkAct N V)) (s : LinkState N V) : Prop :=
  ∀ n m, Was (Chains n) recent s → (s.node n).succ.marked = true →
    (s.node n).succ.node = some m →
      Was (Parted (s.node n).key (s.node m).key) recent s ∧ Was (Chains m) recent s

lemma LinkInv.neighbours (h : LinkInv s c) (hn : Chains n s)
    (hs : (s.node n).succ.node = some m) :
    Parted (s.node n).key (s.node m).key s ∧ Chains m s := by
  have hn : n ∈ s.chain := hn
  rw [h.chain_eq] at hn
  refine ⟨fun q hq => h.chained.gap hn hs ?_, ?_⟩
  · exact h.chained.kept q (h.alive_iff.mp hq).1 hq.2
  · show m ∈ s.chain
    rw [h.chain_eq]
    exact h.chained.succ_mem hn hs

lemma passed_nil (h : LinkInv s c) : Passed [] s := by
  intro n m hn hmark hs
  rcases hn with hn | ⟨x, hx, -⟩
  · obtain ⟨hparted, hm⟩ := h.neighbours hn hs
    exact ⟨.inl hparted, .inl hm⟩
  · simp at hx

/-- An unmarked node that was on the chain is there still. -/
lemma chains_unmarked (h : LinkInv s c) (htrail : Trail recent s) (hn : Was (Chains n) recent s)
    (hm : (s.node n).succ.marked = false) : Chains n s := by
  show n ∈ s.chain
  rw [h.chain_eq]
  exact h.chained.kept n (htrail.linked n hn) hm

lemma Passed.cons (h : LinkInv s c) (hok : Orderly s a) (hs : s.next a = some s')
    (htrail : Trail recent s) (hpassed : Passed recent s) : Passed ((s, a) :: recent) s' := by
  obtain ⟨c', h', hst, hev⟩ := linkInv_step h hok.oneWord hs
  intro n m hn hmark hnext
  rcases was_cons hn with hn | hn
  · obtain ⟨hparted, hm⟩ := h'.neighbours hn hnext
    exact ⟨.inl hparted, .inl hm⟩
  · have hl := htrail.linked n hn
    have hold : (s.node n).succ.node = some m ∧
        Was (Parted (s.node n).key (s.node m).key) recent s ∧ Was (Chains m) recent s := by
      cases hm : (s.node n).succ.marked with
      | true =>
        rw [hev.frozen n hl hm] at hnext
        exact ⟨hnext, hpassed n m hn hm hnext⟩
      | false =>
        -- the word is from the moment before the node was marked
        obtain ⟨-, -, -, hsame⟩ := hst.move.marks hl hm hmark
        rw [hsame] at hnext
        obtain ⟨hparted, hmc⟩ := h.neighbours (chains_unmarked h htrail hn hm) hnext
        exact ⟨hnext, .inl hparted, .inl hmc⟩
    obtain ⟨hnext, hparted, hm⟩ := hold
    rw [hev.key n hl, hev.key m (h.chained.succ_key hl hnext).1]
    exact ⟨hparted.cons, hm.cons⟩

lemma Passed.next (h : LinkInv s c) (htrail : Trail recent s) (hpassed : Passed recent s)
    (hn : Was (Chains n) recent s) (hs : (s.node n).succ.node = some m) :
    Was (Parted (s.node n).key (s.node m).key) recent s ∧ Was (Chains m) recent s := by
  cases hm : (s.node n).succ.marked with
  | true => exact hpassed n m hn hm hs
  | false =>
    obtain ⟨hparted, hmc⟩ := h.neighbours (chains_unmarked h htrail hn hm) hs
    exact ⟨.inl hparted, .inl hmc⟩

/-! ### What a dump has seen -/

/-- All keys below this one have been dealt with. -/
def DumpPc.reached (node : N → Node N V) : DumpPc N → ℤ
  | .load curr => (node curr).key + 1
  | .print curr => (node curr).key
  | .null | .done => intptrMax

structure DumpSees (recent : List (LinkState N V × LinkAct N V)) (s : LinkState N V)
    (pc : DumpPc N) (printed : List ℤ) : Prop where
  node : ∀ n ∈ pc.node, Was (Chains n) recent s ∧ n ≠ s.tail
  null : pc ≠ .null
  above : intptrMin < pc.reached s.node
  covered : ∀ k, intptrMin < k → k < pc.reached s.node → k ∈ printed ∨ Was (Lacks k) recent s
  below : ∀ k ∈ printed, intptrMin < k ∧ k < pc.reached s.node
  sorted : printed.Pairwise (· < ·)
  seen : ∀ k ∈ printed, Was (fun u => ∃ n, Chains n u ∧ (u.node n).key = k) recent s

variable {pc pc' : DumpPc N} {printed : List ℤ}

lemma dumpSees_head (h : LinkInv s c) : DumpSees [] s (.load s.head) [] := by
  have hkey : (s.node s.head).key = intptrMin := h.chained.head_key
  constructor
  · rintro n ⟨rfl⟩
    refine ⟨.inl ?_, fun heq => ?_⟩
    · show s.head ∈ s.chain
      rw [h.chain_eq]
      exact h.chained.head_mem
    · have htail := h.chained.tail_key
      rw [← heq, hkey] at htail
      simp [intptrMin, intptrMax] at htail
  · simp
  · show intptrMin < (s.node s.head).key + 1
    omega
  · intro k hlow hhigh
    have hhigh : k < (s.node s.head).key + 1 := hhigh
    omega
  · simp
  · exact .nil
  · simp

lemma DumpSees.cons (htrail : Trail recent s)
    (hev : Evolves s.node s.linked s'.node s'.linked) (htail : s'.tail = s.tail)
    (h : DumpSees recent s pc printed) : DumpSees ((s, a) :: recent) s' pc printed := by
  have hreached : pc.reached s'.node = pc.reached s.node := by
    cases pc with
    | load curr | print curr =>
      have hl := htrail.linked curr (h.node curr rfl).1
      simp only [DumpPc.reached, hev.key curr hl]
    | null | done => rfl
  constructor
  · intro n hn
    obtain ⟨hwas, hne⟩ := h.node n hn
    exact ⟨hwas.cons, htail ▸ hne⟩
  · exact h.null
  · rw [hreached]
    exact h.above
  · intro k hlow hhigh
    rw [hreached] at hhigh
    exact (h.covered k hlow hhigh).imp_right Was.cons
  · rw [hreached]
    exact h.below
  · exact h.sorted
  · exact fun k hk => (h.seen k hk).cons

lemma DumpSees.next (hI : LinkInv s c) (htrail : Trail recent s) (hpassed : Passed recent s)
    (h : DumpSees recent s (.load n) printed) (hs : (s.node n).succ.node = some m) :
    DumpSees recent s (bif decide (m = s.tail) then .done else .print m) printed := by
  obtain ⟨hn, hne⟩ := h.node n rfl
  obtain ⟨hparted, hm⟩ := hpassed.next hI htrail hn hs
  obtain ⟨hl, hkey⟩ := hI.chained.succ_key (htrail.linked n hn) hs
  have habove : intptrMin < (s.node n).key + 1 := h.above
  -- no key between the two
  have hcovered : ∀ k, intptrMin < k → k < (s.node m).key →
      k ∈ printed ∨ Was (Lacks k) recent s := fun k hlow hhigh => by
    by_cases hk : k < (s.node n).key + 1
    · exact h.covered k hlow hk
    · refine .inr (hparted.imp fun u hu q hq hqk => ?_)
      rcases hu q hq with hle | hle <;> omega
  have hbelow : ∀ k ∈ printed, intptrMin < k ∧ k < (s.node m).key := fun k hk => by
    obtain ⟨hlow, hhigh⟩ := h.below k hk
    have hhigh : k < (s.node n).key + 1 := hhigh
    exact ⟨hlow, by omega⟩
  by_cases heq : m = s.tail
  · have hmax : (s.node m).key = intptrMax := by rw [heq, hI.chained.tail_key]
    rw [hmax] at hcovered hbelow
    simp only [heq, decide_true, cond_true]
    exact ⟨by simp [DumpPc.node], by simp, by simp [DumpPc.reached, intptrMin, intptrMax],
      hcovered, hbelow, h.sorted, h.seen⟩
  · rw [decide_eq_false heq, cond_false]
    refine ⟨?_, by simp, ?_, hcovered, hbelow, h.sorted, h.seen⟩
    · rintro q ⟨rfl⟩
      exact ⟨hm, heq⟩
    · show intptrMin < (s.node m).key
      omega

/-- Nodes keep their keys. -/
def KeysKept (recent : List (LinkState N V × LinkAct N V)) (s : LinkState N V) : Prop :=
  ∀ x ∈ recent, ∀ n, Chains n x.1 → (x.1.node n).key = (s.node n).key

lemma KeysKept.cons (hev : Evolves s.node s.linked s'.node s'.linked)
    (htrail : Trail recent s) (hkept : KeysKept recent s) : KeysKept ((s, a) :: recent) s' := by
  intro x hx n hn
  rcases List.mem_cons.mp hx with rfl | hx
  · exact (hev.key n (htrail.linked n (.inl hn))).symm
  · rw [hev.key n (htrail.linked n (.inr ⟨x, hx, hn⟩))]
    exact hkept x hx n hn

lemma DumpSees.print (hkept : KeysKept recent s) (h : DumpSees recent s (.print n) printed) :
    DumpSees recent s (.load n) (printed ++ [(s.node n).key]) := by
  have habove : intptrMin < (s.node n).key := h.above
  constructor
  · exact h.node
  · simp
  · show intptrMin < (s.node n).key + 1
    omega
  · intro k hlow hhigh
    have hhigh : k < (s.node n).key + 1 := hhigh
    by_cases hk : k = (s.node n).key
    · exact .inl (by simp [hk])
    · have hlt : k < (s.node n).key := by omega
      exact (h.covered k hlow hlt).imp_left fun hk => by simp [hk]
  · intro k hk
    show intptrMin < k ∧ k < (s.node n).key + 1
    rcases List.mem_append.mp hk with hk | hk
    · obtain ⟨hlow, hhigh⟩ := h.below k hk
      have hhigh : k < (s.node n).key := hhigh
      omega
    · obtain rfl := List.mem_singleton.mp hk
      omega
  · refine List.pairwise_append.mpr ⟨h.sorted, by simp, fun k hk q hq => ?_⟩
    obtain rfl := List.mem_singleton.mp hq
    exact (h.below k hk).2
  · intro k hk
    rcases List.mem_append.mp hk with hk | hk
    · exact h.seen k hk
    · obtain rfl := List.mem_singleton.mp hk
      rcases (h.node n rfl).1 with hn | ⟨x, hx, hn⟩
      · exact .inl ⟨n, hn, rfl⟩
      · exact .inr ⟨x, hx, n, hn, hkept x hx n hn⟩

/-! ### A dump -/

/-- A dump of a list whose nodes are never given back. -/
def linkDump (tail : N) : Dump (LinkState N V) N → Option (LinkAct N V) →
    Option (Dump (LinkState N V) N) :=
  linkMachine.dumpNext (fun n m => n = m) tail

/-- What the moves of the list have to meet. -/
def DumpOrderly (d : Dump (LinkState N V) N) : Option (LinkAct N V) → Prop
  | some a => Orderly d.list a
  | none => True

variable {d d' : Dump (LinkState N V) N}
  {ls : List (Dump (LinkState N V) N × Option (LinkAct N V))}

/-- What holds while a list is dumped. -/
structure Dumping (tail : N) (ls : List (Dump (LinkState N V) N × Option (LinkAct N V)))
    (d : Dump (LinkState N V) N) : Prop where
  link : ∃ c, LinkInv d.list c
  tail_eq : d.list.tail = tail
  segment : Segment (listMoves ls) d.list
  trail : Trail (listMoves ls) d.list
  passed : Passed (listMoves ls) d.list
  kept : KeysKept (listMoves ls) d.list
  sees : DumpSees (listMoves ls) d.list d.pc d.printed

lemma dumping_step {tail : N} {l : Option (LinkAct N V)} (h : Dumping tail ls d)
    (hok : DumpOrderly d l) (hs : linkDump tail d l = some d') :
    Dumping tail ((d, l) :: ls) d' := by
  obtain ⟨c, hI⟩ := h.link
  cases l with
  | some a =>
    obtain ⟨s', hnext, rfl⟩ := Option.map_eq_some_iff.mp hs
    have hnext : d.list.next a = some s' := hnext
    have hok : Orderly d.list a := hok
    obtain ⟨c', hI', hst, hev⟩ := linkInv_step hI hok.oneWord hnext
    constructor
    · exact ⟨c', hI'⟩
    · exact hst.tail.trans h.tail_eq
    · exact h.segment.cons hI hok hnext
    · exact h.trail.cons hI hok hnext h.segment
    · exact h.passed.cons hI hok hnext h.trail
    · exact h.kept.cons hev h.trail
    · exact h.sees.cons h.trail hev hst.tail
  | none =>
    have hsame : ∀ {pc printed}, DumpSees (listMoves ls) d.list pc printed →
        Dumping tail ((d, none) :: ls) { d with pc := pc, printed := printed } := fun hsees =>
      ⟨h.link, h.tail_eq, h.segment, h.trail, h.passed, h.kept, hsees⟩
    have hsees := h.sees
    cases hpc : d.pc with
    | load curr =>
      rw [hpc] at hsees
      simp only [linkDump, dumpNext, hpc] at hs
      have hnull : (d.list.node curr).succ.node ≠ none := fun hnone => by
        obtain ⟨hn, hne⟩ := hsees.node curr rfl
        obtain ⟨m, -, hm, -⟩ := hI.chained.next curr (h.trail.linked curr hn) hne
        rw [hnone] at hm
        cases hm
      cases hnext : (d.list.node curr).succ.node with
      | none => exact absurd hnext hnull
      | some m =>
        have hnode : (linkMachine.node d.list curr).succ.node = some m := hnext
        rw [hnode] at hs
        cases hs
        have hnew := hsees.next hI h.trail h.passed hnext
        rw [h.tail_eq] at hnew
        exact hsame hnew
    | print curr =>
      rw [hpc] at hsees
      simp only [linkDump, dumpNext, hpc] at hs
      cases hs
      exact hsame (hsees.print h.kept)
    | null | done => simp [linkDump, dumpNext, hpc] at hs

lemma dumping_start (h : LinkInv s c) : Dumping s.tail [] (dump s.head s) where
  link := ⟨c, h⟩
  tail_eq := rfl
  segment := segment_nil h
  trail := trail_nil h
  passed := passed_nil h
  kept x hx := by cases hx
  sees := dumpSees_head h

omit [DecidableEq N] in
lemma Was.during {P : LinkState N V → Prop} (h : Was P (listMoves ls) d.list) : During P ls d := by
  rcases h with h | ⟨x, hx, h⟩
  · exact .inl h
  · obtain ⟨y, hy, heq⟩ := List.mem_filterMap.mp hx
    obtain ⟨a, -, rfl⟩ := Option.map_eq_some_iff.mp heq
    exact .inr ⟨y, hy, h⟩

lemma Dumping.dumped {tail : N} (h : Dumping tail ls d) : linkMachine.Dumped ls d := by
  obtain ⟨c, hI⟩ := h.link
  constructor
  · exact h.sees.null
  · exact h.sees.sorted
  · intro k hk
    obtain ⟨hlow, hhigh⟩ := h.sees.below k hk
    refine ⟨hlow, ?_⟩
    cases hpc : d.pc with
    | load curr =>
      rw [hpc] at hhigh
      obtain ⟨hn, hne⟩ := h.sees.node curr (by rw [hpc]; rfl)
      obtain ⟨m, hm, -, hkey⟩ := hI.chained.next curr (h.trail.linked curr hn) hne
      have hmax := hI.chained.le_key hm
      have hhigh : k < (d.list.node curr).key + 1 := hhigh
      omega
    | print curr =>
      rw [hpc] at hhigh
      obtain ⟨hn, -⟩ := h.sees.node curr (by rw [hpc]; rfl)
      have hmax := hI.chained.le_key (h.trail.linked curr hn)
      have hhigh : k < (d.list.node curr).key := hhigh
      omega
    | null | done =>
      rw [hpc] at hhigh
      exact hhigh
  · intro k hk
    exact (h.sees.seen k hk).during
  · intro hdone k hlow hhigh hk
    have hreached : d.pc.reached d.list.node = intptrMax := by
      rw [hdone]
      rfl
    have hlacks := (h.sees.covered k hlow (by rw [hreached]; exact hhigh)).resolve_left hk
    refine (hlacks.imp fun u hu v hv => ?_).during
    obtain ⟨n, hn, hkey, -⟩ := hv
    exact hu n hn hkey

/-! ### A list whose nodes are used again -/

/-- The list moves without a stale pointer, and the dump follows none to a node that was given back
and takes none for the one to the tail. -/
def ReuseState.DumpOrderly {A : Type*} [DecidableEq A] (d : Dump (ReuseState A V) (A × ℕ)) :
    Option (ReuseAct A V) → Prop
  | some a => d.list.Orderly a
  | none => ∀ n ∈ d.pc.node, n ∈ d.list.live ∧
      ∀ m ∈ (d.list.mem n.1).succ.node, sameAddr m d.list.tail = samePtr m d.list.tail

instance {A : Type*} [DecidableEq A] [DecidableEq V] (d : Dump (ReuseState A V) (A × ℕ)) :
    (l : Option (ReuseAct A V)) → Decidable (ReuseState.DumpOrderly d l)
  | some a => inferInstanceAs (Decidable (d.list.Orderly a))
  | none => inferInstanceAs (Decidable (∀ n ∈ d.pc.node, n ∈ d.list.live ∧
      ∀ m ∈ (d.list.mem n.1).succ.node, sameAddr m d.list.tail = samePtr m d.list.tail))

variable {A : Type*} [DecidableEq A] {w w₀ : ReuseState A V} {capacity : ℕ}
  {runs : List (ReuseState A V × ReuseAct A V)} {e e' : Dump (ReuseState A V) (A × ℕ)}
  {es : List (Dump (ReuseState A V) (A × ℕ) × Option (ReuseAct A V))}

variable {recent' : List (LinkState (A × ℕ) V × LinkAct (A × ℕ) V)}
  {l : Option (ReuseAct A V)}

/-- A dump of a list and one of its shadow stand at the same place. -/
structure DumpShadow (e : Dump (ReuseState A V) (A × ℕ))
    (d : Dump (LinkState (A × ℕ) V) (A × ℕ)) : Prop where
  list : Shadow e.list d.list
  pc : d.pc = e.pc
  printed : d.printed = e.printed

lemma list_trace
    (hd : Trace (linkDump s.tail) DumpOrderly (dump s.head s) ls d) :
    Trace LinkState.next Orderly s (listMoves ls) d.list := by
  refine hd.inv (I := fun ls d => Trace LinkState.next Orderly s (listMoves ls) d.list) .refl
    fun ls d l d' ih hok hs => ?_
  cases l with
  | some a =>
    obtain ⟨s', hnext, rfl⟩ := Option.map_eq_some_iff.mp hs
    exact ih.step hok hnext
  | none =>
    have hsame : d'.list = d.list := by
      cases hpc : d.pc with
      | load curr =>
        simp only [linkDump, dumpNext, hpc] at hs
        cases hnext : (linkMachine.node d.list curr).succ.node <;> rw [hnext] at hs <;>
          obtain rfl := Option.some.inj hs <;> rfl
      | print curr =>
        simp only [linkDump, dumpNext, hpc] at hs
        obtain rfl := Option.some.inj hs
        rfl
      | null | done => simp [linkDump, dumpNext, hpc] at hs
    show Trace _ _ _ (listMoves ls) d'.list
    rw [hsame]
    exact ih

lemma DumpShadow.step {tail : A × ℕ} {d : Dump (LinkState (A × ℕ) V) (A × ℕ)}
    {ls : List (Dump (LinkState (A × ℕ) V) (A × ℕ) × Option (LinkAct (A × ℕ) V))}
    (h : DumpShadow e d) (hist : History recent' d.list) (hdump : Dumping tail ls d)
    (hok : ReuseState.DumpOrderly e l)
    (hs : reuseMachine.dumpNext sameAddr e.list.tail e l = some e') :
    ∃ l' d', DumpOrderly d l' ∧ linkDump tail d l' = some d' ∧ DumpShadow e' d' := by
  obtain ⟨c, hI⟩ := hist.link
  cases l with
  | some a =>
    obtain ⟨s', hnext, rfl⟩ := Option.map_eq_some_iff.mp hs
    have hoku := h.list.orderly hI hok
    obtain ⟨u', hu, hshadow⟩ := h.list.step hist hok hnext
    refine ⟨some (e.list.shadow a), { d with list := u' }, hoku, ?_, hshadow, h.pc, h.printed⟩
    exact Option.map_eq_some_iff.mpr ⟨u', hu, rfl⟩
  | none =>
    have htail : e.list.tail = tail := by rw [← h.list.tail, hdump.tail_eq]
    have hnode : ∀ n ∈ e.pc.node, d.list.node n = e.list.mem n.1 := fun n hn => by
      refine h.list.linked_node hI (hdump.trail.linked n ?_) (hok n hn).1
      exact (hdump.sees.node n (by rw [h.pc]; exact hn)).1
    cases hpc : e.pc with
    | load curr =>
      have hcurr : (e.pc).node = some curr := by rw [hpc]; rfl
      have hmem : reuseMachine.node e.list curr = linkMachine.node d.list curr :=
        (hnode curr hcurr).symm
      simp only [dumpNext, hpc, hmem] at hs
      refine ⟨none, ?_⟩
      simp only [linkDump, dumpNext, h.pc, hpc]
      cases hnext : (linkMachine.node d.list curr).succ.node with
      | none =>
        rw [hnext] at hs
        obtain rfl := Option.some.inj hs
        exact ⟨_, trivial, rfl, h.list, rfl, h.printed⟩
      | some m =>
        rw [hnext] at hs
        obtain rfl := Option.some.inj hs
        refine ⟨_, trivial, rfl, h.list, ?_, h.printed⟩
        have hsame := (hok curr hcurr).2 m (by
          rw [← hnode curr hcurr]
          exact hnext)
        rw [hsame, htail]
        rfl
    | print curr =>
      have hcurr : (e.pc).node = some curr := by rw [hpc]; rfl
      have hmem : reuseMachine.node e.list curr = linkMachine.node d.list curr :=
        (hnode curr hcurr).symm
      simp only [dumpNext, hpc, hmem] at hs
      obtain rfl := Option.some.inj hs
      refine ⟨none, ?_⟩
      simp only [linkDump, dumpNext, h.pc, hpc]
      refine ⟨_, trivial, rfl, h.list, rfl, ?_⟩
      simp only [h.printed]
    | null | done => simp [dumpNext, hpc] at hs

/-- **`list_dump`** on a list that changes under it never follows a null pointer, and gives `printf`
keys in ascending order, each that of a node that was on the chain at some moment of the dump; when
it is done, it has given it all keys that were in the list throughout. -/
theorem list_dump (h₀ : ReuseCreated capacity w₀)
    (h : Trace ReuseState.next ReuseState.Orderly w₀ runs w)
    (hd : Trace (reuseMachine.dumpNext sameAddr w.tail) ReuseState.DumpOrderly (dump w.head w)
      es e) :
    reuseMachine.Dumped es e := by
  obtain ⟨u₀, moves', u, hcreated, htrace, hshadow, -⟩ := reuse_follows h₀ h
  obtain ⟨c, hI⟩ := (history_trace hcreated htrace).link
  have hdumping : ∀ ls d,
      Trace (linkDump u.tail) DumpOrderly (dump u.head u) ls d →
        Dumping u.tail ls d := fun ls d hd =>
    hd.inv (I := Dumping u.tail) (dumping_start hI) fun _ _ _ _ h hok hs => dumping_step h hok hs
  have hstart : DumpShadow (dump w.head w) (dump u.head u) := by
    refine ⟨hshadow, ?_, rfl⟩
    simp only [dump, hshadow.head]
  have hstep : ∀ e l e' ls d,
      Trace (linkDump u.tail) DumpOrderly (dump u.head u) ls d →
      (DumpShadow e d ∧ ∃ c, LinkInv d.list c) → ReuseState.DumpOrderly e l →
      reuseMachine.dumpNext sameAddr w.tail e l = some e' →
      ∃ l' d', DumpOrderly d l' ∧ linkDump u.tail d l' = some d' ∧
        True ∧ DumpShadow e' d' ∧ ∃ c, LinkInv d'.list c := fun e l e' ls d hd hR hok hs => by
    have hdump := hdumping ls d hd
    have hist := history_trace hcreated (htrace.trans (list_trace hd))
    have htail : e.list.tail = w.tail := by
      rw [← hR.1.list.tail, hdump.tail_eq, hshadow.tail]
    rw [← htail] at hs
    obtain ⟨l', d', hok', hs', hshadow'⟩ := hR.1.step hist hdump hok hs
    exact ⟨l', d', hok', hs', trivial, hshadow', (dumping_step hdump hok' hs').link⟩
  obtain ⟨ls, d, hd', hR, hall⟩ :=
    hd.simulate (A := fun _ _ => True) hstep ⟨hstart, c, hI⟩
  obtain ⟨c', hI'⟩ := hR.2
  refine (hdumping ls d hd').dumped.mirror (hall.imp fun x x' hx => ?_)
    (hR.1.list.mirrors hI') hR.1.pc hR.1.printed
  obtain ⟨⟨hsh, c, hI⟩, -⟩ := hx
  exact hsh.list.mirrors hI

/-! ### A dump that a deletion and an insertion meet -/

/-- 3 is printed and then deleted, but not given back, and 5 comes in behind it. -/
def meddledDump : List (Option (ReuseAct ℕ ℕ)) :=
  List.flatten [[none, none], (reuseCall 0 (.delete 3 true) 19).map some,
    (reuseCall 1 (.insert 5 50) 11).map some, [none, none, none]]

/-- A dump shows 3, which is no longer in the list when it is done, and not 5, which then is: it
has gone on from the node of 3. -/
theorem list_dump_meddled : ∃ runs w es e, ReuseCreated 3 threeKeyList ∧
    Trace ReuseState.next ReuseState.Orderly threeKeyList runs w ∧
    Trace (reuseMachine.dumpNext sameAddr w.tail) ReuseState.DumpOrderly (dump w.head w) es e ∧
    e.pc = .done ∧ e.printed = [3, 7] ∧ (e.list.chain.map fun n => (e.list.mem n.1).key) =
      [intptrMin, 5, 7, intptrMax] ∧ reuseMachine.Dumped es e := by
  obtain ⟨runs, w, h, -, hdump⟩ := exists_trace ReuseState.next ReuseState.Orderly threeKeyList
    (fun w => (runIf (reuseMachine.dumpNext sameAddr w.tail) ReuseState.DumpOrderly
      (dump w.head w) meddledDump).any fun e => decide (e.pc = .done ∧ e.printed = [3, 7] ∧
        (e.list.chain.map fun n => (e.list.mem n.1).key) = [intptrMin, 5, 7, intptrMax]))
    (reuseCall 0 (.insert 7 70) 11 ++ reuseCall 0 (.insert 3 30) 11) (by decide +kernel)
  obtain ⟨es, e, hd, -, he⟩ := exists_trace _ _ _ _ _ hdump
  have h₀ : ReuseCreated 3 threeKeyList := by
    constructor <;> simp [threeKeyList, ReuseState.new, Thread.outside]
  obtain ⟨hdone, hprinted, hchain⟩ := of_decide_eq_true he
  exact ⟨runs, w, es, e, h₀, h, hd, hdone, hprinted, hchain, list_dump h₀ h hd⟩

end CoopTasks.LockFreeList
