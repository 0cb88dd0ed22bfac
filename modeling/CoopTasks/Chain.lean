import Mathlib.Algebra.Group.Nat.Defs
import Mathlib.Data.List.Nodup
import Mathlib.Data.Nat.Basic
import Mathlib.Logic.Function.Basic
import Mathlib.Order.Basic
import Mathlib.Tactic.Common

/-!
Chains of cells linked by counted pointers.

A chain starts at the cell the head points to, follows the links, and ends at the cell with
a null link; the tail points to one of its cells. `Evolves` is what any step of any party may
do to a chain: it is the relation under which the facts an operation has read stay usable.
-/

namespace CoopTasks.Chain

/-- A pointer with the count that is raised each time the word is replaced. -/
structure Tagged (N : Type*) where
  count : ℕ
  ptr : Option N
  deriving DecidableEq, Repr

variable {N D : Type*}

structure Ends (N : Type*) where
  head : Tagged N
  tail : Tagged N

/-- The cells: link word, payload, and how often the link was overwritten from outside the
chain operations. -/
structure Cells (N D : Type*) where
  link : N → Tagged N
  data : N → D
  inits : N → ℕ

section Words

variable [DecidableEq N]

/-- The counts are 32 bits wide in memory, so only they and the pointers are compared. -/
def Tagged.equals (a b : Tagged N) : Bool :=
  a.count % 2 ^ 32 == b.count % 2 ^ 32 && a.ptr == b.ptr

/-- A compare-exchange goes through when the words are equal and, if weak, when it does not
fail spuriously. -/
def casOk (weak : Bool) (cur exp : Tagged N) : Bool := !weak && cur.equals exp

@[simp] lemma equals_self (a : Tagged N) : a.equals a = true := by simp [Tagged.equals]

lemma ptr_of_equals {a b : Tagged N} (h : a.equals b = true) : a.ptr = b.ptr := by
  simp only [Tagged.equals, Bool.and_eq_true, beq_iff_eq] at h
  exact h.2

lemma equals_of_casOk {weak : Bool} {cur exp : Tagged N} (h : casOk weak cur exp = true) :
    cur.equals exp = true := by
  simp only [casOk, Bool.and_eq_true] at h
  exact h.2

def Ends.casTail (E : Ends N) (weak : Bool) (exp new : Tagged N) : Ends N :=
  if casOk weak E.tail exp then { E with tail := new } else E

def Cells.setLink (C : Cells N D) (n : N) (v : Tagged N) : Cells N D :=
  { C with link := Function.update C.link n v }

/-- Overwrite a link from outside. -/
def Cells.write (C : Cells N D) (n : N) (v : Tagged N) : Cells N D :=
  { C with
    link := Function.update C.link n v
    inits := Function.update C.inits n (C.inits n + 1) }

def Cells.setData (C : Cells N D) (n : N) (d : D) : Cells N D :=
  { C with data := Function.update C.data n d }

section Fields

variable (C : Cells N D) (n m : N) (v : Tagged N) (d : D)

@[simp] lemma setLink_self : (C.setLink n v).link n = v := by simp [Cells.setLink]
@[simp] lemma setLink_inits : (C.setLink n v).inits = C.inits := rfl
@[simp] lemma setLink_data : (C.setLink n v).data = C.data := rfl
@[simp] lemma write_self : (C.write n v).link n = v := by simp [Cells.write]
@[simp] lemma write_data : (C.write n v).data = C.data := rfl
@[simp] lemma write_inits_self : (C.write n v).inits n = C.inits n + 1 := by simp [Cells.write]
@[simp] lemma setData_link : (C.setData n d).link = C.link := rfl
@[simp] lemma setData_inits : (C.setData n d).inits = C.inits := rfl
@[simp] lemma setData_self : (C.setData n d).data n = d := by simp [Cells.setData]

variable {n m}

lemma setLink_ne (h : m ≠ n) : (C.setLink n v).link m = C.link m := by simp [Cells.setLink, h]
lemma write_ne (h : m ≠ n) : (C.write n v).link m = C.link m := by simp [Cells.write, h]
lemma write_inits_ne (h : m ≠ n) : (C.write n v).inits m = C.inits m := by simp [Cells.write, h]
lemma setData_ne (h : m ≠ n) : (C.setData n d).data m = C.data m := by simp [Cells.setData, h]

end Fields

end Words

/-! ### Paths -/

/-- The links lead through the list, and the last one is null. -/
def Path (link : N → Tagged N) : List N → Prop
  | [] => False
  | [a] => (link a).ptr = none
  | a :: b :: r => (link a).ptr = some b ∧ Path link (b :: r)

/-- The cells met by following at most `k` links. -/
def follow (link : N → Tagged N) : ℕ → Option N → List N
  | 0, _ => []
  | _, none => []
  | k + 1, some n => n :: follow link k (link n).ptr

variable {link link' : N → Tagged N} {c : List N} {a b : N}

lemma path_congr (h : ∀ a ∈ c, (link' a).ptr = (link a).ptr) (hp : Path link c) :
    Path link' c := by
  induction c with
  | nil => exact hp
  | cons a r ih =>
    cases r with
    | nil => exact (h a (by simp)).trans hp
    | cons b r =>
      exact ⟨(h a (by simp)).trans hp.1, ih (fun x hx => h x (by simp [hx])) hp.2⟩

lemma path_next (hp : Path link c) (ha : a ∈ c) (hb : (link a).ptr = some b) :
    ∃ p q, c = p ++ a :: b :: q := by
  induction c with
  | nil => simp at ha
  | cons x r ih =>
    cases r with
    | nil =>
      obtain rfl : a = x := by simpa using ha
      rw [Path, hb] at hp; simp at hp
    | cons y r =>
      rcases List.mem_cons.mp ha with rfl | ha'
      · obtain rfl : b = y := by simpa [hb] using hp.1
        exact ⟨[], r, rfl⟩
      · obtain ⟨p, q, hpq⟩ := ih hp.2 ha'
        exact ⟨x :: p, q, by rw [hpq]; rfl⟩

lemma path_last (hp : Path link c) (ha : a ∈ c) (hn : (link a).ptr = none) :
    ∃ p, c = p ++ [a] := by
  induction c with
  | nil => simp at ha
  | cons x r ih =>
    cases r with
    | nil =>
      obtain rfl : a = x := by simpa using ha
      exact ⟨[], rfl⟩
    | cons y r =>
      rcases List.mem_cons.mp ha with rfl | ha'
      · rw [Path, hn] at hp; simp at hp
      · obtain ⟨p, hpq⟩ := ih hp.2 ha'
        exact ⟨x :: p, by rw [hpq]; rfl⟩

lemma path_snoc {p : List N} {f : N} (hp : Path link (p ++ [a])) (hf : (link' f).ptr = none)
    (ha : (link' a).ptr = some f) (h : ∀ x ∈ p, (link' x).ptr = (link x).ptr) :
    Path link' (p ++ [a, f]) := by
  induction p with
  | nil => exact ⟨ha, hf⟩
  | cons x r ih =>
    have hrest := ih (by cases r <;> exact hp.2) (fun y hy => h y (by simp [hy]))
    cases r with
    | nil => exact ⟨(h x (by simp)).trans hp.1, hrest⟩
    | cons y r => exact ⟨(h x (by simp)).trans hp.1, hrest⟩

lemma follow_path (hp : Path link c) {k : ℕ} (hk : c.length ≤ k) :
    follow link k c.head? = c := by
  induction c generalizing k with
  | nil => exact absurd hp id
  | cons a r ih =>
    obtain ⟨k, rfl⟩ : ∃ j, k = j + 1 := ⟨k - 1, by simp at hk; omega⟩
    cases r with
    | nil =>
      have hn : (link a).ptr = none := hp
      cases k <;> simp [follow, hn]
    | cons b r =>
      have hih := ih hp.2 (k := k) (by simpa using hk)
      rw [List.head?_cons, follow, hp.1]
      rw [List.head?_cons] at hih
      rw [hih]

/-! ### Chains -/

/-- The words `E` delimit the chain `c` in the cells `C`. -/
structure Linked (E : Ends N) (C : Cells N D) (c : List N) : Prop where
  nodup : c.Nodup
  path : Path C.link c
  head : E.head.ptr = c.head?
  tail : ∃ t ∈ c, E.tail.ptr = some t

/-- `a` was read from a counted word that now holds `b`. -/
def Seen (a b : Tagged N) : Prop := a.count ≤ b.count ∧ (a.count = b.count → a = b)

lemma Seen.rfl {a : Tagged N} : Seen a a := ⟨le_refl _, fun _ => by trivial⟩

lemma Seen.trans {a b d : Tagged N} (h : Seen a b) (h' : Seen b d) : Seen a d := by
  refine ⟨h.1.trans h'.1, fun e => ?_⟩
  have hab := h.1
  have hbd := h'.1
  exact (h.2 (by omega)).trans (h'.2 (by omega))

/-- A word still current after two readings was current all along. -/
lemma Seen.between {a b : Tagged N} (h : Seen a b) (h' : Seen b a) : a = b :=
  h.2 (le_antisymm h.1 h'.1)

lemma seen_raise {a : Tagged N} {p : Option N} : Seen a ⟨a.count + 1, p⟩ :=
  ⟨by simp, fun h => by simp at h⟩

/-- What a step of any party may do to a chain and its cells. -/
structure Evolves (E : Ends N) (C : Cells N D) (c : List N)
    (E' : Ends N) (C' : Cells N D) (c' : List N) : Prop where
  head : Seen E.head E'.head
  tail : Seen E.tail E'.tail
  inits : ∀ n, C.inits n ≤ C'.inits n
  keep : ∀ n, C'.inits n = C.inits n → (C.link n).ptr ≠ none → C'.link n = C.link n
  chain : ∀ n ∈ c, C'.inits n = C.inits n ∧ C'.data n = C.data n
  left : ∀ n ∈ c, n ∉ c' → (C'.link n).ptr ≠ none
  ahead : E'.head = E.head → E.head.ptr ≠ E.tail.ptr → E'.head.ptr ≠ E'.tail.ptr

/-- A link that is not null is only lost by an overwrite from outside. -/
structure Mild (C C' : Cells N D) : Prop where
  inits : ∀ n, C.inits n ≤ C'.inits n
  keep : ∀ n, C'.inits n = C.inits n → (C.link n).ptr ≠ none → C'.link n = C.link n

/-- Nothing in the cell `n` differs. -/
def Same (C C' : Cells N D) (n : N) : Prop :=
  C'.link n = C.link n ∧ C'.data n = C.data n ∧ C'.inits n = C.inits n

variable {E E' : Ends N} {C C' : Cells N D} {c' : List N}

lemma Mild.trans {C'' : Cells N D} (h : Mild C C') (h' : Mild C' C'') : Mild C C'' where
  inits n := (h.inits n).trans (h'.inits n)
  keep n hn hp := by
    have h1 := h.inits n
    have h2 := h'.inits n
    have hl := h.keep n (by omega) hp
    exact (h'.keep n (by omega) (hl ▸ hp)).trans hl

lemma Mild.refl : Mild C C := ⟨fun _ => le_refl _, fun _ _ _ => rfl⟩

lemma Same.refl {n : N} : Same C C n := ⟨rfl, rfl, rfl⟩

lemma Same.trans {C'' : Cells N D} {n : N} (h : Same C C' n) (h' : Same C' C'' n) :
    Same C C'' n :=
  ⟨h'.1.trans h.1, h'.2.1.trans h.2.1, h'.2.2.trans h.2.2⟩

lemma Linked.ne_nil (h : Linked E C c) : c ≠ [] := by
  rintro rfl
  exact h.path

lemma Linked.exists_cons (h : Linked E C c) : ∃ a r, c = a :: r ∧ E.head.ptr = some a := by
  obtain ⟨a, r, rfl⟩ := List.exists_cons_of_ne_nil h.ne_nil
  exact ⟨a, r, rfl, h.head⟩

lemma Linked.tail_mem (h : Linked E C c) {n : N} (hn : E.tail.ptr = some n) : n ∈ c := by
  obtain ⟨t, ht, he⟩ := h.tail
  obtain rfl : n = t := by simpa [hn] using he
  exact ht

lemma Linked.head_mem (h : Linked E C c) {n : N} (hn : E.head.ptr = some n) : n ∈ c := by
  obtain ⟨a, r, rfl, ha⟩ := h.exists_cons
  obtain rfl : n = a := by simpa [hn] using ha
  simp

lemma Linked.head_next (h : Linked E C c) {n : N} (hn : E.head.ptr = some n)
    (hne : E.head.ptr ≠ E.tail.ptr) :
    ∃ m r, c = n :: m :: r ∧ (C.link n).ptr = some m := by
  obtain ⟨a, r, rfl, ha⟩ := h.exists_cons
  obtain rfl : n = a := by simpa [hn] using ha
  obtain ⟨t, ht, hE⟩ := h.tail
  have hta : t ≠ n := by
    rintro rfl
    exact hne (hn.trans hE.symm)
  cases r with
  | nil => simp at ht; exact absurd ht hta
  | cons m r => exact ⟨m, r, rfl, h.path.1⟩

lemma Evolves.refl : Evolves E C c E C c where
  head := .rfl
  tail := .rfl
  inits _ := le_refl _
  keep _ _ _ := rfl
  chain _ _ := ⟨rfl, rfl⟩
  left _ h h' := absurd h h'
  ahead _ h := h

lemma Linked.congr (h : Linked E C c) (hl : ∀ n ∈ c, (C'.link n).ptr = (C.link n).ptr) :
    Linked E C' c :=
  ⟨h.nodup, path_congr hl h.path, h.head, h.tail⟩

lemma Evolves.of_same (hm : Mild C C') (hs : ∀ n ∈ c, Same C C' n) : Evolves E C c E C' c where
  head := .rfl
  tail := .rfl
  inits := hm.inits
  keep := hm.keep
  chain n hn := ⟨(hs n hn).2.2, (hs n hn).2.1⟩
  left _ h h' := absurd h h'
  ahead _ h := h

lemma Evolves.mild (h : Evolves E C c E' C' c') : Mild C C' := ⟨h.inits, h.keep⟩

lemma Linked.of_same (h : Linked E C c) (hs : ∀ n ∈ c, Same C C' n) : Linked E C' c :=
  h.congr fun n hn => by rw [(hs n hn).1]

section Outside

variable [DecidableEq N]

lemma same_write {n m : N} {v : Tagged N} (h : m ≠ n) : Same C (C.write n v) m :=
  ⟨write_ne _ _ h, rfl, write_inits_ne _ _ h⟩

lemma same_setLink {n m : N} {v : Tagged N} (h : m ≠ n) : Same C (C.setLink n v) m :=
  ⟨setLink_ne _ _ h, rfl, rfl⟩

lemma same_setData {n m : N} {d : D} (h : m ≠ n) : Same C (C.setData n d) m :=
  ⟨rfl, setData_ne _ _ h, rfl⟩

lemma mild_write {n : N} {v : Tagged N} : Mild C (C.write n v) where
  inits m := by
    by_cases hm : m = n
    · subst hm; simp
    · exact (write_inits_ne _ _ hm).ge
  keep m hm _ := by
    by_cases he : m = n
    · subst he; simp at hm
    · exact write_ne _ _ he

lemma mild_setLink {n : N} {v : Tagged N} (hn : (C.link n).ptr = none) :
    Mild C (C.setLink n v) where
  inits _ := le_refl _
  keep m _ hm := setLink_ne _ _ (by rintro rfl; exact hm hn)

lemma mild_setData {n : N} {d : D} : Mild C (C.setData n d) :=
  ⟨fun _ => le_refl _, fun _ _ _ => rfl⟩

end Outside

end CoopTasks.Chain
