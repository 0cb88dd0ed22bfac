import CoopTasks.Advance

/-!
Append and take run alone: what they have read is still there, so nothing deceives them, and
they come to an end once the compare-exchanges stop failing spuriously.

Alone, the tail is never further back than the last cell but one, and `lag` says whether it
is there.
-/

namespace CoopTasks.Alone

open CoopTasks.Chain CoopTasks.Append CoopTasks.Advance

variable {N D : Type*}

/-- The tail points to a cell without successor, or to one whose successor has none. -/
def TailNear (E : Ends N) (C : Cells N D) : Prop :=
  ∃ t, E.tail.ptr = some t ∧
    ((C.link t).ptr = none ∨ ∃ l, (C.link t).ptr = some l ∧ (C.link l).ptr = none)

/-- One if the cell the tail points to has a successor. -/
def lag (E : Ends N) (C : Cells N D) : ℕ :=
  match E.tail.ptr.bind fun t => (C.link t).ptr with
  | none => 0
  | some _ => 1

/-- What an append has read is still there. -/
def PutAlone (E : Ends N) (C : Cells N D) : PutPc N → Prop
  | .loadTail => True
  | .loadNext tail | .help tail _ | .swing tail => tail = E.tail
  | .check tail next e | .link tail next e =>
    tail = E.tail ∧ ∀ n, tail.ptr = some n → C.link n = next ∧ C.inits n = e

/-- What a take has read is still there. -/
def TakeAlone (E : Ends N) (C : Cells N D) : TakePc N D → Prop
  | .loadHead => True
  | .loadTail head => head = E.head
  | .loadNext head tail => head = E.head ∧ tail = E.tail
  | .check head tail next =>
    head = E.head ∧ tail = E.tail ∧ ∀ n, head.ptr = some n → C.link n = next
  | .help tail _ => tail = E.tail
  | .copy head _ | .swing head _ _ => head = E.head

def putRank : PutPc N → ℕ
  | .loadTail => 12
  | .loadNext _ => 11
  | .check _ _ _ => 10
  | .link _ _ _ | .help _ _ => 9
  | .swing _ => 1

def takeRank : TakePc N D → ℕ
  | .loadHead => 13
  | .loadTail _ => 12
  | .loadNext _ _ => 11
  | .check _ _ _ => 10
  | .help _ _ | .copy _ _ => 9
  | .swing _ _ _ => 8

variable {E E' : Ends N} {C C' : Cells N D} {c c' : List N} {f n m : N} {weak copies : Bool}

lemma lag_le : lag E C ≤ 1 := by unfold lag; split <;> omega

lemma lag_zero (hn : E.tail.ptr = some n) (h : (C.link n).ptr = none) : lag E C = 0 := by
  simp [lag, hn, h]

lemma lag_one (hn : E.tail.ptr = some n) (h : (C.link n).ptr ≠ none) : lag E C = 1 := by
  obtain ⟨m, hm⟩ := Option.ne_none_iff_exists'.mp h
  simp [lag, hn, hm]

lemma TailNear.next (h : TailNear E C) (hn : E.tail.ptr = some n)
    (hm : (C.link n).ptr = some m) : (C.link m).ptr = none := by
  obtain ⟨t, ht, hcase⟩ := h
  obtain rfl : n = t := by simpa [hn] using ht
  rcases hcase with h0 | ⟨l, hl, h0⟩
  · simp [h0] at hm
  · obtain rfl : m = l := by simpa [hm] using hl
    exact h0

lemma TailNear.congr (hL : Linked E C c) (h : TailNear E C)
    (hs : ∀ m ∈ c, C'.link m = C.link m) : TailNear E C' := by
  obtain ⟨t, ht, hcase⟩ := h
  have hmem := hL.tail_mem ht
  refine ⟨t, ht, ?_⟩
  rw [hs t hmem]
  refine hcase.imp id fun ⟨l, hl, h0⟩ => ⟨l, hl, ?_⟩
  obtain ⟨p, q, hc⟩ := path_next hL.path hmem hl
  rw [hs l (by rw [hc]; simp)]
  exact h0

lemma lag_congr (hL : Linked E C c) (hs : ∀ m ∈ c, C'.link m = C.link m) :
    lag E C' = lag E C := by
  obtain ⟨t, ht, hE⟩ := hL.tail
  simp [lag, hE, hs t ht]

/-- A tail that near is the last cell of the chain or the one before. -/
lemma TailNear.split (hL : Linked E C c) (h : TailNear E C) :
    ∃ p t, E.tail.ptr = some t ∧ (c = p ++ [t] ∨ ∃ l, c = p ++ [t, l]) := by
  obtain ⟨t, ht, h0 | ⟨l, hl, h0⟩⟩ := h
  · obtain ⟨p, hp⟩ := path_last hL.path (hL.tail_mem ht) h0
    exact ⟨p, t, ht, .inl hp⟩
  · obtain ⟨p, q, hp⟩ := path_next hL.path (hL.tail_mem ht) hl
    obtain ⟨p', hp'⟩ := path_last hL.path (a := l) (by rw [hp]; simp) h0
    have hq : q = [] := by
      by_contra hq
      have hlast : (p ++ t :: l :: q).getLast? = some l := by rw [← hp, hp']; simp
      have hmem : l ∈ q := by
        obtain ⟨x, q', rfl⟩ := List.exists_cons_of_ne_nil hq
        refine List.mem_of_getLast? ?_
        simpa [List.getLast?_append, List.getLast?_cons] using hlast
      have hnd := hL.nodup
      rw [hp] at hnd
      exact (List.nodup_cons.mp (List.nodup_cons.mp (List.nodup_append.mp hnd).2.1).2).1 hmem
    exact ⟨p, t, ht, .inr ⟨l, by rw [hp, hq]⟩⟩

variable [DecidableEq N]

lemma putAlone_fresh {pc : PutPc N} (h : PutAlone E C pc) : PutFresh weak E C c pc := by
  cases pc with
  | loadTail | loadNext => trivial
  | check tail next e => exact fun _ => h.1
  | link tail next e => exact fun n hn _ => .inl (h.2 n hn).2
  | help tail next | swing tail => exact fun _ => h

lemma takeAlone_fresh {pc : TakePc N D} (h : TakeAlone E C pc) : TakeFresh weak E pc := by
  cases pc with
  | loadHead | loadTail | loadNext | copy => trivial
  | check head tail next => exact fun _ => h.1
  | help tail next => exact fun _ => h
  | swing head next buf => exact fun _ => h

lemma near_casTail (weak : Bool) (hnear : TailNear E C) (hn : E.tail.ptr = some n)
    (hm : (C.link n).ptr = some m) (k : ℕ) :
    TailNear (E.casTail weak E.tail ⟨k, some m⟩) C ∧
      (weak = false → lag (E.casTail weak E.tail ⟨k, some m⟩) C = 0) := by
  have h0 := hnear.next hn hm
  unfold Ends.casTail
  cases weak
  · rw [if_pos (by simp [casOk])]
    exact ⟨⟨m, rfl, .inl h0⟩, fun _ => lag_zero rfl h0⟩
  · rw [if_neg (by simp [casOk])]
    exact ⟨hnear, by simp⟩

/-- A step of an append run alone: it is possible, and unless a compare-exchange fails
spuriously it brings the append closer to its end. -/
theorem put_alone (weak : Bool) {pc : PutPc N} (hok : PutOk E C c f pc) (ha : PutAlone E C pc)
    (hnear : TailNear E C) (hf : pc.linked = false → (C.link f).ptr = none)
    (hft : E.tail.ptr ≠ some f ∨ pc.linked = true) :
    ∃ E' C' r, putStep weak f E C pc = some (E', C', r) ∧ TailNear E' C' ∧
      (∀ pc' ∈ r, PutAlone E' C' pc') ∧
      (weak = false → 6 * lag E' C' + r.elim 0 putRank < 6 * lag E C + putRank pc) := by
  cases pc with
  | loadTail => exact ⟨E, C, _, rfl, hnear, by simp [PutAlone], by simp [putRank]⟩
  | loadNext tail =>
    obtain rfl : tail = E.tail := ha
    obtain ⟨n, hn, -⟩ := id hnear
    refine ⟨E, C, some (.check E.tail (C.link n) (C.inits n)), by simp [putStep, hn], hnear, ?_,
      by simp [putRank]⟩
    simp [PutAlone, hn]
  | check tail next e =>
    obtain ⟨rfl, hnext⟩ := ha
    by_cases h0 : next.ptr = none
    · exact ⟨E, C, some (.link E.tail next e), by simp [putStep, h0], hnear,
        by simpa [PutAlone] using hnext, by simp [putRank]⟩
    · exact ⟨E, C, some (.help E.tail next), by simp [putStep, h0], hnear, by simp [PutAlone],
        by simp [putRank]⟩
  | link tail next e =>
    obtain ⟨rfl, hnext⟩ := ha
    obtain ⟨-, hnull, n, hn, -⟩ := hok
    obtain ⟨hlink, -⟩ := hnext n hn
    have h0 : (C.link n).ptr = none := by rw [hlink, hnull]
    cases weak
    · have hfn : f ≠ n := by
        rintro rfl
        exact hft.elim (fun h => h hn) (by simp [PutPc.linked])
      refine ⟨E, C.setLink n ⟨next.count + 1, some f⟩, some (.swing E.tail),
        by simp [putStep, hn, casOk, hlink], ⟨n, hn, .inr ⟨f, by simp, ?_⟩⟩, by simp [PutAlone],
        fun _ => ?_⟩
      · rw [setLink_ne _ _ hfn]
        exact hf rfl
      · rw [lag_one hn (by simp), lag_zero hn h0]
        simp [putRank]
    · exact ⟨E, C, some .loadTail, by simp [putStep, hn, casOk], hnear, by simp [PutAlone],
        by simp⟩
  | help tail next =>
    obtain rfl : tail = E.tail := ha
    obtain ⟨-, hne, n, hn, himp⟩ := hok
    obtain ⟨m, hm⟩ := Option.ne_none_iff_exists'.mp hne
    have hlink : (C.link n).ptr = some m := by rw [himp rfl, hm]
    obtain ⟨h1, h2⟩ := near_casTail weak hnear hn hlink (E.tail.count + 1)
    refine ⟨_, C, some .loadTail, by simp only [putStep, hm], h1, by simp [PutAlone],
      fun hw => ?_⟩
    rw [h2 hw, lag_one hn (by simp [hlink])]
    simp [putRank]
  | swing tail =>
    obtain rfl : tail = E.tail := ha
    obtain ⟨-, n, hn, himp⟩ := hok
    obtain ⟨h1, h2⟩ := near_casTail weak hnear hn (himp rfl) (E.tail.count + 1)
    refine ⟨_, C, none, rfl, h1, by simp, fun hw => ?_⟩
    rw [h2 hw, lag_one hn (by simp [himp rfl])]
    simp [putRank]

omit [DecidableEq N] in
lemma lag_head (h : E'.tail = E.tail) : lag E' C = lag E C := by
  unfold lag; rw [h]

/-- A step of a take run alone. It finds the chain empty only when the head has no successor. -/
theorem take_alone (weak : Bool) {pc : TakePc N D} (hL : Linked E C c) (hok : TakeOk copies E C pc)
    (ha : TakeAlone E C pc) (hnear : TailNear E C) :
    ∃ E' r, takeStep weak copies E C pc = some (E', r) ∧ TailNear E' C ∧
      (∀ pc', r = .more pc' → TakeAlone E' C pc') ∧
      (r = .empty → c.length = 1) ∧
      (∀ pc', r = .more pc' → weak = false →
        6 * lag E' C + takeRank pc' < 6 * lag E C + takeRank pc) ∧
      ((∀ pc', r ≠ .more pc') → lag E' C = lag E C) := by
  cases pc with
  | loadHead => exact ⟨E, _, rfl, hnear, by simp [TakeAlone], by simp, by simp [takeRank], by simp⟩
  | loadTail head =>
    obtain rfl : head = E.head := ha
    exact ⟨E, _, rfl, hnear, by simp [TakeAlone], by simp, by simp [takeRank], by simp⟩
  | loadNext head tail =>
    obtain ⟨rfl, rfl⟩ := ha
    obtain ⟨a, q, -, hhead⟩ := hL.exists_cons
    exact ⟨E, .more (.check E.head E.tail (C.link a)), by simp [takeStep, hhead], hnear,
      by simp [TakeAlone, hhead], by simp, by simp [takeRank], by simp⟩
  | check head tail next =>
    obtain ⟨rfl, rfl, hnext⟩ := ha
    by_cases hends : E.head.ptr = E.tail.ptr
    · by_cases h0 : next.ptr = none
      · refine ⟨E, .empty, by simp [takeStep, hends, h0], hnear, by simp, fun _ => ?_, by simp,
          by simp⟩
        obtain ⟨a, q, rfl, hhead⟩ := hL.exists_cons
        obtain ⟨p, hp⟩ := path_last hL.path (a := a) (by simp) (by rw [hnext a hhead, h0])
        have hnd := hL.nodup
        cases p with
        | nil => rw [hp]; rfl
        | cons x p =>
          obtain ⟨rfl, rfl⟩ := List.cons.inj hp
          simp at hnd
      · exact ⟨E, .more (.help E.tail next), by simp [takeStep, hends, h0], hnear,
          by simp [TakeAlone], by simp, by simp [takeRank], by simp⟩
    · cases copies
      · exact ⟨E, .more (.swing E.head next none), by simp [takeStep, hends], hnear,
          by simp [TakeAlone], by simp, by simp [takeRank], by simp⟩
      · exact ⟨E, .more (.copy E.head next), by simp [takeStep, hends], hnear,
          by simp [TakeAlone], by simp, by simp [takeRank], by simp⟩
  | help tail next =>
    obtain rfl : tail = E.tail := ha
    obtain ⟨-, hne, himp⟩ := hok
    obtain ⟨m, hm⟩ := Option.ne_none_iff_exists'.mp hne
    obtain ⟨n, hn, hnext⟩ := himp rfl
    have hlink : (C.link n).ptr = some m := by rw [hnext, hm]
    obtain ⟨h1, h2⟩ := near_casTail weak hnear hn hlink (E.tail.count + 1)
    refine ⟨_, .more .loadHead, by simp only [takeStep, hm], h1, by simp [TakeAlone],
      by simp, ?_, by simp⟩
    rintro - ⟨rfl⟩ hw
    rw [h2 hw, lag_one hn (by simp [hlink])]
    simp [takeRank]
  | copy head next =>
    obtain rfl : head = E.head := ha
    obtain ⟨-, -, himp⟩ := hok
    obtain ⟨-, hne, -⟩ := himp rfl
    obtain ⟨m, hm⟩ := Option.ne_none_iff_exists'.mp hne
    exact ⟨E, .more (.swing E.head next (some (C.data m))), by simp [takeStep, hm], hnear,
      by simp [TakeAlone], by simp, by simp [takeRank], by simp⟩
  | swing head next buf =>
    obtain rfl : head = E.head := ha
    obtain ⟨a, q, -, hhead⟩ := hL.exists_cons
    cases weak
    · exact ⟨{ E with head := ⟨E.head.count + 1, next.ptr⟩ }, .took a buf,
        by simp [takeStep, hhead, casOk], hnear, by simp, by simp, by simp, fun _ => lag_head rfl⟩
    · exact ⟨E, .more .loadHead, by simp [takeStep, hhead, casOk], hnear, by simp [TakeAlone],
        by simp, by simp, by simp⟩

end CoopTasks.Alone
