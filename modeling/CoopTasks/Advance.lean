import CoopTasks.Append

/-!
The take loop: move the head of a chain to the next cell while others do the same.

A party reads the head, the tail and the head's link, checks that the head has not moved, and
then finds the chain empty, helps the tail forward, or moves the head; before moving it, it
may copy the payload of the cell the head will point to.
-/

namespace CoopTasks.Advance

open CoopTasks.Chain CoopTasks.Append

variable {N D : Type*}

/-- Where a take stands. -/
inductive TakePc (N D : Type*)
  | loadHead
  | loadTail (head : Tagged N)
  | loadNext (head tail : Tagged N)
  | check (head tail next : Tagged N)
  | help (tail next : Tagged N)
  | copy (head next : Tagged N)
  | swing (head next : Tagged N) (buf : Option D)
  deriving DecidableEq, Repr

/-- How a step of a take ends: it goes on, finds the chain empty, or has taken a cell. -/
inductive TakeRes (N D : Type*)
  | more (pc : TakePc N D)
  | empty
  | took (n : N) (buf : Option D)
  deriving DecidableEq, Repr

section Step

variable [DecidableEq N]

/-- One step of a take; `copies` says whether the payload is copied. -/
def takeStep (weak copies : Bool) (E : Ends N) (C : Cells N D) :
    TakePc N D → Option (Ends N × TakeRes N D)
  | .loadHead => some (E, .more (.loadTail E.head))
  | .loadTail head => some (E, .more (.loadNext head E.tail))
  | .loadNext head tail => head.ptr.map fun n => (E, .more (.check head tail (C.link n)))
  | .check head tail next =>
    if head.equals E.head then
      if head.ptr = tail.ptr then
        if next.ptr = none then some (E, .empty) else some (E, .more (.help tail next))
      else if copies then some (E, .more (.copy head next))
      else some (E, .more (.swing head next none))
    else some (E, .more .loadHead)
  | .help tail next =>
    some (E.casTail weak tail ⟨tail.count + 1, next.ptr⟩, .more .loadHead)
  | .copy head next => next.ptr.map fun m => (E, .more (.swing head next (some (C.data m))))
  | .swing head next buf => head.ptr.map fun n =>
    if casOk weak E.head head then ({ E with head := ⟨head.count + 1, next.ptr⟩ }, .took n buf)
    else (E, .more .loadHead)

/-- A head or tail that the step finds equal has not come back to the same 32-bit count. -/
def TakeFresh (weak : Bool) (E : Ends N) : TakePc N D → Prop
  | .check head _ _ => head.equals E.head = true → head = E.head
  | .help tail _ => casOk weak E.tail tail = true → tail = E.tail
  | .swing head _ _ => casOk weak E.head head = true → head = E.head
  | _ => True

instance (weak : Bool) (E : Ends N) : (pc : TakePc N D) → Decidable (TakeFresh weak E pc)
  | .loadHead | .loadTail _ | .loadNext _ _ | .copy _ _ => inferInstanceAs (Decidable True)
  | .check head _ _ => inferInstanceAs (Decidable (head.equals E.head = true → head = E.head))
  | .help tail _ =>
    inferInstanceAs (Decidable (casOk weak E.tail tail = true → tail = E.tail))
  | .swing head _ _ =>
    inferInstanceAs (Decidable (casOk weak E.head head = true → head = E.head))

end Step

/-- The head has a successor, and it is the one that was read. -/
def HeadNext (E : Ends N) (C : Cells N D) (head next : Tagged N) : Prop :=
  E.head.ptr ≠ E.tail.ptr ∧ next.ptr ≠ none ∧ ∃ h, head.ptr = some h ∧ C.link h = next

/-- What a take knows about the chain, whatever the others do. -/
def TakeOk (copies : Bool) (E : Ends N) (C : Cells N D) : TakePc N D → Prop
  | .loadHead => True
  | .loadTail head => Seen head E.head
  | .loadNext head tail => Seen head E.head ∧ Seen tail E.tail ∧
    (head = E.head → head.ptr ≠ tail.ptr → E.head.ptr ≠ E.tail.ptr)
  | .check head tail next => Seen head E.head ∧ Seen tail E.tail ∧
    (head = E.head → (head.ptr ≠ tail.ptr → HeadNext E C head next) ∧
      (next.ptr ≠ none → ∃ h, head.ptr = some h ∧ C.link h = next))
  | .help tail next => Seen tail E.tail ∧ next.ptr ≠ none ∧
    (tail = E.tail → ∃ n, tail.ptr = some n ∧ C.link n = next)
  | .copy head next => copies = true ∧ Seen head E.head ∧
    (head = E.head → HeadNext E C head next)
  | .swing head next buf => Seen head E.head ∧ (head = E.head → HeadNext E C head next ∧
    ∀ m, next.ptr = some m → buf = if copies then some (C.data m) else none)

variable {E E' : Ends N} {C C' : Cells N D} {c c' : List N} {weak copies : Bool}
  {pc : TakePc N D} {r : TakeRes N D}

lemma headNext_evolves (hL : Linked E C c) (hev : Evolves E C c E' C' c') {head next : Tagged N}
    (he : head = E.head) (he' : head = E'.head) (h : HeadNext E C head next) :
    HeadNext E' C' head next := by
  obtain ⟨hne, hnull, n, hn, hlink⟩ := h
  refine ⟨hev.ahead (he'.symm.trans he) hne, hnull, n, hn, ?_⟩
  have hin := hev.chain n (hL.head_mem (he ▸ hn))
  exact (hev.keep n hin.1 (hlink ▸ hnull)).trans hlink

lemma takeOk_evolves (hL : Linked E C c) (hev : Evolves E C c E' C' c')
    (h : TakeOk copies E C pc) : TakeOk copies E' C' pc := by
  have hback : ∀ {head : Tagged N}, Seen head E.head → head = E'.head → head = E.head :=
    fun hs he => hs.between (he ▸ hev.head)
  cases pc with
  | loadHead => trivial
  | loadTail head => exact h.trans hev.head
  | loadNext head tail =>
    obtain ⟨hs, ht, himp⟩ := h
    refine ⟨hs.trans hev.head, ht.trans hev.tail, fun he hne => ?_⟩
    have hcur := hback hs he
    exact hev.ahead (he.symm.trans hcur) (himp hcur hne)
  | check head tail next =>
    obtain ⟨hs, ht, himp⟩ := h
    refine ⟨hs.trans hev.head, ht.trans hev.tail, fun he => ?_⟩
    have hcur := hback hs he
    obtain ⟨h1, h2⟩ := himp hcur
    refine ⟨fun hne => headNext_evolves hL hev hcur he (h1 hne), fun hne => ?_⟩
    obtain ⟨n, hn, hlink⟩ := h2 hne
    have hin := hev.chain n (hL.head_mem (hcur ▸ hn))
    exact ⟨n, hn, (hev.keep n hin.1 (hlink ▸ hne)).trans hlink⟩
  | help tail next =>
    obtain ⟨hs, hne, himp⟩ := h
    refine ⟨hs.trans hev.tail, hne, fun he => ?_⟩
    have hcur : tail = E.tail := hs.between (he ▸ hev.tail)
    obtain ⟨n, hn, hlink⟩ := himp hcur
    exact ⟨n, hn, ((tail_kept hL hev hn hcur).2 (hlink ▸ hne)).trans hlink⟩
  | copy head next =>
    obtain ⟨hcp, hs, himp⟩ := h
    refine ⟨hcp, hs.trans hev.head, fun he => ?_⟩
    have hcur := hback hs he
    exact headNext_evolves hL hev hcur he (himp hcur)
  | swing head next buf =>
    obtain ⟨hs, himp⟩ := h
    refine ⟨hs.trans hev.head, fun he => ?_⟩
    have hcur := hback hs he
    obtain ⟨h1, h2⟩ := himp hcur
    refine ⟨headNext_evolves hL hev hcur he h1, fun m hm => ?_⟩
    obtain ⟨-, -, n, hn, hlink⟩ := h1
    -- the next cell is on the chain, so its payload is still the one that was copied
    obtain ⟨p, q, hc⟩ := path_next hL.path (hL.head_mem (hcur ▸ hn)) (hlink ▸ hm)
    have hmem : m ∈ c := by rw [hc]; simp
    rw [h2 m hm, (hev.chain m hmem).2]

section StepLemmas

variable [DecidableEq N]

/-- What a step of a take does: it leaves the chain alone, or takes the first cell off it and
delivers the payload of the second. -/
theorem take_step (hL : Linked E C c) (hok : TakeOk copies E C pc) (hfresh : TakeFresh weak E pc)
    (h : takeStep weak copies E C pc = some (E', r)) :
    ∃ c', Linked E' C c' ∧ Evolves E C c E' C c' ∧
      ((c' = c ∧ (∀ n buf, r ≠ .took n buf) ∧ ∀ pc', r = .more pc' → TakeOk copies E' C pc') ∨
        ∃ n m q buf, r = .took n buf ∧ c = n :: m :: q ∧ c' = m :: q ∧
          (C.link n).ptr = some m ∧ buf = if copies then some (C.data m) else none) := by
  cases pc with
  | loadHead =>
    obtain ⟨rfl, rfl⟩ := by simpa [takeStep] using h
    exact ⟨c, hL, .refl, .inl ⟨rfl, by simp, by simp [TakeOk, Seen.rfl]⟩⟩
  | loadTail head =>
    obtain ⟨rfl, rfl⟩ := by simpa [takeStep] using h
    refine ⟨c, hL, .refl, .inl ⟨rfl, by simp, ?_⟩⟩
    rintro - ⟨rfl⟩
    exact ⟨hok, .rfl, fun he hne => he ▸ hne⟩
  | loadNext head tail =>
    obtain ⟨n, hn, rfl, rfl⟩ := by simpa [takeStep] using h
    obtain ⟨hs, ht, himp⟩ := hok
    refine ⟨c, hL, .refl, .inl ⟨rfl, by simp, ?_⟩⟩
    rintro - ⟨rfl⟩
    refine ⟨hs, ht, fun he => ⟨fun hne => ?_, fun _ => ⟨n, hn, rfl⟩⟩⟩
    have hne' := himp he hne
    obtain ⟨m, q, -, hlink⟩ := hL.head_next (he ▸ hn) hne'
    exact ⟨hne', by simp [hlink], n, hn, rfl⟩
  | check head tail next =>
    obtain ⟨hs, ht, himp⟩ := hok
    simp only [takeStep] at h
    split at h
    · rename_i heq
      have hcur := hfresh heq
      obtain ⟨h1, h2⟩ := himp hcur
      split at h
      · rename_i hends
        split at h
        · obtain ⟨rfl, rfl⟩ := by simpa using h
          exact ⟨c, hL, .refl, .inl ⟨rfl, by simp, by simp⟩⟩
        · rename_i hnull
          obtain ⟨rfl, rfl⟩ := by simpa using h
          refine ⟨c, hL, .refl, .inl ⟨rfl, by simp, ?_⟩⟩
          rintro - ⟨rfl⟩
          obtain ⟨n, hn, hlink⟩ := h2 hnull
          exact ⟨ht, hnull, fun _ => ⟨n, hends ▸ hn, hlink⟩⟩
      · rename_i hends
        split at h
        · rename_i hcopies
          obtain ⟨rfl, rfl⟩ := by simpa using h
          refine ⟨c, hL, .refl, .inl ⟨rfl, by simp, ?_⟩⟩
          rintro - ⟨rfl⟩
          exact ⟨hcopies, hs, fun _ => h1 hends⟩
        · rename_i hcopies
          obtain ⟨rfl, rfl⟩ := by simpa using h
          refine ⟨c, hL, .refl, .inl ⟨rfl, by simp, ?_⟩⟩
          rintro - ⟨rfl⟩
          exact ⟨hs, fun _ => ⟨h1 hends, fun m _ => by simp [hcopies]⟩⟩
    · obtain ⟨rfl, rfl⟩ := by simpa using h
      exact ⟨c, hL, .refl, .inl ⟨rfl, by simp, by simp [TakeOk]⟩⟩
  | help tail next =>
    obtain ⟨hs, hne, himp⟩ := hok
    obtain ⟨rfl, rfl⟩ := by simpa [takeStep] using h
    obtain ⟨m, hm⟩ := Option.ne_none_iff_exists'.mp hne
    rw [hm]
    by_cases hcas : casOk weak E.tail tail = true
    · obtain ⟨n, hn, hlink⟩ := himp (hfresh hcas)
      obtain ⟨g1, g2⟩ := casTail_step hL hn (fun _ => by rw [hlink, hm]) hfresh
      exact ⟨c, g1, g2, .inl ⟨rfl, by simp, by simp [TakeOk]⟩⟩
    · rw [Ends.casTail, if_neg hcas]
      exact ⟨c, hL, .refl, .inl ⟨rfl, by simp, by simp [TakeOk]⟩⟩
  | copy head next =>
    obtain ⟨m, hm, rfl, rfl⟩ := by simpa [takeStep] using h
    obtain ⟨hcp, hs, himp⟩ := hok
    refine ⟨c, hL, .refl, .inl ⟨rfl, by simp, ?_⟩⟩
    rintro - ⟨rfl⟩
    refine ⟨hs, fun he => ⟨himp he, fun m' hm' => ?_⟩⟩
    obtain rfl : m = m' := by simpa [hm] using hm'
    rw [if_pos hcp]
  | swing head next buf =>
    obtain ⟨n, hn, hr⟩ := by simpa [takeStep] using h
    obtain ⟨hs, himp⟩ := hok
    split at hr
    · rename_i hcas
      have hcur := hfresh hcas
      obtain ⟨rfl, rfl⟩ := by simpa using hr
      obtain ⟨⟨hne, hnull, n', hn', hlink⟩, hbuf⟩ := himp hcur
      obtain rfl : n = n' := by simpa [hn] using hn'
      obtain ⟨m, q, rfl, hm⟩ := hL.head_next (hcur ▸ hn) hne
      have hnext : next.ptr = some m := hlink ▸ hm
      have hnm : n ≠ m := by
        have hnd := hL.nodup
        simp only [List.nodup_cons, List.mem_cons, not_or] at hnd
        exact hnd.1.1
      refine ⟨m :: q, ⟨hL.nodup.of_cons, hL.path.2, by simp [hnext], ?_⟩, ?_,
        .inr ⟨n, m, q, buf, rfl, rfl, rfl, hm, hbuf m hnext⟩⟩
      · obtain ⟨t, ht, hE⟩ := hL.tail
        rcases List.mem_cons.mp ht with rfl | ht'
        · exact absurd ((hcur ▸ hn).trans hE.symm) hne
        · exact ⟨t, ht', hE⟩
      · refine { Evolves.refl (c := n :: m :: q) with head := ?_, left := ?_, ahead := ?_ }
        · rw [← hcur]; exact seen_raise
        · intro x hx hx'
          obtain rfl : x = n := by
            rcases List.mem_cons.mp hx with rfl | hx
            · rfl
            · exact absurd hx hx'
          simp [hm]
        · intro heq
          have := congrArg Tagged.count heq
          simp [← hcur] at this
    · obtain ⟨rfl, rfl⟩ := by simpa using hr
      exact ⟨c, hL, .refl, .inl ⟨rfl, by simp, by simp [TakeOk]⟩⟩

/-! ### A take that finds the chain empty -/

lemma take_head (hfresh : TakeFresh weak E pc) (h : takeStep weak copies E C pc = some (E', r)) :
    Seen E.head E'.head := by
  cases pc with
  | loadHead | loadTail =>
    obtain ⟨rfl, -⟩ := by simpa [takeStep] using h
    exact .rfl
  | loadNext | copy =>
    obtain ⟨n, -, rfl, -⟩ := by simpa [takeStep] using h
    exact .rfl
  | check head tail next =>
    have hE : E' = E := by
      unfold takeStep at h
      grind
    rw [hE]
    exact .rfl
  | help tail next =>
    obtain ⟨rfl, -⟩ := by simpa [takeStep] using h
    unfold Ends.casTail
    split <;> exact .rfl
  | swing head next buf =>
    obtain ⟨n, -, hr⟩ := by simpa [takeStep] using h
    split at hr
    · rename_i hcas
      obtain ⟨rfl, -⟩ := by simpa using hr
      rw [← hfresh hcas]
      exact seen_raise
    · obtain ⟨rfl, -⟩ := by simpa using hr
      exact .rfl

/-- A take that has read a null link, if the head is still the one it has read, has seen `P`. -/
def TakePc.EmptySeen (P : Prop) (E : Ends N) : TakePc N D → Prop
  | .check head _ next => next.ptr = none → head = E.head → P
  | _ => True

lemma take_sees (hL : Linked E C c) {pc' : TakePc N D}
    (h : takeStep weak copies E C pc = some (E', .more pc')) :
    pc'.EmptySeen (c.length = 1) E' := by
  cases pc with
  | loadNext head tail =>
    obtain ⟨n, hn, rfl, rfl⟩ := by simpa [takeStep] using h
    intro hnull hcur
    obtain ⟨a, q, rfl, ha⟩ := hL.exists_cons
    obtain rfl : n = a := by simpa [← hcur, hn] using ha
    cases q with
    | nil => rfl
    | cons b q =>
      have hlink : (C.link n).ptr = some b := hL.path.1
      simp [hnull] at hlink
  | loadHead | loadTail | copy =>
    have hpc' : ∀ head tail next, pc' ≠ .check head tail next := by
      rintro head tail next rfl
      simp [takeStep] at h
    cases pc' <;> simp_all [TakePc.EmptySeen]
  | check | help | swing =>
    have hpc' : ∀ head tail next, pc' ≠ .check head tail next := by
      rintro head tail next rfl
      unfold takeStep at h
      grind [Option.map_eq_some_iff]
    cases pc' <;> simp_all [TakePc.EmptySeen]

/-- A take that ends with nothing has seen the chain empty. -/
lemma take_seen_empty {P : Prop} (hfresh : TakeFresh weak E pc) (hP : pc.EmptySeen P E)
    (h : takeStep weak copies E C pc = some (E', .empty)) : P := by
  cases pc with
  | check head tail next =>
    simp only [takeStep] at h
    split at h
    · rename_i heq
      split at h
      · split at h
        · rename_i hnull
          exact hP hnull (hfresh heq)
        · simp at h
      · split at h <;> simp at h
    · simp at h
  | swing head next buf =>
    obtain ⟨n, -, hr⟩ := by simpa [takeStep] using h
    split at hr <;> simp at hr
  | _ => simp [takeStep] at h

end StepLemmas

lemma TakePc.EmptySeen.keep {P Q : Prop} (hok : TakeOk copies E C pc) (hs : Seen E.head E'.head)
    (himp : P → Q) (h : pc.EmptySeen P E) : pc.EmptySeen Q E' := by
  cases pc with
  | check head tail next =>
    intro hnull hcur
    exact himp (h hnull (hok.1.between (hcur ▸ hs)))
  | _ => trivial

end CoopTasks.Advance
