import CoopTasks.Alone

/-!
Append and take while others do the same: what each step leaves to be done.

A loop that is let alone comes to an end in a few steps. It begins again when a word that it has
read was replaced: by a cell linked to the end of the chain, by the tail moved on, or by the head
moved on. `behind` says how often the tail can be moved on before the next cell is linked.
-/

namespace CoopTasks.Contention

open CoopTasks.Chain CoopTasks.Append CoopTasks.Advance CoopTasks.Alone

variable {N D : Type*} {E E' : Ends N} {C C' : Cells N D} {c c' : List N} {f n m : N}
  {weak copies : Bool}

/-! ### The tail -/

section Behind

variable [DecidableEq N]

/-- How many cells the tail is behind the end of the chain. -/
def behind (E : Ends N) (c : List N) : ℕ :=
  (c.reverse.takeWhile fun n => E.tail.ptr ≠ some n).length

lemma behind_split {p q : List N} (hn : E.tail.ptr = some n) (hq : n ∉ q) :
    behind E (p ++ n :: q) = q.length := by
  have hpos : ∀ m ∈ q.reverse, decide (E.tail.ptr ≠ some m) = true := fun m hm => by
    have hmq : m ∈ q := List.mem_reverse.mp hm
    simp only [hn, decide_eq_true_eq]
    rintro ⟨rfl⟩
    exact hq hmq
  unfold behind
  rw [List.reverse_append, List.reverse_cons, List.append_assoc, List.takeWhile_append_of_pos hpos]
  simp [hn]

lemma behind_link (hL : Linked E C c) (hf : f ∉ c) : behind E (c ++ [f]) = behind E c + 1 := by
  obtain ⟨t, ht, hE⟩ := hL.tail
  obtain ⟨p, q, rfl⟩ := List.append_of_mem ht
  have htq : t ∉ q := (List.nodup_cons.mp (List.nodup_append.mp hL.nodup).2.1).1
  have htf : t ≠ f := by
    rintro rfl
    exact hf ht
  rw [List.append_assoc, List.cons_append, behind_split hE htq,
    behind_split hE (by simp [htq, htf])]
  simp

lemma behind_move (hL : Linked E C c) (hn : E.tail.ptr = some n) (hm : (C.link n).ptr = some m)
    (hE : E'.tail.ptr = some m) : behind E' c + 1 = behind E c := by
  obtain ⟨p, q, rfl⟩ := path_next hL.path (hL.tail_mem hn) hm
  have hnd := (List.nodup_append.mp hL.nodup).2.1
  have hnq : n ∉ m :: q := (List.nodup_cons.mp hnd).1
  have hmq : m ∉ q := (List.nodup_cons.mp (List.nodup_cons.mp hnd).2).1
  have hafter : p ++ n :: m :: q = (p ++ [n]) ++ m :: q := by simp
  rw [behind_split hn hnq, hafter, behind_split hE hmq]
  simp

lemma behind_take {q : List N} (hL : Linked E C (n :: q)) (hne : E.tail.ptr ≠ some n)
    (hE : E'.tail = E.tail) : behind E' q = behind E (n :: q) := by
  obtain ⟨t, ht, htail⟩ := hL.tail
  have htn : t ≠ n := by
    rintro rfl
    exact hne htail
  obtain ⟨p, r, rfl⟩ := List.append_of_mem ((List.mem_cons.mp ht).resolve_left htn)
  have htr : t ∉ r := by
    have hnd := (List.nodup_cons.mp hL.nodup).2
    exact (List.nodup_cons.mp (List.nodup_append.mp hnd).2.1).1
  have hcons : n :: (p ++ t :: r) = (n :: p) ++ t :: r := rfl
  rw [hcons, behind_split htail htr, behind_split (by rw [hE, htail]) htr]

lemma behind_near (hL : Linked E C c) (hnear : TailNear E C) : behind E c ≤ 1 := by
  obtain ⟨p, t, ht, rfl | ⟨l, rfl⟩⟩ := hnear.split hL
  · rw [behind_split ht (by simp)]
    simp
  · have hnd := (List.nodup_append.mp hL.nodup).2.1
    rw [behind_split ht (List.nodup_cons.mp hnd).1]
    simp

end Behind

lemma linked_unique (h : Linked E C c) (h' : Linked E C c') : c' = c := by
  have hc := follow_path h.path (Nat.le_add_right c.length c'.length)
  have hc' := follow_path h'.path (Nat.le_add_left c'.length c.length)
  rw [← h.head] at hc
  rw [← h'.head] at hc'
  exact hc'.symm.trans hc

/-! ### What is left to do -/

def putSteps : PutPc N → ℕ
  | .loadTail => 5
  | .loadNext _ => 4
  | .check _ _ _ => 3
  | .link _ _ _ | .help _ _ => 2
  | .swing _ => 1

def takeSteps : TakePc N D → ℕ
  | .loadHead => 6
  | .loadTail _ => 5
  | .loadNext _ _ => 4
  | .check _ _ _ => 3
  | .help _ _ | .copy _ _ => 2
  | .swing _ _ _ => 1

open Classical in
/-- The steps an append has left if it is let alone; if it was disturbed, it begins again. -/
noncomputable def putLeft (E : Ends N) (C : Cells N D) (pc : PutPc N) : ℕ :=
  if PutAlone E C pc then putSteps pc else putSteps pc + 5

open Classical in
/-- The steps a take has left if it is let alone; if it was disturbed, it begins again. -/
noncomputable def takeLeft (E : Ends N) (C : Cells N D) (pc : TakePc N D) : ℕ :=
  if TakeAlone E C pc then takeSteps pc else takeSteps pc + 6

lemma putLeft_alone {pc : PutPc N} (h : PutAlone E C pc) : putLeft E C pc = putSteps pc :=
  if_pos h

lemma putLeft_not {pc : PutPc N} (h : ¬ PutAlone E C pc) : putLeft E C pc = putSteps pc + 5 :=
  if_neg h

lemma takeLeft_alone {pc : TakePc N D} (h : TakeAlone E C pc) :
    takeLeft E C pc = takeSteps pc := if_pos h

lemma takeLeft_not {pc : TakePc N D} (h : ¬ TakeAlone E C pc) :
    takeLeft E C pc = takeSteps pc + 6 := if_neg h

lemma putLeft_le (pc : PutPc N) : putLeft E C pc ≤ 9 := by
  unfold putLeft
  cases pc with
  | loadTail => simp [PutAlone, putSteps]
  | _ => split <;> simp [putSteps]

lemma takeLeft_le (pc : TakePc N D) : takeLeft E C pc ≤ 11 := by
  unfold takeLeft
  cases pc with
  | loadHead => simp [TakeAlone, takeSteps]
  | _ => split <;> simp [takeSteps]

lemma putSteps_le_left (pc : PutPc N) : putSteps pc ≤ putLeft E C pc := by
  unfold putLeft
  split <;> omega

lemma takeSteps_le_left (pc : TakePc N D) : takeSteps pc ≤ takeLeft E C pc := by
  unfold takeLeft
  split <;> omega

lemma putLeft_congr (hL : Linked E C c) (hs : ∀ n ∈ c, Same C C' n) (pc : PutPc N) :
    putLeft E C' pc = putLeft E C pc := by
  have hiff : PutAlone E C' pc ↔ PutAlone E C pc := by
    cases pc with
    | check tail next e | link tail next e =>
      refine and_congr_right fun htail => forall₂_congr fun n hn => ?_
      obtain ⟨hlink, -, hinits⟩ := hs n (hL.tail_mem (htail ▸ hn))
      rw [hlink, hinits]
    | _ => rfl
  by_cases h : PutAlone E C pc
  · rw [putLeft_alone h, putLeft_alone (hiff.mpr h)]
  · rw [putLeft_not h, putLeft_not (mt hiff.mp h)]

lemma takeLeft_congr (hL : Linked E C c) (hs : ∀ n ∈ c, Same C C' n) (pc : TakePc N D) :
    takeLeft E C' pc = takeLeft E C pc := by
  have hiff : TakeAlone E C' pc ↔ TakeAlone E C pc := by
    cases pc with
    | check head tail next =>
      refine and_congr_right fun hhead => and_congr_right fun _ => forall₂_congr fun n hn => ?_
      rw [(hs n (hL.head_mem (hhead ▸ hn))).1]
    | _ => rfl
  by_cases h : TakeAlone E C pc
  · rw [takeLeft_alone h, takeLeft_alone (hiff.mpr h)]
  · rw [takeLeft_not h, takeLeft_not (mt hiff.mp h)]

lemma putLeft_on {pc pc' : PutPc N} (hsteps : putSteps pc' < putSteps pc)
    (himp : PutAlone E C pc → PutAlone E C pc') : putLeft E C pc' < putLeft E C pc := by
  by_cases h : PutAlone E C pc
  · rw [putLeft_alone h, putLeft_alone (himp h)]
    exact hsteps
  · rw [putLeft_not h]
    unfold putLeft
    split <;> omega

lemma putLeft_again {pc : PutPc N} (h : ¬ PutAlone E C pc) :
    putLeft E C .loadTail < putLeft E C pc := by
  have hstart : PutAlone E C .loadTail := trivial
  rw [putLeft_not h, putLeft_alone hstart]
  cases pc <;> simp [putSteps]

lemma takeLeft_on {pc pc' : TakePc N D} (hsteps : takeSteps pc' < takeSteps pc)
    (himp : TakeAlone E C pc → TakeAlone E C pc') : takeLeft E C pc' < takeLeft E C pc := by
  by_cases h : TakeAlone E C pc
  · rw [takeLeft_alone h, takeLeft_alone (himp h)]
    exact hsteps
  · rw [takeLeft_not h]
    unfold takeLeft
    split <;> omega

lemma takeLeft_again {pc : TakePc N D} (h : ¬ TakeAlone E C pc) :
    takeLeft E C .loadHead < takeLeft E C pc := by
  have hstart : TakeAlone (D := D) E C .loadHead := trivial
  rw [takeLeft_not h, takeLeft_alone hstart]
  cases pc <;> simp [takeSteps]

/-! ### One step -/

variable [DecidableEq N]

lemma casTail_work (hL : Linked E C c) {tail : Tagged N} {k : ℕ}
    (hfresh : casOk weak E.tail tail = true → tail = E.tail)
    (hm : tail = E.tail → ∃ n, tail.ptr = some n ∧ (C.link n).ptr = some m) :
    E.casTail weak tail ⟨k, some m⟩ = E ∧ (weak = false → tail ≠ E.tail) ∨
      behind (E.casTail weak tail ⟨k, some m⟩) c + 1 = behind E c := by
  unfold Ends.casTail
  by_cases hcas : casOk weak E.tail tail = true
  · have htail := hfresh hcas
    rw [if_pos hcas]
    obtain ⟨n, hn, hnext⟩ := hm htail
    exact .inr (behind_move hL (htail ▸ hn) hnext rfl)
  · rw [if_neg hcas]
    refine .inl ⟨rfl, ?_⟩
    rintro rfl rfl
    simp [casOk] at hcas

/-- A step of an append goes on, or begins again because it was disturbed, or moves the tail, or
links the cell. -/
theorem put_work {pc : PutPc N} {r : Option (PutPc N)} (hL : Linked E C c)
    (hok : PutOk E C c f pc) (hfresh : PutFresh weak E C c pc)
    (hf : pc.linked = false → f ∉ c ∧ (C.link f).ptr = none)
    (h : putStep weak f E C pc = some (E', C', r)) :
    (C' = C ∧ Linked E' C c ∧ (r = none → pc.linked = true) ∧
      (∀ pc' ∈ r, pc'.linked = pc.linked) ∧
      (E' = E ∧ (weak = false → r.elim 0 (putLeft E C) < putLeft E C pc) ∨
        behind E' c + 1 = behind E c)) ∨
    (E' = E ∧ Linked E C' (c ++ [f]) ∧ pc.linked = false ∧ ∃ t, r = some (.swing t)) := by
  obtain ⟨c', hL', -, -, hcase⟩ := put_step hL hok hfresh hf h
  rcases hcase with ⟨rfl, rfl, hend, hlinked⟩ | ⟨hlinked, rfl, hr, p, n, k, -, hn, hC⟩
  · refine .inl ⟨rfl, hL', hend, hlinked, ?_⟩
    cases pc with
    | loadTail =>
      obtain ⟨rfl, rfl⟩ := by simpa [putStep] using h
      exact .inl ⟨rfl, fun _ => putLeft_on (by simp [putSteps]) fun _ => rfl⟩
    | loadNext tail =>
      obtain ⟨n, hn, rfl, rfl⟩ := by simpa [putStep] using h
      refine .inl ⟨rfl, fun _ => putLeft_on (by simp [putSteps]) fun htail => ⟨htail, ?_⟩⟩
      intro m hm
      obtain rfl : n = m := by simpa [hn] using hm
      exact ⟨rfl, rfl⟩
    | check tail next e =>
      simp only [putStep] at h
      split at h
      · split at h <;> obtain ⟨rfl, rfl⟩ := by simpa using h
        · exact .inl ⟨rfl, fun _ => putLeft_on (by simp [putSteps]) id⟩
        · exact .inl ⟨rfl, fun _ => putLeft_on (by simp [putSteps]) And.left⟩
      · rename_i hne
        obtain ⟨rfl, rfl⟩ := by simpa using h
        refine .inl ⟨rfl, fun _ => putLeft_again fun ha => ?_⟩
        rw [ha.1] at hne
        simp at hne
    | link tail next e =>
      obtain ⟨-, hnull, n, hn, -⟩ := hok
      simp only [putStep, hn, Option.map_some, Option.some.injEq] at h
      split at h
      · rename_i hcas
        -- the cell was linked, which changes the link of `n`
        obtain ⟨-, hC, -⟩ := by simpa using h
        have hlink : (C'.link n).ptr = some f := by rw [← hC]; simp
        have hempty := (ptr_of_equals (equals_of_casOk hcas)).trans hnull
        simp [hlink] at hempty
      · rename_i hcas
        obtain ⟨rfl, rfl⟩ := by simpa using h
        refine .inl ⟨rfl, fun hweak => putLeft_again fun ha => ?_⟩
        simp [casOk, hweak, (ha.2 n hn).1] at hcas
    | help tail next =>
      obtain ⟨-, hne, n, hn, hlink⟩ := hok
      obtain ⟨m, hm⟩ := Option.ne_none_iff_exists'.mp hne
      obtain ⟨rfl, rfl⟩ := by simpa [putStep] using h
      rw [hm]
      refine (casTail_work hL hfresh fun htail => ⟨n, hn, by rw [hlink htail, hm]⟩).imp_left ?_
      rintro ⟨hE, hdist⟩
      exact ⟨hE, fun hweak => putLeft_again (hdist hweak)⟩
    | swing tail =>
      obtain ⟨-, n, hn, hlink⟩ := hok
      obtain ⟨rfl, rfl⟩ := by simpa [putStep] using h
      refine (casTail_work hL hfresh fun htail => ⟨n, hn, hlink htail⟩).imp_left ?_
      rintro ⟨hE, -⟩
      refine ⟨hE, fun _ => ?_⟩
      exact putSteps_le_left (E := E) (C := C') (.swing tail)
  · have hE : E' = E := by
      obtain ⟨t, rfl⟩ := hr
      cases pc with
      | link tail next e =>
        obtain ⟨n, hn, h⟩ := Option.map_eq_some_iff.mp h
        split at h <;> simp_all
      | check tail next e =>
        simp only [putStep] at h
        split at h
        · split at h <;> simp at h
        · simp at h
      | loadNext tail =>
        obtain ⟨n, hn, h⟩ := Option.map_eq_some_iff.mp h
        simp at h
      | _ => simp [putStep] at h
    exact .inr ⟨hE, hE ▸ hL', hlinked, hr⟩

/-- A step of a take goes on, or begins again because it was disturbed, or comes to its end, or
moves the tail or the head. -/
theorem take_work {pc : TakePc N D} {r : TakeRes N D} (hL : Linked E C c)
    (hok : TakeOk copies E C pc) (hfresh : TakeFresh weak E pc)
    (h : takeStep weak copies E C pc = some (E', r)) :
    (Linked E' C c ∧ (∀ n buf, r ≠ .took n buf) ∧
      (E' = E ∧ (weak = false → ∀ pc', r = .more pc' → takeLeft E C pc' < takeLeft E C pc) ∨
        behind E' c + 1 = behind E c)) ∨
    ∃ n q buf, r = .took n buf ∧ c = n :: q ∧ Linked E' C q ∧ behind E' q = behind E c := by
  obtain ⟨c', hL', -, hcase⟩ := take_step hL hok hfresh h
  rcases hcase with ⟨rfl, hr, -⟩ | ⟨n, m, q, buf, rfl, rfl, rfl, -, -⟩
  · refine .inl ⟨hL', hr, ?_⟩
    cases pc with
    | loadHead =>
      obtain ⟨rfl, rfl⟩ := by simpa [takeStep] using h
      refine .inl ⟨rfl, ?_⟩
      rintro - pc' ⟨rfl⟩
      exact takeLeft_on (by simp [takeSteps]) fun _ => rfl
    | loadTail head =>
      obtain ⟨rfl, rfl⟩ := by simpa [takeStep] using h
      refine .inl ⟨rfl, ?_⟩
      rintro - pc' ⟨rfl⟩
      exact takeLeft_on (by simp [takeSteps]) fun hhead => ⟨hhead, rfl⟩
    | loadNext head tail =>
      obtain ⟨n, hn, rfl, rfl⟩ := by simpa [takeStep] using h
      refine .inl ⟨rfl, ?_⟩
      rintro - pc' ⟨rfl⟩
      refine takeLeft_on (by simp [takeSteps]) fun ha => ⟨ha.1, ha.2, ?_⟩
      intro m hm
      obtain rfl : n = m := by simpa [hn] using hm
      rfl
    | check head tail next =>
      simp only [takeStep] at h
      split at h
      · have hgo : ∀ pc', takeSteps pc' < 3 → (TakeAlone E C (.check head tail next) →
            TakeAlone E C pc') → takeLeft E C pc' < takeLeft E C (.check head tail next) :=
          fun pc' hsteps himp => takeLeft_on hsteps himp
        split at h
        · split at h <;> obtain ⟨rfl, rfl⟩ := by simpa using h
          · exact .inl ⟨rfl, fun _ pc' heq => by cases heq⟩
          · refine .inl ⟨rfl, ?_⟩
            rintro - pc' ⟨rfl⟩
            exact hgo _ (by simp [takeSteps]) fun ha => ha.2.1
        · split at h <;> obtain ⟨rfl, rfl⟩ := by simpa using h
          · refine .inl ⟨rfl, ?_⟩
            rintro - pc' ⟨rfl⟩
            exact hgo _ (by simp [takeSteps]) And.left
          · refine .inl ⟨rfl, ?_⟩
            rintro - pc' ⟨rfl⟩
            exact hgo _ (by simp [takeSteps]) And.left
      · rename_i hne
        obtain ⟨rfl, rfl⟩ := by simpa using h
        refine .inl ⟨rfl, ?_⟩
        rintro - pc' ⟨rfl⟩
        refine takeLeft_again fun ha => ?_
        rw [ha.1] at hne
        simp at hne
    | help tail next =>
      obtain ⟨-, hne, hlink⟩ := hok
      obtain ⟨m, hm⟩ := Option.ne_none_iff_exists'.mp hne
      obtain ⟨rfl, rfl⟩ := by simpa [takeStep] using h
      rw [hm]
      have hnext : tail = E.tail → ∃ n, tail.ptr = some n ∧ (C.link n).ptr = some m :=
        fun htail => by
          obtain ⟨n, hn, hl⟩ := hlink htail
          exact ⟨n, hn, by rw [hl, hm]⟩
      refine (casTail_work hL hfresh hnext).imp_left ?_
      rintro ⟨hE, hdist⟩
      refine ⟨hE, fun hweak => ?_⟩
      rintro pc' ⟨rfl⟩
      exact takeLeft_again (hdist hweak)
    | copy head next =>
      obtain ⟨m, hm, rfl, rfl⟩ := by simpa [takeStep] using h
      refine .inl ⟨rfl, ?_⟩
      rintro - pc' ⟨rfl⟩
      exact takeLeft_on (by simp [takeSteps]) id
    | swing head next buf =>
      obtain ⟨n, hn, h⟩ := Option.map_eq_some_iff.mp h
      split at h
      · obtain ⟨-, rfl⟩ := by simpa using h
        exact absurd rfl (hr n buf)
      · rename_i hcas
        obtain ⟨rfl, rfl⟩ := by simpa using h
        refine .inl ⟨rfl, fun hweak => ?_⟩
        rintro pc' ⟨rfl⟩
        refine takeLeft_again fun ha => hcas ?_
        have hhead : head = E.head := ha
        simp [casOk, hweak, hhead]
  · refine .inr ⟨n, m :: q, buf, rfl, rfl, hL', ?_⟩
    cases pc with
    | swing head next buf' =>
      obtain ⟨-, hok⟩ := hok
      obtain ⟨n', hn, h⟩ := Option.map_eq_some_iff.mp h
      split at h
      · rename_i hcas
        have hhead := hfresh hcas
        obtain ⟨⟨hne, -⟩, -⟩ := hok hhead
        obtain ⟨rfl, -⟩ := by simpa using h
        refine behind_take hL (fun htail => hne ?_) rfl
        rw [htail]
        exact hL.head
      · simp at h
    | check head tail next =>
      simp only [takeStep] at h
      split at h
      · split at h <;> split at h <;> simp at h
      · simp at h
    | loadNext head tail =>
      obtain ⟨n', -, h⟩ := Option.map_eq_some_iff.mp h
      simp at h
    | copy head next =>
      obtain ⟨n', -, h⟩ := Option.map_eq_some_iff.mp h
      simp at h
    | _ => simp [takeStep] at h

end CoopTasks.Contention
