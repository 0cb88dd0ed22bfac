import CoopTasks.Chain

/-!
The append loop: hang a cell on the end of a chain while others do the same.

A party reads the tail and the link of the cell it points to, checks that the tail has not
moved, and either links its own cell there or helps the tail forward. `PutFresh` is what no
32-bit count can promise: that a word which compares equal is the word that was read.
-/

namespace CoopTasks.Append

open CoopTasks.Chain

variable {N D : Type*}

/-- Where an append stands; `e` is how often the tail's link had been overwritten from
outside when it was read. -/
inductive PutPc (N : Type*)
  | loadTail
  | loadNext (tail : Tagged N)
  | check (tail next : Tagged N) (e : ℕ)
  | link (tail next : Tagged N) (e : ℕ)
  | help (tail next : Tagged N)
  | swing (tail : Tagged N)
  deriving DecidableEq, Repr

section Step

variable [DecidableEq N]

/-- One step of appending the cell `f`; `none` in the last component is the end of the loop. -/
def putStep (weak : Bool) (f : N) (E : Ends N) (C : Cells N D) :
    PutPc N → Option (Ends N × Cells N D × Option (PutPc N))
  | .loadTail => some (E, C, some (.loadNext E.tail))
  | .loadNext tail => tail.ptr.map fun n => (E, C, some (.check tail (C.link n) (C.inits n)))
  | .check tail next e =>
    if tail.equals E.tail then
      if next.ptr = none then some (E, C, some (.link tail next e))
      else some (E, C, some (.help tail next))
    else some (E, C, some .loadTail)
  | .link tail next _ => tail.ptr.map fun n =>
    if casOk weak (C.link n) next then
      (E, C.setLink n ⟨next.count + 1, some f⟩, some (.swing tail))
    else (E, C, some .loadTail)
  | .help tail next =>
    some (E.casTail weak tail ⟨tail.count + 1, next.ptr⟩, C, some .loadTail)
  | .swing tail => some (E.casTail weak tail ⟨tail.count + 1, some f⟩, C, none)

lemma putStep_data {weak : Bool} {f : N} {E E' : Ends N} {C C' : Cells N D} {pc : PutPc N}
    {r : Option (PutPc N)} (h : putStep weak f E C pc = some (E', C', r)) : C'.data = C.data := by
  cases pc <;> grind [putStep, Cells.setLink, Option.map_eq_some_iff]

lemma putStep_head {weak : Bool} {f : N} {E E' : Ends N} {C C' : Cells N D} {pc : PutPc N}
    {r : Option (PutPc N)} (h : putStep weak f E C pc = some (E', C', r)) : E'.head = E.head := by
  have hcas : ∀ exp new, (E.casTail weak exp new).head = E.head := by
    intro exp new
    unfold Ends.casTail
    split <;> rfl
  cases pc <;> grind [putStep, Option.map_eq_some_iff]

/-- The words the step finds equal are the words it read: the tail has not come back to the
same 32-bit count, and a link that still compares equal was not overwritten from outside
since, or is again a link of the chain. -/
def PutFresh (weak : Bool) (E : Ends N) (C : Cells N D) (c : List N) : PutPc N → Prop
  | .check tail _ _ => tail.equals E.tail = true → tail = E.tail
  | .link tail next e => ∀ n ∈ tail.ptr, casOk weak (C.link n) next = true →
    C.inits n = e ∨ n ∈ c
  | .help tail _ | .swing tail => casOk weak E.tail tail = true → tail = E.tail
  | _ => True

instance (weak : Bool) (E : Ends N) (C : Cells N D) (c : List N) :
    (pc : PutPc N) → Decidable (PutFresh weak E C c pc)
  | .loadTail | .loadNext _ => inferInstanceAs (Decidable True)
  | .check tail _ _ => inferInstanceAs (Decidable (tail.equals E.tail = true → tail = E.tail))
  | .link tail next e => inferInstanceAs (Decidable
    (∀ n ∈ tail.ptr, casOk weak (C.link n) next = true → C.inits n = e ∨ n ∈ c))
  | .help tail _ | .swing tail =>
    inferInstanceAs (Decidable (casOk weak E.tail tail = true → tail = E.tail))

end Step

/-- Whether the cell is on the chain already. -/
def PutPc.linked : PutPc N → Bool
  | .swing _ => true
  | _ => false

/-- What an append knows about the chain, whatever the others do. -/
def PutOk (E : Ends N) (C : Cells N D) (c : List N) (f : N) : PutPc N → Prop
  | .loadTail => True
  | .loadNext tail => Seen tail E.tail
  | .check tail next e => Seen tail E.tail ∧ ∃ n, tail.ptr = some n ∧ e ≤ C.inits n ∧
    (tail = E.tail → e = C.inits n ∧ (next.ptr ≠ none → C.link n = next))
  | .link tail next e => Seen tail E.tail ∧ next.ptr = none ∧ ∃ n, tail.ptr = some n ∧
    e ≤ C.inits n ∧ (C.inits n = e → n ∈ c ∨ (C.link n).ptr ≠ none)
  | .help tail next => Seen tail E.tail ∧ next.ptr ≠ none ∧ ∃ n, tail.ptr = some n ∧
    (tail = E.tail → C.link n = next)
  | .swing tail => Seen tail E.tail ∧ ∃ n, tail.ptr = some n ∧
    (tail = E.tail → (C.link n).ptr = some f)

variable {E E' : Ends N} {C C' : Cells N D} {c c' : List N} {f : N} {weak : Bool}
  {pc : PutPc N} {r : Option (PutPc N)}

lemma tail_kept (hL : Linked E C c) (hev : Evolves E C c E' C' c') {tail : Tagged N} {n : N}
    (hn : tail.ptr = some n) (he : tail = E.tail) :
    C'.inits n = C.inits n ∧ ((C.link n).ptr ≠ none → C'.link n = C.link n) := by
  have hin := hev.chain n (hL.tail_mem (he ▸ hn))
  exact ⟨hin.1, hev.keep n hin.1⟩

lemma putOk_evolves (hL : Linked E C c) (hev : Evolves E C c E' C' c')
    (h : PutOk E C c f pc) : PutOk E' C' c' f pc := by
  cases pc with
  | loadTail => trivial
  | loadNext tail => exact h.trans hev.tail
  | check tail next e =>
    obtain ⟨hs, n, hn, hle, himp⟩ := h
    refine ⟨hs.trans hev.tail, n, hn, hle.trans (hev.inits n), fun he => ?_⟩
    have htail : tail = E.tail := hs.between (he ▸ hev.tail)
    obtain ⟨hi, hk⟩ := tail_kept hL hev hn htail
    obtain ⟨h1, h2⟩ := himp htail
    refine ⟨h1.trans hi.symm, fun hne => ?_⟩
    have hlink := h2 hne
    exact (hk (hlink ▸ hne)).trans hlink
  | link tail next e =>
    obtain ⟨hs, hnull, n, hn, hle, himp⟩ := h
    refine ⟨hs.trans hev.tail, hnull, n, hn, hle.trans (hev.inits n), fun he => ?_⟩
    have hmono := hev.inits n
    have hsame : C'.inits n = C.inits n := by omega
    rcases himp (by omega) with hmem | hne
    · by_cases hc' : n ∈ c'
      · exact .inl hc'
      · exact .inr (hev.left n hmem hc')
    · exact .inr (by rwa [hev.keep n hsame hne])
  | help tail next =>
    obtain ⟨hs, hne, n, hn, himp⟩ := h
    refine ⟨hs.trans hev.tail, hne, n, hn, fun he => ?_⟩
    have htail : tail = E.tail := hs.between (he ▸ hev.tail)
    have hlink := himp htail
    exact ((tail_kept hL hev hn htail).2 (hlink ▸ hne)).trans hlink
  | swing tail =>
    obtain ⟨hs, n, hn, himp⟩ := h
    refine ⟨hs.trans hev.tail, n, hn, fun he => ?_⟩
    have htail : tail = E.tail := hs.between (he ▸ hev.tail)
    have hlink := himp htail
    rw [(tail_kept hL hev hn htail).2 (by simp [hlink]), hlink]

section StepLemmas

variable [DecidableEq N]

lemma casTail_step (hL : Linked E C c) {tail : Tagged N} {n m : N} (hn : tail.ptr = some n)
    (hlink : tail = E.tail → (C.link n).ptr = some m)
    (hfresh : casOk weak E.tail tail = true → tail = E.tail) :
    Linked (E.casTail weak tail ⟨tail.count + 1, some m⟩) C c ∧
      Evolves E C c (E.casTail weak tail ⟨tail.count + 1, some m⟩) C c := by
  unfold Ends.casTail
  by_cases hcas : casOk weak E.tail tail = true
  · have he := hfresh hcas
    subst he
    obtain ⟨p, q, hc⟩ := path_next hL.path (hL.tail_mem hn) (hlink rfl)
    rw [if_pos hcas]
    have hmem : m ∈ c := by rw [hc]; simp
    refine ⟨⟨hL.nodup, hL.path, hL.head, m, hmem, rfl⟩, ?_⟩
    refine { Evolves.refl with tail := seen_raise, ahead := fun _ _ => ?_ }
    -- the new tail has a cell before it, so it is not the first cell of the chain
    obtain ⟨a, r, hcons, hhead⟩ := hL.exists_cons
    have hnd := hL.nodup
    intro heq
    obtain rfl : a = m := by simpa [hhead] using heq
    rw [hc] at hnd hcons
    cases p with
    | nil =>
      obtain ⟨rfl, -⟩ := List.cons.inj hcons
      simp at hnd
    | cons x p =>
      obtain ⟨rfl, -⟩ := List.cons.inj hcons
      simp at hnd
  · rw [if_neg hcas]
    exact ⟨hL, .refl⟩

/-- What a step of an append does: it leaves the chain alone, or hangs the cell on its end. -/
theorem put_step (hL : Linked E C c) (hok : PutOk E C c f pc) (hfresh : PutFresh weak E C c pc)
    (hf : pc.linked = false → f ∉ c ∧ (C.link f).ptr = none)
    (h : putStep weak f E C pc = some (E', C', r)) :
    ∃ c', Linked E' C' c' ∧ Evolves E C c E' C' c' ∧ (∀ pc' ∈ r, PutOk E' C' c' f pc') ∧
      (C' = C ∧ c' = c ∧ (r = none → pc.linked = true) ∧
          (∀ pc' ∈ r, pc'.linked = pc.linked) ∨
        pc.linked = false ∧ c' = c ++ [f] ∧ (∃ t, r = some (.swing t)) ∧
          ∃ p n k, c = p ++ [n] ∧ (C.link n).ptr = none ∧ C' = C.setLink n ⟨k, some f⟩) := by
  cases pc with
  | loadTail =>
    obtain ⟨rfl, rfl, rfl⟩ := by simpa [putStep] using h
    exact ⟨c, hL, .refl, by simp [PutOk, Seen.rfl],
      .inl ⟨rfl, rfl, by simp, by simp [PutPc.linked]⟩⟩
  | loadNext tail =>
    obtain ⟨n, hn, rfl, rfl, rfl⟩ := by simpa [putStep] using h
    refine ⟨c, hL, .refl, ?_, .inl ⟨rfl, rfl, by simp, by simp [PutPc.linked]⟩⟩
    simpa using ⟨hok, n, hn, le_refl _, fun _ => ⟨rfl, fun _ => rfl⟩⟩
  | check tail next e =>
    obtain ⟨hs, n, hn, hle, himp⟩ := hok
    simp only [putStep] at h
    split at h
    · rename_i heq
      have htail := hfresh heq
      obtain ⟨he, hlink⟩ := himp htail
      split at h
      · rename_i hnull
        obtain ⟨rfl, rfl, rfl⟩ := by simpa using h
        refine ⟨c, hL, .refl, ?_, .inl ⟨rfl, rfl, by simp, by simp [PutPc.linked]⟩⟩
        simpa using ⟨hs, hnull, n, hn, hle, fun _ => .inl (hL.tail_mem (htail ▸ hn))⟩
      · rename_i hnull
        obtain ⟨rfl, rfl, rfl⟩ := by simpa using h
        refine ⟨c, hL, .refl, ?_, .inl ⟨rfl, rfl, by simp, by simp [PutPc.linked]⟩⟩
        simpa using ⟨hs, hnull, n, hn, fun _ => hlink hnull⟩
    · obtain ⟨rfl, rfl, rfl⟩ := by simpa using h
      exact ⟨c, hL, .refl, by simp [PutOk], .inl ⟨rfl, rfl, by simp, by simp [PutPc.linked]⟩⟩
  | link tail next e =>
    obtain ⟨hs, hnull, n, hn, hle, himp⟩ := hok
    simp only [putStep, hn, Option.map_some, Option.some.injEq] at h
    split at h
    · rename_i hcas
      obtain ⟨rfl, rfl, rfl⟩ := by simpa using h
      have hempty : (C.link n).ptr = none :=
        (ptr_of_equals (equals_of_casOk hcas)).trans hnull
      have hmem : n ∈ c := by
        rcases hfresh n (by simp [hn]) hcas with hi | hm
        · exact (himp hi).resolve_right (fun hne => hne hempty)
        · exact hm
      obtain ⟨hfc, hfnull⟩ := hf rfl
      obtain ⟨p, rfl⟩ := path_last hL.path hmem hempty
      have hnf : f ≠ n := by rintro rfl; exact hfc hmem
      have hpn : ∀ x ∈ p, x ≠ n := by
        have hnd := hL.nodup
        rintro x hx rfl
        simp [List.nodup_append] at hnd
        exact hnd.2 x hx rfl
      refine ⟨p ++ [n] ++ [f], ⟨?_, ?_, ?_, ?_⟩, ?_, ?_, .inr ⟨rfl, rfl, ⟨tail, rfl⟩, p, n, _,
        rfl, hempty, rfl⟩⟩
      · exact List.nodup_append.mpr ⟨hL.nodup, by simp, by
          intro a ha b hb
          obtain rfl : b = f := by simpa using hb
          rintro rfl
          exact hfc ha⟩
      · rw [List.append_assoc]
        exact path_snoc hL.path (by rw [setLink_ne _ _ hnf]; exact hfnull) (by simp)
          fun x hx => by rw [setLink_ne _ _ (hpn x hx)]
      · rw [hL.head]; cases p <;> rfl
      · obtain ⟨t, ht, hE⟩ := hL.tail
        exact ⟨t, List.mem_append_left _ ht, hE⟩
      · refine { Evolves.refl (c := p ++ [n]) with keep := ?_, chain := ?_, left := ?_ }
        · intro m _ hm
          exact setLink_ne _ _ (by rintro rfl; exact hm hempty)
        · exact fun _ _ => ⟨rfl, rfl⟩
        · exact fun m hm hm' => absurd (List.mem_append_left _ hm) hm'
      · simpa using ⟨hs, n, hn, fun _ => by simp⟩
    · obtain ⟨rfl, rfl, rfl⟩ := by simpa using h
      exact ⟨c, hL, .refl, by simp [PutOk], .inl ⟨rfl, rfl, by simp, by simp [PutPc.linked]⟩⟩
  | help tail next =>
    obtain ⟨hs, hne, n, hn, himp⟩ := hok
    obtain ⟨m, hm⟩ := Option.ne_none_iff_exists'.mp hne
    obtain ⟨rfl, rfl, rfl⟩ := by simpa [putStep] using h
    rw [hm]
    obtain ⟨h1, h2⟩ := casTail_step hL hn (fun he => by rw [himp he, hm]) hfresh
    exact ⟨c, h1, h2, by simp [PutOk], .inl ⟨rfl, rfl, by simp, by simp [PutPc.linked]⟩⟩
  | swing tail =>
    obtain ⟨hs, n, hn, himp⟩ := hok
    obtain ⟨rfl, rfl, rfl⟩ := by simpa [putStep] using h
    obtain ⟨h1, h2⟩ := casTail_step hL hn himp hfresh
    exact ⟨c, h1, h2, by simp, .inl ⟨rfl, rfl, by simp [PutPc.linked], by simp⟩⟩

end StepLemmas

end CoopTasks.Append
