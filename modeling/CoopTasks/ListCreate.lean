import CoopTasks.ListMap

/-!
What `list_create` makes: two sentinels, an empty map, and a pool of which `capacity` fragments can
still be taken.
-/

namespace CoopTasks.LockFreeList

open CoopTasks.Machine CoopTasks.SizeT

variable {V : Type*} {m : Mem V} {head tail x : ℕ} {key : ℤ}

/-- The memory after `list_alloc_node` for a sentinel. -/
def sentinel (m : Mem V) (P : Pool.MemoryPool) (x : ℕ) (key : ℤ) : Mem V :=
  ({ m with pool := P }.setSucc x ⟨none, false, false⟩).setFields x
    ⟨none, key, (m.cells.data x).val⟩

lemma listAllocNode_ready (key : ℤ) {y : ℕ} {q : List ℕ} (h : Ready m.pool m.cells (x :: y :: q)) :
    ∃ P, listAllocNode m key none = some (sentinel m P x key, some x) ∧
      Ready P (sentinel m P x key).cells (y :: q) ∧ P.capacity = m.pool.capacity := by
  obtain ⟨P, hcap, ⟨hlen, -⟩ | ⟨x', q', heq, -, hrun, hready⟩⟩ := runPick_ready h
  · simp at hlen
  · obtain ⟨rfl, rfl⟩ := List.cons.inj heq
    have hx := (List.nodup_cons.mp h.linked.nodup).1
    refine ⟨P, by simp [listAllocNode, hrun, sentinel], hready.congr fun n hn => ?_, hcap⟩
    exact link_setSucc_ne (by rintro rfl; exact hx hn)

lemma sentinels_clean {mem : ℕ → Node ℕ V} (hne : head ≠ tail)
    (hhead : (mem head).succ = getUnmarkedRef (some tail) ∧ (mem head).key = intptrMin)
    (htail : (mem tail).succ = getUnmarkedRef none ∧ (mem tail).key = intptrMax) :
    Clean mem head tail [head, tail] := by
  have hcases : ∀ {p : ℕ → Prop}, p head → p tail → ∀ n ∈ [head, tail], p n := by
    intro p hh ht n hn
    rcases List.mem_pair.mp hn with rfl | rfl
    · exact hh
    · exact ht
  have hm : ∀ n ∈ [head, tail], (mem n).succ.marked = false :=
    hcases (by rw [hhead.1]; rfl) (by rw [htail.1]; rfl)
  have hf : ∀ n ∈ [head, tail], (mem n).succ.flagged = false :=
    hcases (by rw [hhead.1]; rfl) (by rw [htail.1]; rfl)
  exact {
    first := rfl
    last := rfl
    path := by simp [hhead.1]
    sub := fun _ hn => hn
    kept := fun _ hn _ => hn
    next := hcases (fun _ => ⟨tail, by simp, by simp [hhead.1], by
      rw [hhead.2, htail.2]; decide⟩) fun h => absurd rfl h
    tail_succ := htail.1
    head_key := hhead.2
    tail_key := htail.2
    keys := hcases (fun h => absurd rfl h) fun _ => by rw [htail.2]; decide
    both := fun n hn hmn => by simp [hm n hn] at hmn
    flagger := fun n hn hmn => by simp [hm n hn] at hmn
    back := fun n hn hmn => by simp [hm n hn] at hmn
    inner := fun n hn hfn => by simp [hf n hn] at hfn
    marked := hm
    flagged := hf }

lemma listSentinels_holds {p : Pool.PoolState (Fields V)} {q : List ℕ}
    (h : Ready p.pool p.cells (head :: tail :: x :: q)) (hcap : p.pool.capacity = q.length + 2) :
    ∃ m, listSentinels p = some ⟨m, head, some tail, fun _ => ⟨[], .idle⟩⟩ ∧
      Holds q.length m head tail [head, tail] (x :: q) ∅ := by
  obtain ⟨P₁, halloc₁, hready₁, hcap₁⟩ := listAllocNode_ready intptrMin
    (m := ⟨p.pool, p.cells, 0⟩) h
  obtain ⟨P₂, halloc₂, hready₂, hcap₂⟩ := listAllocNode_ready intptrMax
    (m := sentinel ⟨p.pool, p.cells, 0⟩ P₁ head intptrMin) hready₁
  have hnd := h.linked.nodup
  simp only [List.nodup_cons, List.mem_cons, not_or] at hnd
  obtain ⟨⟨hht, hhx, hhq⟩, ⟨htx, htq⟩, -⟩ := hnd
  have hmem : ∀ n ∈ [head, tail], n = head ∨ n = tail := fun n hn => List.mem_pair.mp hn
  refine ⟨(sentinel (sentinel ⟨p.pool, p.cells, 0⟩ P₁ head intptrMin) P₂ tail intptrMax).setSucc
    head ⟨some tail, false, false⟩, by simp [listSentinels, halloc₁, halloc₂],
    ⟨⟨?_, fun n hn => ?_, ?_, ?_, rfl⟩, fun k v => ?_, fun n hn hi => ?_, ?_, ?_⟩⟩
  · refine sentinels_clean hht ⟨?_, ?_⟩ ⟨?_, ?_⟩ <;>
      simp [Mem.node, sentinel, Mem.setSucc, Mem.setFields, Chain.Cells.setLink,
        Chain.Cells.setData, getUnmarkedRef, hht, Ne.symm hht]
  · rcases hmem n hn with rfl | rfl <;>
      simp [Mem.Own, Mem.node, sentinel, Mem.setSucc, Mem.setFields, Chain.Cells.setLink,
        Chain.Cells.setData, Ne.symm hht]
  · refine hready₂.congr fun n hn => link_setSucc_ne ?_
    rintro rfl
    rcases List.mem_cons.mp hn with rfl | hn
    · exact hhx rfl
    · exact hhq hn
  · intro n hn hq
    rcases hmem n hn with rfl | rfl
    · exact (List.mem_cons.mp hq).elim hhx hhq
    · exact (List.mem_cons.mp hq).elim htx htq
  · simp only [Finmap.lookup_empty, reduceCtorEq, false_iff]
    rintro ⟨n, hn, hi, -⟩
    exact (hmem n hn).elim hi.1 hi.2
  · exact absurd (hmem n hn) (not_or.mpr hi)
  · simp
    omega
  · exact hcap₂.trans (hcap₁.trans hcap)

/-- A list that `list_create` has made holds the empty map. -/
theorem made_holds {memory : Bool} {valBytes capacity : ℕ} {s : ListState V}
    (hfit : Sizes.ListSizesFit valBytes capacity) (h : Made memory valBytes capacity s) :
    (∀ t, s.threads t = ⟨[], .idle⟩) ∧ ∃ tail free, s.tail = some tail ∧
      Holds capacity s.mem s.head tail [s.head, tail] free ∅ := by
  obtain ⟨made, p, hmake, hrun, hret, hsent⟩ := h
  have hmax := hfit.2
  unfold listCreate at hmake
  split at hmake
  · simp at hmake
  rw [sizeAdd_eq (a := capacity) (b := 2) (by omega)] at hmake
  obtain ⟨rfl, -⟩ := Pool.mempoolCreate_ok hmake
  obtain ⟨hinv, -, hcap, hnear, -⟩ := Pool.created_inv hmax ⟨hrun, hret⟩
  obtain ⟨-, -, hfree⟩ := Pool.created_rest hmax ⟨hrun, hret⟩
  have hready : Ready p.pool p.cells (List.range (capacity + 2 + 1)) :=
    ⟨hinv.linked, hnear, by rw [hfree]; simp⟩
  obtain ⟨q, hrange⟩ : ∃ q, List.range (capacity + 2 + 1) = 0 :: 1 :: 2 :: q := by
    rw [List.range_succ_eq_map, List.range_succ_eq_map, List.range_succ_eq_map]
    exact ⟨_, rfl⟩
  obtain rfl : q.length = capacity := by
    have := congrArg List.length hrange
    simp only [List.length_range, List.length_cons] at this
    omega
  rw [hrange] at hready
  obtain ⟨m, hm, hholds⟩ := listSentinels_holds hready hcap
  obtain rfl := Option.some.inj (hm.symm.trans hsent)
  exact ⟨fun _ => rfl, 1, 2 :: q, rfl, hholds⟩

lemma exists_made [DecidableEq V] (valBytes capacity cap steps : ℕ) (p : ListState V → Bool)
    (hcreate : listCreate true valBytes capacity = .ok (Pool.raw cap (⟨none, 0, none⟩ : Fields V)))
    (h : ((runIf Pool.next (fun _ a => a.isStep 0 = true) (Pool.raw cap ⟨none, 0, none⟩)
      (List.replicate steps (Pool.strongStep 0))).any fun made =>
        decide (made.calls 0 = .returned none) && (listSentinels made).any p) = true) :
    ∃ s, Made true valBytes capacity s ∧ p s = true := by
  obtain ⟨made, hreach, hmade⟩ := exists_reach _ _ _ _ _ h
  simp only [Bool.and_eq_true, decide_eq_true_eq, Option.any_eq_true] at hmade
  obtain ⟨hret, s, hs, hp⟩ := hmade
  exact ⟨s, ⟨_, made, hcreate, hreach, hret, hs⟩, hp⟩

end CoopTasks.LockFreeList
