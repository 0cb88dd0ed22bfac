import CoopTasks.ListPool

/-!
What a whole call of the pool does when it runs alone: the chain of free fragments is a FIFO of
which the last fragment cannot be taken.
-/

namespace CoopTasks.LockFreeList

open CoopTasks.Chain (Tagged Cells Linked)
open CoopTasks.Append CoopTasks.Advance CoopTasks.Alone CoopTasks.SizeT
open CoopTasks.Pool (MemoryPool PutCall PickCall FreeOk)

variable {D : Type*} {P : MemoryPool} {C : Cells ℕ D} {c : List ℕ} {f : ℕ}

lemma runPick_loop {pc : TakePc ℕ D} (hL : Linked P.ends C c) (hok : TakeOk false P.ends C pc)
    (ha : TakeAlone P.ends C pc) (hnear : TailNear P.ends C) {fuel : ℕ}
    (hfuel : 6 * lag P.ends C + takeRank pc < fuel) :
    ∃ P' r, runPick (fuel + 1) P C (.loop pc) = some (P', r) ∧ TailNear P'.ends C ∧
      P'.capacity = P.capacity ∧
      ((c.length = 1 ∧ r = none ∧ Linked P'.ends C c ∧ P'.freeable = P.freeable) ∨
        ∃ n m q, c = n :: m :: q ∧ r = some n ∧ Linked P'.ends C (m :: q) ∧
          P'.freeable = sizeSub P.freeable 1) := by
  induction fuel generalizing P pc with
  | zero => omega
  | succ fuel ih =>
    obtain ⟨E', res, hstep, hnear', hmore, hempty, hrank, -⟩ := take_alone false hL hok ha hnear
    obtain ⟨c', hL', hev, hres⟩ := take_step hL hok (takeAlone_fresh ha) hstep
    rw [runPick]
    simp only [Pool.internalMempoolPick, hstep, Option.map_some, Option.bind_some]
    cases res with
    | more pc' =>
      obtain ⟨rfl, -, hok'⟩ := hres.resolve_right (by rintro ⟨n, m, q, buf, h, -⟩; cases h)
      have := hrank pc' rfl rfl
      exact ih (P := { P with ends := E' }) hL' (hok' pc' rfl) (hmore pc' rfl) hnear' (by
        show 6 * lag E' C + takeRank pc' < fuel
        omega)
    | empty =>
      obtain ⟨rfl, -⟩ := hres.resolve_right (by rintro ⟨n, m, q, buf, h, -⟩; cases h)
      exact ⟨_, _, rfl, hnear', rfl, .inl ⟨hempty rfl, rfl, hL', rfl⟩⟩
    | took n buf =>
      obtain ⟨n', m, q, buf', heq, rfl, rfl, -, -⟩ := hres.resolve_left (by
        rintro ⟨-, h, -⟩
        exact h n buf rfl)
      cases heq
      simp only [runPick, Pool.internalMempoolPick, Option.bind_some]
      exact ⟨_, _, rfl, hnear', rfl, .inr ⟨n, m, q, rfl, rfl, hL', rfl⟩⟩

lemma runPut_loop {pc : PutPc ℕ} {c₀ : List ℕ} (hL : Linked P.ends C c₀)
    (hc : c₀ = bif pc.linked then c ++ [f] else c) (hok : PutOk P.ends C c₀ f pc)
    (ha : PutAlone P.ends C pc) (hnear : TailNear P.ends C)
    (hf : pc.linked = false → f ∉ c ∧ (C.link f).ptr = none) {fuel : ℕ}
    (hfuel : 6 * lag P.ends C + putRank pc < fuel) :
    ∃ P' C', runPut f (fuel + 1) P C (.loop pc) = some (P', C') ∧ Linked P'.ends C' (c ++ [f]) ∧
      TailNear P'.ends C' ∧ C'.data = C.data ∧ P'.capacity = P.capacity ∧
      P'.freeable = sizeAdd P.freeable 1 ∧ ∀ n ∉ c, C'.link n = C.link n := by
  induction fuel generalizing P C pc c₀ with
  | zero => omega
  | succ fuel ih =>
    have hfc : pc.linked = false → f ∉ c₀ ∧ (C.link f).ptr = none := fun hl => by
      rw [hc, hl]
      exact hf hl
    have hft : P.ends.tail.ptr ≠ some f ∨ pc.linked = true := by
      cases hl : pc.linked with
      | true => exact .inr rfl
      | false => exact .inl fun ht => (hfc hl).1 (hL.tail_mem ht)
    obtain ⟨E', C', r, hstep, hnear', hmore, hrank⟩ := put_alone false hok ha hnear
      (fun hl => (hfc hl).2) hft
    obtain ⟨c', hL', -, hok', hres⟩ := put_step hL hok (putAlone_fresh ha) hfc hstep
    have hdata := putStep_data hstep
    have hrank := hrank rfl
    rw [runPut]
    simp only [Pool.internalMempoolPut, hstep, Option.map_some, Option.bind_some]
    cases r with
    | none =>
      -- the fragment was linked before
      obtain ⟨rfl, rfl, hl, -⟩ := hres.resolve_right (by rintro ⟨-, -, ⟨t, h⟩, -⟩; cases h)
      rw [hl rfl, cond_true] at hc
      subst hc
      simp only [Option.elim_none, runPut, Pool.internalMempoolPut, Option.bind_some]
      exact ⟨_, _, rfl, hL', hnear', rfl, rfl, rfl, fun _ _ => rfl⟩
    | some pc' =>
      have hfuel' : 6 * lag E' C' + putRank pc' < fuel := by
        simp only [Option.elim_some] at hrank
        omega
      rcases hres with ⟨rfl, rfl, -, hl⟩ | ⟨hl, rfl, ⟨t, ht⟩, p, n, k, hp, -, rfl⟩
      · have hl := hl pc' rfl
        obtain ⟨P', C'', hrun, hrest⟩ := ih (P := { P with ends := E' }) hL' (by rw [hl]; exact hc)
          (hok' pc' rfl) (hmore pc' rfl) hnear' (fun h => hf (hl ▸ h)) hfuel'
        exact ⟨P', C'', hrun, hrest⟩
      · obtain rfl : pc' = .swing t := by simpa using ht
        rw [hl, cond_false] at hc
        subst hc
        obtain ⟨P', C'', hrun, hL'', hnear'', hd, hcap, hfree, hlink⟩ :=
          ih (P := { P with ends := E' }) hL' rfl (hok' _ rfl) (hmore _ rfl) hnear'
            (fun h => by cases h) hfuel'
        refine ⟨P', C'', hrun, hL'', hnear'', hd, hcap, hfree, fun m hm => ?_⟩
        rw [hlink m hm, Chain.setLink_ne]
        rintro rfl
        exact hm (by simp [hp])

/-- The free fragments are chained, the tail at most one behind, and `freeable` counts all of them
but the last. -/
structure Ready (P : MemoryPool) (C : Cells ℕ D) (c : List ℕ) : Prop where
  linked : Linked P.ends C c
  near : TailNear P.ends C
  freeable : P.freeable + 1 = c.length

/-- **Allocation** takes the first free fragment, and fails when there is only one. -/
theorem runPick_ready (h : Ready P C c) : ∃ P',
    P'.capacity = P.capacity ∧
    ((c.length = 1 ∧ runPick poolFuel P C (.loop .loadHead) = some (P', none) ∧ Ready P' C c) ∨
      ∃ n q, c = n :: q ∧ q ≠ [] ∧ runPick poolFuel P C (.loop .loadHead) = some (P', some n) ∧
        Ready P' C q) := by
  have hlag := lag_le (E := P.ends) (C := C)
  obtain ⟨k, hk, hle⟩ : ∃ k, poolFuel = k + 1 ∧ 20 ≤ k := ⟨31, rfl, by omega⟩
  have hok : TakeOk false P.ends C .loadHead := trivial
  have ha : TakeAlone P.ends C (.loadHead : TakePc ℕ D) := trivial
  have hfuel : 6 * lag P.ends C + takeRank (.loadHead : TakePc ℕ D) < k := by
    simp only [takeRank]
    omega
  obtain ⟨P', r, hrun, hnear, hcap, hcases⟩ := runPick_loop h.linked hok ha h.near hfuel
  rw [hk]
  rcases hcases with ⟨hlen, rfl, hL, hf⟩ | ⟨n, m, q, rfl, rfl, hL, hf⟩
  · exact ⟨P', hcap, .inl ⟨hlen, hrun, hL, hnear, by rw [hf]; exact h.freeable⟩⟩
  · refine ⟨P', hcap, .inr ⟨n, m :: q, rfl, by simp, hrun, hL, hnear, ?_⟩⟩
    have := h.freeable
    simp only [List.length_cons] at this ⊢
    rw [hf, sizeSub_eq (by omega)]
    omega

/-- **Giving back** appends a fragment that is not free. -/
theorem runPut_ready (h : Ready P C c) (hf : f ∉ c) (hlen : c.length ≤ sizeMax) : ∃ P' C',
    runPut f poolFuel P C .init = some (P', C') ∧ Ready P' C' (c ++ [f]) ∧ C'.data = C.data ∧
      P'.capacity = P.capacity ∧ ∀ n ∉ c, n ≠ f → C'.link n = C.link n := by
  have hne : ∀ n ∈ c, n ≠ f := fun n hn heq => hf (heq ▸ hn)
  have hlink : ∀ n ∈ c, (C.write f Pool.memoryFragmentMaker).link n = C.link n := fun n hn =>
    Chain.write_ne _ _ (hne n hn)
  have hL : Linked P.ends (C.write f Pool.memoryFragmentMaker) c :=
    h.linked.congr fun n hn => by rw [hlink n hn]
  have hnear : TailNear P.ends (C.write f Pool.memoryFragmentMaker) := h.near.congr h.linked hlink
  have hlag := lag_le (E := P.ends) (C := C.write f Pool.memoryFragmentMaker)
  obtain ⟨k, hk, hle⟩ : ∃ k, poolFuel = k + 1 + 1 ∧ 20 ≤ k := ⟨30, rfl, by omega⟩
  have hok : PutOk P.ends (C.write f Pool.memoryFragmentMaker) c f .loadTail := trivial
  have ha : PutAlone P.ends (C.write f Pool.memoryFragmentMaker) (.loadTail : PutPc ℕ) := trivial
  have hfuel : 6 * lag P.ends (C.write f Pool.memoryFragmentMaker) +
      putRank (.loadTail : PutPc ℕ) < k := by
    simp only [putRank]
    omega
  obtain ⟨P', C', hrun, hL', hnear', hd, hcap, hfree, hsame⟩ :=
    runPut_loop hL rfl hok ha hnear
      (fun _ => ⟨hf, by simp [Pool.memoryFragmentMaker]⟩) hfuel
  refine ⟨P', C', ?_, ⟨hL', hnear', ?_⟩, by rw [hd]; rfl, hcap, fun n hn hnf => ?_⟩
  · rw [hk, runPut]
    exact hrun
  · have := h.freeable
    rw [hfree, sizeAdd_eq (by omega)]
    simp
    omega
  · rw [hsame n hn]
    exact Chain.write_ne _ _ hnf

end CoopTasks.LockFreeList
