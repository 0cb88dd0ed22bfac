import CoopTasks.Placement
import CoopTasks.Pool

/-!
What every step of the memory pool keeps: the fragments of the block are each in one place,
and the chain from the head to the tail is whole.
-/

namespace CoopTasks.Pool

open CoopTasks.Chain CoopTasks.Append CoopTasks.Advance CoopTasks.Placement CoopTasks.SizeT

variable {D : Type*}

/-- What a put knows: its fragment ends the list it will be hung on. -/
def FreeOk (E : Ends ℕ) (C : Cells ℕ D) (c : List ℕ) (f : ℕ) : PutCall → Prop
  | .loop pc => PutOk E C c f pc ∧ (pc.linked = false → (C.link f).ptr = none)
  | _ => True

def CallOk (E : Ends ℕ) (C : Cells ℕ D) (c : List ℕ) : Call D → Prop
  | .alloc _ (.loop pc) => TakeOk false E C pc
  | .free f pc | .setup (.put f pc) => FreeOk E C c f pc
  | _ => True

/-- The pool is sound, with `n` fragments laid out and `c` the chain. -/
structure Inv (s : PoolState D) (n : ℕ) (c : List ℕ) : Prop where
  linked : Linked s.pool.ends s.cells c
  placed : Placed (· < n) (At s c)
  nodup : ∀ o, (s.owns o).Nodup
  calls : ∀ t, CallOk s.pool.ends s.cells c (s.calls t)

variable {s s' : PoolState D} {n : ℕ} {c c' : List ℕ} {E E' : Ends ℕ} {C C' : Cells ℕ D}
  {t f : ℕ} {call call' : Call D} {weak : Bool}

@[simp] lemma setCall_self : (s.setCall t call).calls t = call := by simp [PoolState.setCall]
lemma setCall_ne {u : ℕ} (h : u ≠ t) : (s.setCall t call).calls u = s.calls u := by
  simp [PoolState.setCall, h]
@[simp] lemma setCall_pool : (s.setCall t call).pool = s.pool := rfl
@[simp] lemma setCall_cells : (s.setCall t call).cells = s.cells := rfl
@[simp] lemma setCall_owns : (s.setCall t call).owns = s.owns := rfl

lemma callOk_evolves (hL : Linked E C c) (hev : Evolves E C c E' C' c')
    (hheld : ∀ f, call.held = some f → C'.link f = C.link f) (h : CallOk E C c call) :
    CallOk E' C' c' call := by
  have hput : ∀ f pc, (∀ g, PutCall.held f pc = some g → C'.link g = C.link g) →
      FreeOk E C c f pc → FreeOk E' C' c' f pc := by
    intro f pc hg hok
    cases pc with
    | init | count => trivial
    | loop pc =>
      refine ⟨putOk_evolves hL hev hok.1, fun hlk => ?_⟩
      rw [hg f (by simp [PutCall.held, hlk])]
      exact hok.2 hlk
  cases call with
  | idle | returned => trivial
  | alloc o pc =>
    cases pc with
    | loop pc => exact takeOk_evolves hL hev h
    | count => trivial
  | free f pc => exact hput f pc hheld h
  | setup pc =>
    cases pc with
    | start | test => trivial
    | put f pc => exact hput f pc hheld h

lemma calls_step {calls' : ℕ → Call D} (hI : Inv s n c)
    (hev : Evolves s.pool.ends s.cells c E' C' c') (hne : ∀ u, u ≠ t → calls' u = s.calls u)
    (hheld : ∀ u f, u ≠ t → (s.calls u).held = some f → C'.link f = s.cells.link f)
    (hcall : CallOk E' C' c' (calls' t)) (u : ℕ) : CallOk E' C' c' (calls' u) := by
  by_cases hu : u = t
  · subst hu; exact hcall
  · rw [hne u hu]
    exact callOk_evolves hI.linked hev (fun f hf => hheld u f hu hf) (hI.calls u)

lemma Inv.not_mem_of_held (hI : Inv s n c) (h : (s.calls t).held = some f) : f ∉ c := fun hc =>
  absurd (hI.placed.uniq f .chain (.call t) hc h) (by simp)

lemma Inv.not_owned_of_held (hI : Inv s n c) (h : (s.calls t).held = some f) (o : ℕ) :
    f ∉ s.owns o := fun ho =>
  absurd (hI.placed.uniq f (.client o) (.call t) ho h) (by simp)

lemma Inv.not_mem_of_owned (hI : Inv s n c) {o : ℕ} (h : f ∈ s.owns o) : f ∉ c := fun hc =>
  absurd (hI.placed.uniq f .chain (.client o) hc h) (by simp)

lemma Inv.not_owned_of_mem (hI : Inv s n c) (h : f ∈ c) (o : ℕ) : f ∉ s.owns o := fun ho =>
  hI.not_mem_of_owned ho h

lemma Inv.held_inj (hI : Inv s n c) {u : ℕ} (h : (s.calls t).held = some f)
    (h' : (s.calls u).held = some f) : u = t := by
  simpa using hI.placed.uniq f (.call u) (.call t) h' h

lemma Inv.length_le (hI : Inv s n c) : c.length ≤ n := by
  have hsub : c ⊆ List.range n := fun f hf =>
    List.mem_range.mpr (hI.placed.mem f .chain hf)
  simpa using hI.linked.nodup.length_le_of_subset hsub

lemma Inv.chain_of_le (hI : Inv s n c) (hn : n ≤ s.pool.capacity + 1) : s.chain = c := by
  rw [PoolState.chain, hI.linked.head]
  exact follow_path hI.linked.path (hI.length_le.trans hn)

lemma Inv.chain_eq {cap : ℕ} (hI : Inv s (cap + 1) c) (hcap : s.pool.capacity = cap) :
    s.chain = c := hI.chain_of_le (by rw [hcap])

lemma put_capacity {pc : PutCall} {P P' : MemoryPool} {r : Option PutCall}
    (h : internalMempoolPut weak f P C pc = some (P', C', r)) : P'.capacity = P.capacity := by
  cases pc with
  | init | count =>
    obtain ⟨rfl, -, -⟩ := by simpa [internalMempoolPut] using h
    rfl
  | loop p =>
    obtain ⟨E', r', -, rfl, -⟩ := by simpa [internalMempoolPut] using h
    rfl

lemma put_returns {pc : PutCall} {P P' : MemoryPool}
    (h : internalMempoolPut weak f P C pc = some (P', C', none)) :
    pc = .count ∧ P'.freeable = sizeAdd P.freeable 1 := by
  cases pc <;> grind [internalMempoolPut, Option.map_eq_some_iff]

lemma put_goes {pc pc' : PutCall} {P P' : MemoryPool}
    (h : internalMempoolPut weak f P C pc = some (P', C', some pc')) :
    P'.freeable = P.freeable := by
  cases pc <;> grind [internalMempoolPut, Option.map_eq_some_iff]

lemma put_inv (call : Call D) (hI : Inv s n c) {pc : PutCall} (hheld : (s.calls t).held = pc.held f)
    (hok : FreeOk s.pool.ends s.cells c f pc)
    (hfresh : ∀ p, pc = .loop p → PutFresh weak s.pool.ends s.cells c p)
    {P : MemoryPool} {r : Option PutCall}
    (h : internalMempoolPut weak f s.pool s.cells pc = some (P, C, r))
    (hr : call.held = r.elim none (PutCall.held f))
    (hcall : ∀ c', (∀ pc' ∈ r, FreeOk P.ends C c' f pc') → CallOk P.ends C c' call) :
    ∃ c', Inv ({ s with pool := P, cells := C }.setCall t call) n c' ∧
      (Mild s.cells C ∧ ∀ o, ∀ g ∈ s.owns o, Same s.cells C g) ∧
      (c' = c ∧ call.held = pc.held f ∨
        c' = c ++ [f] ∧ pc.held f = some f ∧ call.held = none) := by
  have hother : ∀ (c' : List ℕ) g p, g ≠ f → (p = .chain → (g ∈ c' ↔ g ∈ c)) →
      (At ({ s with pool := P, cells := C }.setCall t call) c' g p ↔ At s c g p) := by
    intro c' g p hg hchain
    have hne : ∀ o : Option PutCall, o.elim none (PutCall.held f) ≠ some g := by
      rintro (- | - | q | -) <;> simp [PutCall.held, Ne.symm hg]
    cases p with
    | chain => exact hchain rfl
    | call u =>
      by_cases hu : u = t
      · subst hu
        simp only [At, setCall_self, hr, hheld]
        exact ⟨fun e => absurd e (hne r), fun e => absurd e (hne (some pc))⟩
      · simp only [At, setCall_ne hu]
    | client o => rfl
  cases pc with
  | init =>
    obtain ⟨rfl, rfl, rfl⟩ := by simpa [internalMempoolPut] using h
    have hf := hI.not_mem_of_held (hheld.trans rfl)
    have hev := Evolves.of_same (E := s.pool.ends) (c := c)
      (mild_write (C := s.cells) (n := f) (v := memoryFragmentMaker))
      fun m hm => same_write (by rintro rfl; exact hf hm)
    refine ⟨c, ⟨hI.linked.of_same fun m hm => same_write (by rintro rfl; exact hf hm), ?_,
      hI.nodup, ?_⟩, ⟨mild_write, fun o g hg => same_write ?_⟩, .inl ⟨rfl, hr⟩⟩
    · refine hI.placed.congr (fun _ => Iff.rfl) fun g p => ?_
      by_cases hg : g = f
      · subst hg
        cases p with
        | chain | client o => rfl
        | call u =>
          by_cases hu : u = t
          · subst hu; simp [At, hr, hheld, PutCall.held, PutPc.linked]
          · simp only [At, setCall_ne hu]
      · exact hother c g p hg fun _ => Iff.rfl
    · refine calls_step hI hev (fun u => setCall_ne) (fun u g hu hg => write_ne _ _ ?_)
        (setCall_self ▸ hcall c ?_)
      · rintro rfl
        exact hu (hI.held_inj (hheld.trans rfl) hg)
      · simp [FreeOk, PutOk, memoryFragmentMaker]
    · rintro rfl
      exact hI.not_owned_of_held (hheld.trans rfl) o hg
  | loop pc =>
    obtain ⟨E', r', hstep, rfl, rfl⟩ := by simpa [internalMempoolPut] using h
    obtain ⟨hput, hnull⟩ := hok
    have hf : pc.linked = false → f ∉ c ∧ (s.cells.link f).ptr = none := fun hlk =>
      ⟨hI.not_mem_of_held (hheld.trans (by simp [PutCall.held, hlk])), hnull hlk⟩
    obtain ⟨c', hL', hev, hok', hcase⟩ :=
      put_step hI.linked hput (hfresh pc rfl) hf hstep
    rcases hcase with ⟨rfl, rfl, hend, hlk⟩ | ⟨hlk, rfl, ⟨tl, rfl⟩, p, m, k, hc, hm, rfl⟩
    · have hheld' : call.held = (s.calls t).held := by
        rw [hr, hheld]
        cases r' with
        | none => simp [PutCall.held, hend rfl]
        | some pc' => simp [PutCall.held, hlk pc' rfl]
      refine ⟨c', ⟨hL', ?_, hI.nodup, ?_⟩, ⟨.refl, fun _ _ _ => .refl⟩,
        .inl ⟨rfl, hheld'.trans hheld⟩⟩
      · refine hI.placed.congr (fun _ => Iff.rfl) fun g p => ?_
        cases p with
        | chain | client o => rfl
        | call u =>
          by_cases hu : u = t
          · subst hu; simp only [At, setCall_self, hheld']
          · simp only [At, setCall_ne hu]
      · refine calls_step hI hev (fun u => setCall_ne) (fun _ _ _ _ => rfl)
          (setCall_self ▸ hcall c' ?_)
        rintro pc' hpc'
        cases r' with
        | none =>
          obtain rfl : PutCall.count = pc' := by simpa using hpc'
          trivial
        | some q =>
          obtain rfl : PutCall.loop q = pc' := by simpa using hpc'
          exact ⟨hok' q rfl, fun hq => hnull ((hlk q rfl).symm.trans hq)⟩
    · have hmc : m ∈ c := by rw [hc]; simp
      have hfc := hf hlk
      have hft : (s.calls t).held = some f := hheld.trans (by simp [PutCall.held, hlk])
      have hneq : ∀ {g : ℕ}, g ∉ c → g ≠ m := by rintro g hg rfl; exact hg hmc
      refine ⟨c ++ [f], ⟨hL', ?_, hI.nodup, ?_⟩, ⟨hev.mild, fun o g hg => ?_⟩,
        .inr ⟨rfl, hheld.symm.trans hft, hr⟩⟩
      · refine hI.placed.change (i := f) (q := .chain) (fun _ _ => Iff.rfl)
          (fun g hg p => hother _ g p hg fun _ => by simp [hg])
          (hI.placed.mem f (.call t) hft) fun p => ?_
        cases p with
        | chain => simp [At]
        | call u =>
          by_cases hu : u = t
          · subst hu; simp [At, hr, PutCall.held, PutPc.linked]
          · simp only [At, setCall_ne hu, reduceCtorEq, iff_false]
            intro hg
            exact hu (hI.held_inj hft hg)
        | client o =>
          simp only [At, reduceCtorEq, iff_false]
          exact hI.not_owned_of_held hft o
      · refine calls_step hI hev (fun u => setCall_ne) (fun u g hu hg => ?_)
          (setCall_self ▸ hcall _ ?_)
        · exact setLink_ne _ _ (hneq (hI.not_mem_of_held hg))
        · simpa [FreeOk] using ⟨hok' _ rfl, by simp [PutPc.linked]⟩
      · exact same_setLink (hneq (hI.not_mem_of_owned hg))
  | count =>
    obtain ⟨rfl, rfl, rfl⟩ := by simpa [internalMempoolPut] using h
    refine ⟨c, ⟨hI.linked, ?_, hI.nodup, ?_⟩, ⟨.refl, fun _ _ _ => .refl⟩, .inl ⟨rfl, hr⟩⟩
    · refine hI.placed.congr (fun _ => Iff.rfl) fun g p => ?_
      cases p with
      | chain | client o => rfl
      | call u =>
        by_cases hu : u = t
        · subst hu; simp [At, hr, hheld, PutCall.held]
        · simp only [At, setCall_ne hu]
    · exact calls_step hI .refl (fun u => setCall_ne) (fun _ _ _ _ => rfl)
        (setCall_self ▸ hcall c (by simp))

lemma Inv.setCall (hI : Inv s n c) (hheld : call.held = (s.calls t).held)
    (hcall : CallOk s.pool.ends s.cells c call) : Inv (s.setCall t call) n c where
  linked := hI.linked
  placed := hI.placed.congr (fun _ => Iff.rfl) fun g p => by
    cases p with
    | chain | client o => rfl
    | call u =>
      by_cases hu : u = t
      · subst hu; simp only [At, setCall_self, hheld]
      · simp only [At, setCall_ne hu]
  nodup := hI.nodup
  calls := calls_step hI .refl (fun _ => setCall_ne) (fun _ _ _ _ => rfl) (setCall_self ▸ hcall)

lemma Inv.setFreeable (hI : Inv s n c) (k : ℕ) :
    Inv { s with pool := { s.pool with freeable := k } } n c :=
  ⟨hI.linked, hI.placed, hI.nodup, hI.calls⟩

lemma pick_inv (hI : Inv s n c) {o : ℕ} {pc : TakePc ℕ D}
    (hcur : s.calls t = .alloc o (.loop pc)) (hfresh : TakeFresh weak s.pool.ends pc)
    {r : TakeRes ℕ D} (h : takeStep weak false s.pool.ends s.cells pc = some (E', r)) :
    ∃ c', Inv ({ s with pool := { s.pool with ends := E' } }.setCall t
        (match r with
        | .more pc' => .alloc o (.loop pc')
        | .empty => .returned none
        | .took m _ => .alloc o (.count m))) n c' ∧
      (∀ m buf, r = .took m buf → c = m :: c') ∧
      ((∀ m buf, r ≠ .took m buf) → c' = c) := by
  have hok : TakeOk false s.pool.ends s.cells pc := by
    have := hI.calls t
    rwa [hcur] at this
  obtain ⟨c', hL', hev, hcase⟩ := take_step hI.linked hok hfresh h
  rcases hcase with ⟨rfl, hnt, hmore⟩ | ⟨m, m', q, buf, rfl, rfl, rfl, -, -⟩
  · refine ⟨c', ⟨hL', ?_, hI.nodup, ?_⟩, fun m buf hr => absurd hr (hnt m buf), fun _ => rfl⟩
    · refine hI.placed.congr (fun _ => Iff.rfl) fun g p => ?_
      cases p with
      | chain | client o => rfl
      | call u =>
        by_cases hu : u = t
        · subst hu
          cases r with
          | more | empty => simp [At, hcur, Call.held]
          | took m buf => exact absurd rfl (hnt m buf)
        · simp only [At, setCall_ne hu]
    · refine calls_step hI hev (fun _ => setCall_ne) (fun _ _ _ _ => rfl) ?_
      rw [setCall_self]
      cases r with
      | more pc' => exact hmore pc' rfl
      | empty | took => trivial
  · refine ⟨m' :: q, ⟨hL', ?_, hI.nodup, ?_⟩, ?_, fun hnt => absurd rfl (hnt m buf)⟩
    · have hmem : m ∈ m :: m' :: q := by simp
      have hnd := (List.nodup_cons.mp hI.linked.nodup).1
      refine hI.placed.change (i := m) (q := .call t) (fun _ _ => Iff.rfl) (fun g hg p => ?_)
        (hI.placed.mem m .chain hmem) fun p => ?_
      · cases p with
        | chain => simp [At, hg]
        | client o => rfl
        | call u =>
          by_cases hu : u = t
          · subst hu; simp [At, hcur, Call.held, Ne.symm hg]
          · simp only [At, setCall_ne hu]
      · cases p with
        | chain => simpa [At] using hnd
        | client o => simpa [At] using hI.not_owned_of_mem hmem o
        | call u =>
          by_cases hu : u = t
          · subst hu; simp [At, Call.held]
          · simp only [At, setCall_ne hu, Place.call.injEq, hu, iff_false]
            intro hheld
            exact hI.not_mem_of_held hheld hmem
    · refine calls_step hI hev (fun _ => setCall_ne) (fun _ _ _ _ => rfl) ?_
      rw [setCall_self]
      trivial
    · rintro - - ⟨rfl, rfl⟩
      rfl

lemma alloc_inv (hI : Inv s n c) {o : ℕ} (hcur : s.calls t = .alloc o (.count f)) :
    Inv ({ s with owns := Function.update s.owns o (f :: s.owns o) }.setCall t
      (.returned (some f))) n c := by
  have hheld : (s.calls t).held = some f := by rw [hcur]; rfl
  refine ⟨hI.linked, ?_, fun o' => ?_, ?_⟩
  · refine hI.placed.change (i := f) (q := .client o) (fun _ _ => Iff.rfl) (fun g hg p => ?_)
      (hI.placed.mem f (.call t) hheld) fun p => ?_
    · cases p with
      | chain => rfl
      | client o' =>
        by_cases ho : o' = o
        · subst ho; simp [At, hg]
        · simp [At, ho]
      | call u =>
        by_cases hu : u = t
        · subst hu; simp [At, hcur, Call.held, Ne.symm hg]
        · simp only [At, setCall_ne hu]
    · cases p with
      | chain => simpa [At] using hI.not_mem_of_held hheld
      | client o' =>
        by_cases ho : o' = o
        · subst ho; simp [At]
        · simpa [At, ho] using hI.not_owned_of_held hheld o'
      | call u =>
        by_cases hu : u = t
        · subst hu; simp [At, Call.held]
        · simp only [At, setCall_ne hu, reduceCtorEq, iff_false]
          exact fun hg => hu (hI.held_inj hheld hg)
  · by_cases ho : o' = o
    · subst ho
      simpa using ⟨hI.not_owned_of_held hheld o', hI.nodup o'⟩
    · simpa [ho] using hI.nodup o'
  · exact calls_step hI .refl (fun _ => setCall_ne) (fun _ _ _ _ => rfl)
      (by rw [setCall_self]; trivial)

lemma callFree_inv (hI : Inv s n c) {o : ℕ} (hout : (s.calls t).outside = true)
    (hf : f ∈ s.owns o) :
    Inv ({ s with owns := Function.update s.owns o ((s.owns o).erase f) }.setCall t
      (.free f .init)) n c := by
  have hnone : (s.calls t).held = none := by
    cases hc : s.calls t <;> simp [hc, Call.outside, Call.held] at hout ⊢
  refine ⟨hI.linked, ?_, fun o' => ?_, ?_⟩
  · refine hI.placed.change (i := f) (q := .call t) (fun _ _ => Iff.rfl) (fun g hg p => ?_)
      (hI.placed.mem f (.client o) hf) fun p => ?_
    · cases p with
      | chain => rfl
      | client o' =>
        by_cases ho : o' = o
        · subst ho; simp [At, List.mem_erase_of_ne hg]
        · simp [At, ho]
      | call u =>
        by_cases hu : u = t
        · subst hu
          simp only [At, setCall_self, hnone]
          simp [Call.held, PutCall.held, Ne.symm hg]
        · simp only [At, setCall_ne hu]
    · cases p with
      | chain => simpa [At] using hI.not_mem_of_owned hf
      | client o' =>
        by_cases ho : o' = o
        · subst ho
          simp [At, (hI.nodup o').mem_erase_iff]
        · simp only [At, setCall_owns, Function.update_of_ne ho, reduceCtorEq, iff_false]
          exact fun hg => ho (by simpa using hI.placed.uniq f (.client o') (.client o) hg hf)
      | call u =>
        by_cases hu : u = t
        · subst hu; simp [At, Call.held, PutCall.held]
        · simp only [At, setCall_ne hu, Place.call.injEq, hu, iff_false]
          exact fun hg => hI.not_owned_of_held hg o hf
  · by_cases ho : o' = o
    · subst ho; simpa using (hI.nodup o').erase f
    · simpa [ho] using hI.nodup o'
  · exact calls_step hI .refl (fun _ => setCall_ne) (fun _ _ _ _ => rfl)
      (by rw [setCall_self]; trivial)

lemma Inv.setCells (hI : Inv s n c) (hm : Mild s.cells C) (hc : ∀ g ∈ c, Same s.cells C g)
    (hh : ∀ u g, (s.calls u).held = some g → C.link g = s.cells.link g) :
    Inv { s with cells := C } n c where
  linked := hI.linked.of_same hc
  placed := hI.placed.congr (fun _ => Iff.rfl) fun g p => by cases p <;> rfl
  nodup := hI.nodup
  calls t := callOk_evolves hI.linked (.of_same hm hc) (hh t) (hI.calls t)

/-! ### One step -/

/-- No thread is setting the pool up. -/
def Live (s : PoolState D) : Prop := ∀ t pc, s.calls t ≠ .setup pc

/-- What a step of the thread `t` inside a call does besides moving the chain. -/
structure Moved (s s' : PoolState D) (t : ℕ) : Prop where
  capacity : s'.pool.capacity = s.pool.capacity
  mild : Mild s.cells s'.cells
  same : ∀ o, ∀ f ∈ s.owns o, Same s.cells s'.cells f
  others : ∀ u, u ≠ t → s'.calls u = s.calls u
  owns : s'.owns = s.owns ∧ (∀ f, s'.calls t ≠ .returned (some f)) ∨
    ∃ o f, s.calls t = .alloc o (.count f) ∧ s'.calls t = .returned (some f) ∧
      s'.owns = Function.update s.owns o (f :: s.owns o)
  alloc : ∀ o pc, s.calls t = .alloc o pc →
    (∃ pc', s'.calls t = .alloc o pc') ∨ ∃ r, s'.calls t = .returned r
  free : ∀ f pc, s.calls t = .free f pc →
    (∃ pc', s'.calls t = .free f pc') ∨ s'.calls t = .returned none

/-- What a step of a call does to the chain `c` and to the counter `k`. -/
inductive Shift (c : List ℕ) (k : ℕ) : Call D → Call D → List ℕ → ℕ → Prop
  | look {o : ℕ} {pc pc' : TakePc ℕ D} :
    Shift c k (.alloc o (.loop pc)) (.alloc o (.loop pc')) c k
  | empty {o : ℕ} {pc : TakePc ℕ D} : Shift c k (.alloc o (.loop pc)) (.returned none) c k
  | take {o f : ℕ} {pc : TakePc ℕ D} {c' : List ℕ} (hc : c = f :: c') :
    Shift c k (.alloc o (.loop pc)) (.alloc o (.count f)) c' k
  | give {o f : ℕ} : Shift c k (.alloc o (.count f)) (.returned (some f)) c (sizeSub k 1)
  | put {f : ℕ} {pc pc' : PutCall} (h : pc'.held f = pc.held f) :
    Shift c k (.free f pc) (.free f pc') c k
  | link {f : ℕ} {pc pc' : PutCall} (h : pc.held f = some f) (h' : pc'.held f = none) :
    Shift c k (.free f pc) (.free f pc') (c ++ [f]) k
  | done {f : ℕ} : Shift c k (.free f .count) (.returned none) c (sizeAdd k 1)

lemma Live.setCall (h : ∀ u, u ≠ t → ∀ pc, s.calls u ≠ .setup pc)
    (hc : ∀ pc, call ≠ .setup pc) : Live (s.setCall t call) := by
  intro u pc
  by_cases hu : u = t
  · subst hu; simpa using hc pc
  · simpa only [setCall_ne hu] using h u hu pc

/-- A step of a thread inside `mempool_alloc` or `mempool_free`. -/
theorem threadStep_inv (hI : Inv s n c) (hlive : Live s)
    (hfresh : CallFresh weak s.pool.ends s.cells c (s.calls t))
    (h : threadStep s t weak = some s') :
    ∃ c', Inv s' n c' ∧ Live s' ∧ Moved s s' t ∧
      Shift c s.pool.freeable (s.calls t) (s'.calls t) c' s'.pool.freeable := by
  have hothers : ∀ u, u ≠ t → ∀ pc, s.calls u ≠ .setup pc := fun u _ pc => hlive u pc
  unfold threadStep at h
  split at h
  · simp at h
  · simp at h
  · rename_i o pc hcur
    cases pc with
    | loop pc =>
      obtain ⟨P, r, hpick, rfl⟩ := by simpa using h
      obtain ⟨E', r', htake, rfl, rfl⟩ := by simpa [internalMempoolPick] using hpick
      rw [hcur] at hfresh
      obtain ⟨c', hI', htook, hsame⟩ := pick_inv hI hcur hfresh htake
      refine ⟨c', ?_, ?_, ?_, ?_⟩
      · cases r' <;> exact hI'
      · cases r' <;> exact Live.setCall hothers (by simp)
      · cases r' <;>
          exact ⟨rfl, .refl, fun _ _ _ => .refl, fun u hu => setCall_ne hu, .inl ⟨rfl, by simp⟩,
            by simp [hcur], by simp [hcur]⟩
      · rw [hcur]
        cases r' with
        | took m buf => simpa using Shift.take (htook m buf rfl)
        | more pc' => simpa [hsame (by simp)] using Shift.look
        | empty => simpa [hsame (by simp)] using Shift.empty
    | count f =>
      simp only [internalMempoolPick, Option.map_some, Option.some.injEq] at h
      subst h
      refine ⟨c, (alloc_inv hI hcur).setFreeable (sizeSub s.pool.freeable 1),
        Live.setCall hothers (by simp), ?_, by simpa [hcur] using Shift.give⟩
      refine ⟨rfl, .refl, fun _ _ _ => .refl, fun u hu => setCall_ne hu,
        .inr ⟨o, f, hcur, setCall_self, rfl⟩, fun _ _ _ => .inr ⟨_, setCall_self⟩, ?_⟩
      intro g pc' hg
      simp [hcur] at hg
  · rename_i f pc hcur
    obtain ⟨P, C, r, hput, rfl⟩ := by simpa using h
    have hok : FreeOk s.pool.ends s.cells c f pc := by
      have := hI.calls t
      rwa [hcur] at this
    obtain ⟨c', hI', ⟨hm, hs⟩, hc'⟩ := put_inv (r.elim (.returned none) (.free f)) hI
      (by rw [hcur]; rfl) hok (by rintro p rfl; rw [hcur] at hfresh; exact hfresh) hput
      (by cases r <;> rfl) (by
        intro c' hr
        cases r with
        | none => trivial
        | some pc' => exact hr pc' rfl)
    refine ⟨c', hI', Live.setCall hothers (by cases r <;> simp), ?_, ?_⟩
    · refine ⟨put_capacity hput, hm, hs, fun u hu => setCall_ne hu, .inl ⟨rfl, by cases r <;> simp⟩,
        by simp [hcur], ?_⟩
      cases r <;> simp [hcur]
    · rw [hcur]
      cases r with
      | none =>
        obtain ⟨rfl, hP⟩ := put_returns hput
        rcases hc' with ⟨rfl, -⟩ | ⟨-, h0, -⟩
        · simpa [hP] using Shift.done
        · simp [PutCall.held] at h0
      | some pc' =>
        simp only [Option.elim_some, setCall_self, setCall_pool, put_goes hput]
        rcases hc' with ⟨rfl, hh⟩ | ⟨rfl, hh, hh'⟩
        · exact .put hh
        · exact .link hh hh'
  · rename_i pc hcur
    exact absurd hcur (hlive t pc)

end CoopTasks.Pool
