import CoopTasks.Alone
import CoopTasks.PoolInv

/-!
A pool that `mempool_create` has made: all its fragments are chained in address order.
-/

namespace CoopTasks.Pool

open CoopTasks.Chain CoopTasks.Append CoopTasks.Advance CoopTasks.Placement CoopTasks.Alone
open CoopTasks.SizeT CoopTasks.Machine

variable {D : Type*} {s s' : PoolState D} {n cap f : ℕ} {c c' : List ℕ} {C C' : Cells ℕ D}
  {weak : Bool} {d : D}

def PutCall.Alone (E : Ends ℕ) (C : Cells ℕ D) : PutCall → Prop
  | .loop pc => PutAlone E C pc
  | _ => True

def PutCall.rank : PutCall → ℕ
  | .init => 14
  | .loop pc => putRank pc + 1
  | .count => 1

lemma put_data {pc : PutCall} {P P' : MemoryPool} {r : Option PutCall}
    (h : internalMempoolPut weak f P C pc = some (P', C', r)) : C'.data = C.data := by
  cases pc with
  | init | count =>
    obtain ⟨-, rfl, -⟩ := by simpa [internalMempoolPut] using h
    rfl
  | loop p =>
    obtain ⟨E', r', hstep, -, -⟩ := by simpa [internalMempoolPut] using h
    exact putStep_data hstep

lemma internalMempoolPut_alone (weak : Bool) {pc : PutCall} {P : MemoryPool}
    (hok : FreeOk P.ends C c f pc)
    (hL : Linked P.ends C c) (hf : pc.held f = some f → f ∉ c) (ha : pc.Alone P.ends C)
    (hnear : TailNear P.ends C) :
    ∃ P' C' r, internalMempoolPut weak f P C pc = some (P', C', r) ∧ TailNear P'.ends C' ∧
      (∀ pc' ∈ r, pc'.Alone P'.ends C') ∧ (weak = false →
        6 * lag P'.ends C' + r.elim 0 PutCall.rank < 6 * lag P.ends C + pc.rank) := by
  cases pc with
  | init =>
    have hlink : ∀ m ∈ c, (C.write f memoryFragmentMaker).link m = C.link m := fun m hm =>
      write_ne _ _ (by rintro rfl; exact hf rfl hm)
    refine ⟨P, _, _, rfl, hnear.congr hL hlink, by simp [PutCall.Alone, PutAlone], fun _ => ?_⟩
    simp [lag_congr hL hlink, PutCall.rank, putRank]
  | loop pc =>
    obtain ⟨hput, hnull⟩ := hok
    have hft : P.ends.tail.ptr ≠ some f ∨ pc.linked = true := by
      cases hlk : pc.linked with
      | true => exact .inr rfl
      | false =>
        refine .inl fun ht => hf ?_ (hL.tail_mem ht)
        simp [PutCall.held, hlk]
    obtain ⟨E', C', r, hstep, hn', ha', hrank⟩ := put_alone weak hput ha hnear hnull hft
    refine ⟨{ P with ends := E' }, C', some (r.elim .count .loop), by
      simp [internalMempoolPut, hstep], hn', ?_, fun hw => ?_⟩
    · cases r with
      | none => simp [PutCall.Alone]
      | some pc' => simpa [PutCall.Alone] using ha' pc' rfl
    · have := hrank hw
      cases r <;> simp [PutCall.rank] at this ⊢ <;> omega
  | count =>
    exact ⟨_, C, none, rfl, hnear, by simp, by simp [PutCall.rank]⟩

/-- How many fragments the set-up lays out; where its bound wraps to zero, only the first. -/
def fragments (cap : ℕ) : ℕ := max 1 (sizeAdd cap 1)

lemma fragments_pos : 0 < fragments cap := lt_max_of_lt_left Nat.one_pos

lemma fragments_eq (h : cap + 1 ≤ sizeMax) : fragments cap = cap + 1 := by
  rw [fragments, sizeAdd_eq h]
  exact max_eq_right (Nat.le_add_left 1 cap)

lemma fragments_le_size (h : cap ≤ sizeMax) : fragments cap ≤ sizeMax :=
  max_le (by decide) (sizeAdd_le h (by decide))

/-- The set-up as far as the thread `u` has brought it, alone. -/
def Resetting (u cap : ℕ) (s : PoolState D) : Prop :=
  (∀ t, t ≠ u → (s.calls t).outside = true) ∧ (∀ o, s.owns o = []) ∧ s.pool.capacity = cap ∧
  match s.calls u with
  | .setup .start => True
  | .setup (.test i) => 0 < i ∧ i ≤ fragments cap ∧ Inv s i (List.range i) ∧
    TailNear s.pool.ends s.cells ∧ (cap ≤ sizeMax → s.pool.freeable + 1 = i)
  | .setup (.put i pc) => i < fragments cap ∧
    Inv s (i + 1) (if pc.held i = none then List.range (i + 1) else List.range i) ∧
    TailNear s.pool.ends s.cells ∧ pc.Alone s.pool.ends s.cells ∧
    (cap ≤ sizeMax → s.pool.freeable + 1 = i)
  | .returned none => Inv s (fragments cap) (List.range (fragments cap)) ∧
    TailNear s.pool.ends s.cells ∧ (cap ≤ sizeMax → s.pool.freeable + 1 = fragments cap)
  | _ => False

/-- What a set-up has to go through still, with `6` for a tail that lags. -/
def SetupCall.rank (cap : ℕ) : SetupCall → ℕ
  | .start => 40 * fragments cap + 30
  | .test i => 40 * (fragments cap - i) + 20
  | .put i pc => 40 * (fragments cap - i) + pc.rank

def Call.setupRank (cap : ℕ) : Call D → ℕ
  | .setup pc => pc.rank cap
  | _ => 0

lemma outside_held {call : Call D} (h : call.outside = true) : call.held = none := by
  cases call <;> simp_all [Call.outside, Call.held]

lemma resetting_step (weak : Bool) {u : ℕ} {pc : SetupCall} (h : Resetting u cap s)
    (hpc : s.calls u = .setup pc) :
    ∃ s', threadStep s u weak = some s' ∧ Resetting u cap s' ∧ s'.cells.data = s.cells.data ∧
      (∀ t, t ≠ u → s'.calls t = s.calls t) ∧
      (weak = false → 6 * lag s'.pool.ends s'.cells + (s'.calls u).setupRank cap <
        6 * lag s.pool.ends s.cells + (s.calls u).setupRank cap) := by
  obtain ⟨hout, howns, hcap, hcur⟩ := h
  have hothers : ∀ (P : MemoryPool) (C : Cells ℕ D) (call : Call D) t, t ≠ u →
      ({ s with pool := P, cells := C }.setCall u call).calls t = s.calls t :=
    fun _ _ _ t ht => setCall_ne ht
  have hout' : ∀ (P : MemoryPool) (C : Cells ℕ D) (call : Call D) t, t ≠ u →
      (({ s with pool := P, cells := C }.setCall u call).calls t).outside = true :=
    fun P C call t ht => (congrArg Call.outside (hothers P C call t ht)).trans (hout t ht)
  unfold threadStep
  rw [hpc] at hcur ⊢
  cases pc with
  | start =>
    -- the stores make fragment 0 the whole chain
    refine ⟨_, rfl, ⟨hout' _ _ _, howns, hcap, ?_⟩, rfl, hothers _ _ _, ?_⟩
    · rw [setCall_self]
      refine ⟨Nat.one_pos, fragments_pos,
        ⟨⟨by simp, ?_, rfl, 0, by simp, rfl⟩, ?_, by simp [howns], fun t => ?_⟩,
        ⟨0, rfl, .inl (by simp [memoryFragmentMaker])⟩, fun _ => rfl⟩
      · show ((s.cells.write 0 memoryFragmentMaker).link 0).ptr = none
        simp [memoryFragmentMaker]
      · have hnone : ∀ t, (({ s with
            pool := ⟨s.pool.capacity, 0, ⟨⟨0, some 0⟩, ⟨0, some 0⟩⟩⟩
            cells := s.cells.write 0 memoryFragmentMaker }.setCall u (.setup (.test 1))).calls
              t).held = none := by
          intro t
          by_cases ht : t = u
          · subst ht; simp [Call.held]
          · exact outside_held (hout' _ _ _ t ht)
        constructor
        · exact fun f hf => ⟨.chain, by simpa [At] using hf⟩
        · rintro f (- | t | o) (- | t' | o') hp hq <;> simp_all [At]
        · rintro f (- | t | o) hp <;> simp_all [At]
      · by_cases ht : t = u
        · subst ht; rw [setCall_self]; trivial
        · rw [hothers _ _ _ t ht]
          have := hout t ht
          cases hc : s.calls t <;> simp_all [Call.outside, CallOk]
    · have hlag : lag (⟨⟨0, some 0⟩, ⟨0, some 0⟩⟩ : Ends ℕ)
          (s.cells.write 0 memoryFragmentMaker) = 0 :=
        lag_zero rfl (by simp [memoryFragmentMaker])
      intro _
      simp only [setCall_self, setCall_pool, setCall_cells, hlag, Option.elim_some,
        Call.setupRank, SetupCall.rank]
      omega
  | test i =>
    obtain ⟨hpos, hi, hI, hnear, hfree⟩ := hcur
    have hheld : (s.calls u).held = none := by rw [hpc]; rfl
    by_cases hlt : i < sizeAdd cap 1
    · -- the next fragment is brought in
      have hmore : i < fragments cap := lt_max_of_lt_right hlt
      refine ⟨s.setCall u (.setup (.put i .init)), by simp [internalMempoolSetup, hcap, hlt],
        ⟨hout' _ _ _, howns, hcap, ?_⟩, rfl, hothers _ _ _, fun _ => by
          simp only [setCall_self, setCall_pool, setCall_cells, Call.setupRank, SetupCall.rank,
            PutCall.rank]
          omega⟩
      rw [setCall_self]
      refine ⟨hmore, ?_, hnear, trivial, hfree⟩
      refine ⟨hI.linked, ?_, hI.nodup, ?_⟩
      · have hnew : ∀ p, ¬ At s (List.range i) i p := fun p hp => by
          have := hI.placed.mem i p hp
          omega
        refine hI.placed.change (i := i) (q := .call u) (fun j hj => by omega) (fun g hg p => ?_)
          (by omega) fun p => ?_
        · cases p with
          | chain | client => rfl
          | call t =>
            by_cases ht : t = u
            · subst ht
              simp only [At, setCall_self, hheld]
              simp [Call.held, PutCall.held, Ne.symm hg]
            · simp only [At, setCall_ne ht]
        · cases p with
          | chain => simp [At, PutCall.held]
          | client o => simpa [At] using hnew (.client o)
          | call t =>
            by_cases ht : t = u
            · subst ht; simp [At, Call.held, PutCall.held]
            · simpa [At, setCall_ne ht, ht] using hnew (.call t)
      · exact calls_step hI .refl (fun _ => setCall_ne) (fun _ _ _ _ => rfl)
          (by rw [setCall_self]; trivial)
    · obtain rfl : i = fragments cap := le_antisymm hi (max_le hpos (Nat.le_of_not_lt hlt))
      refine ⟨s.setCall u (.returned none), by simp [internalMempoolSetup, hcap, hlt],
        ⟨hout' _ _ _, howns, hcap, ?_⟩, rfl, hothers _ _ _, fun _ => by
          simp only [setCall_self, setCall_pool, setCall_cells, Call.setupRank, SetupCall.rank]
          omega⟩
      rw [setCall_self]
      exact ⟨hI.setCall (by rw [hheld]; rfl) trivial, hnear, hfree⟩
  | put i pc =>
    obtain ⟨hi, hI, hnear, ha, hfree⟩ := hcur
    have hok : FreeOk s.pool.ends s.cells (if pc.held i = none then List.range (i + 1)
        else List.range i) i pc := by
      have := hI.calls u
      rwa [hpc] at this
    have hnot : pc.held i = some i →
        i ∉ if pc.held i = none then List.range (i + 1) else List.range i := by
      intro hheld; simp [hheld]
    obtain ⟨P', C', r, hput, hnear', ha', hrank⟩ :=
      internalMempoolPut_alone weak hok hI.linked hnot ha hnear
    obtain ⟨c', hI', -, hc'⟩ := put_inv
      (r.elim (.setup (.test (i + 1))) fun pc' => .setup (.put i pc')) hI
      (by rw [hpc]; rfl) hok (by rintro p rfl; exact putAlone_fresh ha) hput (by cases r <;> rfl)
      (by
        intro c' hr
        cases r with
        | none => trivial
        | some pc' => exact hr pc' rfl)
    have hchain : c' = if r.elim none (PutCall.held i) = none then List.range (i + 1)
        else List.range i := by
      rcases hc' with ⟨rfl, hh⟩ | ⟨rfl, hh, hn⟩
      · cases r with
        | none => rw [← hh]; rfl
        | some pc' => rw [← hh]; rfl
      · rw [if_neg (by simp [hh]), ← List.range_succ, if_pos]
        cases r with
        | none => rfl
        | some pc' => exact hn
    refine ⟨{ s with pool := P', cells := C' }.setCall u
        (.setup (r.elim (.test (i + 1)) (.put i))), by simp [internalMempoolSetup, hput],
      ⟨hout' _ _ _, howns, (put_capacity hput).trans hcap, ?_⟩, put_data hput, hothers _ _ _,
      fun hw => ?_⟩
    · cases r with
      | none =>
        simp only [Option.elim_none, setCall_self]
        refine ⟨Nat.succ_pos i, hi, ?_, hnear', fun hle => ?_⟩
        · rwa [hchain] at hI'
        · have := hfree hle
          have := fragments_le_size hle
          rw [setCall_pool, (put_returns hput).2, sizeAdd_eq (by omega)]
          omega
      | some pc' =>
        simp only [Option.elim_some, setCall_self]
        refine ⟨hi, ?_, hnear', ha' pc' rfl, fun hle => ?_⟩
        · rwa [hchain] at hI'
        · have := hfree hle
          rwa [setCall_pool, put_goes hput]
    · have hlt := hrank hw
      have hle := lag_le (E := P'.ends) (C := C')
      cases r <;> simp only [Option.elim_none, Option.elim_some, setCall_self, setCall_pool,
        setCall_cells, Call.setupRank, SetupCall.rank] at hlt ⊢ <;> omega

/-- The set-up as far as thread 0 has brought it, in a fresh block. -/
def Laying (cap : ℕ) (d : D) (s : PoolState D) : Prop :=
  Resetting 0 cap s ∧ (∀ t, t ≠ 0 → s.calls t = .idle) ∧ s.cells.data = fun _ => d

lemma laying_start : Laying cap d (raw cap d) := by
  have hidle : ∀ t, t ≠ 0 → (raw cap d).calls t = .idle := fun _ ht => if_neg ht
  exact ⟨⟨fun t ht => by rw [hidle t ht]; rfl, fun _ => rfl, rfl, trivial⟩, hidle, rfl⟩

lemma laying_step (h : Laying cap d s) (hs : threadStep s 0 weak = some s') : Laying cap d s' := by
  obtain ⟨hreset, hidle, hdata⟩ := h
  cases hpc : s.calls 0 with
  | setup pc =>
    obtain ⟨s'', hs'', hreset', hdata', hothers, -⟩ := resetting_step weak hreset hpc
    obtain rfl : s'' = s' := by simpa [hs] using hs''.symm
    exact ⟨hreset', fun t ht => (hothers t ht).trans (hidle t ht), hdata'.trans hdata⟩
  | idle | returned => simp [threadStep, hpc] at hs
  | alloc | free =>
    obtain ⟨-, -, -, hcur⟩ := hreset
    rw [hpc] at hcur
    exact hcur.elim

/-- What `mempool_create` leaves behind. -/
theorem created_laying (h : Created cap d s) : Laying cap d s := by
  refine h.1.inv laying_start fun u a v hu ha hv => ?_
  cases a with
  | step t weak =>
    obtain rfl : t = 0 := by simpa [Act.isStep] using ha
    exact laying_step hu hv
  | callAlloc | callFree | write => simp [Act.isStep] at ha

lemma Laying.outside (h : Laying cap d s) (hret : s.calls 0 = .returned none) (t : ℕ) :
    (s.calls t).outside = true := by
  by_cases ht : t = 0
  · subst ht
    rw [hret]
    rfl
  · rw [h.2.1 t ht]
    rfl

theorem created_inv (hcap : cap + 1 ≤ sizeMax) (h : Created cap d s) :
    Inv s (cap + 1) (List.range (cap + 1)) ∧ Live s ∧ s.pool.capacity = cap ∧
      TailNear s.pool.ends s.cells ∧ s.cells.data = fun _ => d := by
  have hout := (created_laying h).outside h.2
  obtain ⟨⟨-, -, heq, hcur⟩, -, hdata⟩ := created_laying h
  rw [h.2, fragments_eq hcap] at hcur
  refine ⟨hcur.1, fun t pc hpc => ?_, heq, hcur.2.1, hdata⟩
  have hsetup := hout t
  simp [hpc, Call.outside] at hsetup

lemma created_rest (hcap : cap + 1 ≤ sizeMax) (h : Created cap d s) :
    (∀ t, (s.calls t).outside = true) ∧ (∀ o, s.owns o = []) ∧ s.pool.freeable = cap := by
  have hout := (created_laying h).outside h.2
  obtain ⟨⟨-, howns, -, hcur⟩, -, -⟩ := created_laying h
  rw [h.2, fragments_eq hcap] at hcur
  exact ⟨hout, howns, Nat.succ.inj (hcur.2.2 (Nat.le_of_succ_le hcap))⟩

/-! ### Schedules -/

/-- The step of a thread inside a call, no compare-exchange failing spuriously. -/
def strongStep (t : ℕ) : Act D := .step t false

lemma exists_created [DecidableEq D] (cap : ℕ) (d : D) (ok : PoolState D → Act D → Prop)
    [∀ s a, Decidable (ok s a)] (p : PoolState D → Bool) (setUp ls : List (Act D))
    (h : ((runIf next (fun _ a => a.isStep 0 = true) (raw cap d) setUp).any fun s₀ =>
      decide (s₀.calls 0 = .returned none) && (runIf next ok s₀ ls).any p) = true) :
    ∃ s₀ s, Created cap d s₀ ∧ Reach next ok s₀ s ∧ p s = true := by
  obtain ⟨s₀, h₀, hs⟩ := (Option.any_eq_true _ _).mp h
  simp only [Bool.and_eq_true, decide_eq_true_eq] at hs
  obtain ⟨s, hreach, hp⟩ := exists_reach next ok s₀ p ls hs.2
  exact ⟨s₀, s, ⟨reach_of_runIf h₀, hs.1⟩, hreach, hp⟩

end CoopTasks.Pool
