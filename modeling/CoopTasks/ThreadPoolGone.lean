import CoopTasks.ThreadPoolClosing

/-!
What is left of a thread pool when `thrdpool_destroy` has returned: nobody uses it any more. A
worker that was cancelled may have taken one more job, as it looks for its cancellation only at the
top of its loop and while it sleeps.
-/

namespace CoopTasks.ThreadPool

open CoopTasks.SizeT CoopTasks.Machine CoopTasks.ThreadPoolCreate

variable {Q B : Type*}

/-! ### A pool that is gone -/

/-- Whether the move is made by a worker of the pool, or has to do with the pool. -/
def Closing.Uses (d : Closing Q B) (q : Q) : Move Q B → Prop
  | .base (.start p _) | .base (.storeFirst p) | .base (.create p _) | .base (.createFail p _)
  | .base (.store p) | .base (.enter p _) | .base (.finish p _) | .base (.spurious p _) => p = q
  | .base (.call t tp _) => t.WorksFor q ∨ tp = some q
  | .base (.step t) => t.WorksFor q ∨ ∃ job a, d.base.pcs t = .add q job a
  | .testcancel p _ | .obey p _ | .unwind p _ | .destroy p | .destroyStep p => p = q

/-- A pool of `n` workers is done with: no thread is in it, or will be. -/
structure Gone (n : ℕ) (d : Closing Q B) (q : Q) : Prop where
  ended : ∀ i < n, d.life (.worker q i) = .ended
  free : (d.base.pools q).seekMtx = none
  calls : ∀ t job a, d.base.pcs t ≠ .add q job a
  jobs : ((d.base.pools q).accepted : Multiset (Job B)) =
    (d.base.pools q).queued n + (d.base.pools q).taken

section Returned

variable {w : Q → Workers} {d d' : Closing Q B} {s s' : State Q B} {q p : Q} {t u : Tid Q}
  {act : Act Q B} {m : Move Q B} {i j n : ℕ} {job : Job B} {a : AddPc}

lemma Closing.Sound.ended (h : d.Sound w) (hd : d.destroy q = .returned) (hi : i < (w q).num) :
    d.life (.worker q i) = .ended :=
  (h.pools q).gone i hi (by simp [hd, DestroyPc.left])

lemma Closing.Sound.unborn (h : d.Sound w) (hi : ¬ i < (w q).num) :
    d.base.pcs (.worker q i) = .unborn :=
  by_contra fun hpc => hi (begun_lt h.base hpc)

lemma Closing.Sound.gone (h : d.Sound w) (hd : d.destroy q = .returned) :
    Gone (w q).num d q := by
  have hrest : ∀ i, d.base.pcs (.worker q i) = .rest ∨ d.base.pcs (.worker q i) = .unborn :=
    fun i => by
      by_cases hi : i < (w q).num
      · have hlives := h.lives (.worker q i)
        rw [h.ended hd hi] at hlives
        exact .inl hlives
      · exact .inr (h.unborn hi)
  have hcalls : ∀ t job a, d.base.pcs t ≠ .add q job a := fun t job a hpc => by
    by_cases ht : t.WorksFor q
    · cases t with
      | outside => exact ht
      | worker p i =>
        obtain rfl : p = q := ht
        rcases hrest i with hr | hr <;> simp [hpc] at hr
    · exact (h.pools q).strangers (by simp [hd]) t ht job a hpc
  refine ⟨fun i hi => h.ended hd hi, ?_, hcalls, ((h.base.pools q).stock).balance⟩
  cases hm : (d.base.pools q).seekMtx with
  | none => rfl
  | some t =>
    -- whoever has the mutex is in `thrdpool_add`, or in the loop of a worker
    have hin := ((h.base.pools q).locked t).mpr hm
    cases hpc : d.base.pcs t with
    | add p job a =>
      rw [hpc] at hin
      obtain rfl : p = q := by cases a <;> simp [Pc.inside] at hin <;> exact hin
      exact absurd hpc (hcalls t job a)
    | seek | wait | leave =>
      cases t with
      | outside => simp [hpc, Pc.inside] at hin
      | worker p i =>
        obtain rfl : p = q := by simpa [hpc, Pc.inside] using hin
        rcases hrest i with hr | hr <;> simp [hpc] at hr
    | _ => simp [hpc, Pc.inside] at hin

variable [DecidableEq Q]

lemma next_unborn (hpc : s.pcs (.worker q i) = .unborn) (hi : ¬ i < (w q).num)
    (hact : act.thread = some (.worker q i)) : next w s act = none := by
  cases act with
  | start | storeFirst | create | createFail | store => simp [Act.thread] at hact
  | enter p j =>
    obtain ⟨rfl, rfl⟩ := by simpa [Act.thread] using hact
    simp only [next, hpc]
    exact if_neg fun hc => hi hc.1
  | finish p j | spurious p j =>
    obtain ⟨rfl, rfl⟩ := by simpa [Act.thread] using hact
    simp [next, hpc]
  | call t tp b =>
    obtain rfl := by simpa [Act.thread] using hact
    simp [next, hpc]
  | step t =>
    obtain rfl := by simpa [Act.thread] using hact
    simp [next, hpc, worker]

lemma Closing.Sound.unused_base (h : d.Sound w) (hd : d.destroy q = .returned)
    (hkeeps : d.Keeps act) (hgo : act.thread.all d.goesOn = true)
    (hs : ThreadPool.next w d.base act = some s) : ¬ d.Uses q (.base act) := by
  have hq := h.pools q
  have hidle : d.destroy q ≠ .idle := by simp [hd]
  have hdone := hq.done (by rw [hd]; rfl)
  have hstored : (d.base.pools q).os 0 = some _ := hq.stored hidle
  have hworks : ∀ t, act.thread = some t → ¬ t.WorksFor q := fun t hact ht => by
    cases t with
    | outside => exact ht
    | worker p i =>
      obtain rfl : p = q := ht
      rw [hact] at hgo
      have hrun : d.life (.worker p i) ≠ .ended := by simp [runs_of_goesOn hgo]
      have hi : ¬ i < (w p).num := fun hi => hrun (h.ended hd hi)
      simp [next_unborn (h.unborn hi) hi hact] at hs
  intro huses
  cases act with
  | start p k =>
    obtain rfl : p = q := huses
    simp [ThreadPool.next, createStep, hstored] at hs
  | storeFirst p =>
    obtain rfl : p = q := huses
    exact hidle hkeeps
  | create p k | store p =>
    obtain rfl : p = q := huses
    cases hcr : (d.base.pools p).creator with
    | create j =>
      have hj : ¬ j < (w p).num := Nat.not_lt.mpr (by simpa [hcr, Creator.done] using hdone)
      simp [ThreadPool.next, createStep, hcr, hj] at hs
    | store => simp [hcr, Creator.done] at hdone
  | createFail p k => exact hkeeps
  | enter p i | finish p i | spurious p i =>
    obtain rfl : p = q := huses
    exact hworks _ rfl rfl
  | call t tp b =>
    rcases huses with ht | rfl
    · exact hworks t rfl ht
    · exact hkeeps.elim (hworks t rfl) hidle
  | step t =>
    rcases huses with ht | ⟨job, a, hpc⟩
    · exact hworks t rfl ht
    · exact (h.gone hd).calls t job a hpc

/-- **Nobody uses a pool that was destroyed.** -/
lemma Closing.Sound.unused (h : d.Sound w) (hd : d.destroy q = .returned) (hok : d.Orderly m)
    (hs : d.next w m = some d') : ¬ d.Uses q m := by
  have hunborn : ∀ i, d.life (.worker q i) ≠ .ended → d.base.pcs (.worker q i) = .unborn :=
    fun i hrun => h.unborn fun hi => hrun (h.ended hd hi)
  have hlives : ∀ i, d.life (.worker q i) ≠ .ended →
      LifeOk (.unborn : Pc Q B) (d.life (.worker q i)) := fun i hrun =>
    hunborn i hrun ▸ h.lives (.worker q i)
  cases Closing.steps hs with
  | base act s hgo hstep => exact h.unused_base hd hok.2 hgo hstep
  | pass p i hlife hpc | quit p i hlife hpc | drop p i hlife hpc =>
    rintro rfl
    simp [hunborn i (by simp [hlife])] at hpc
  | rouse p i hlife hpc =>
    rintro rfl
    simp [hunborn i (by simp [hlife])] at hpc
  | relock p i _ hlife | unlock p i hlife =>
    rintro rfl
    have hl := hlives i (by simp [hlife])
    simp [hlife, LifeOk] at hl
  | destroy p hidle =>
    rintro rfl
    simp [hd] at hidle
  | destroyStep p _ hstep =>
    rintro rfl
    simp [thrdpoolDestroy, hd] at hstep

end Returned

/-! ### Jobs that are still taken -/

/-- Whether the worker may take a job before it comes to its `pthread_testcancel`. -/
def Closing.hunts (d : Closing Q B) (t : Tid Q) : Bool := d.goesOn t && (d.base.pcs t).inLoop

/-- Whether the worker leaves the critical section with a job, and begins to run it. -/
def Closing.runsJob [DecidableEq Q] (d : Closing Q B) (t : Tid Q) : Move Q B → Bool
  | .base (.step u) =>
    match d.base.pcs u with
    | .leave _ => decide (u = t)
    | _ => false
  | _ => false

section Late

variable [DecidableEq Q] {w : Q → Workers} {d d' : Closing Q B} {s : State Q B} {q p : Q}
  {t u : Tid Q} {act : Act Q B} {m : Move Q B} {i n : ℕ} {ds : List (Closing Q B × Move Q B)}

omit [DecidableEq Q] in
lemma hunts_eq (hpcs : d'.base.pcs t = d.base.pcs t) (hlife : d'.life t = d.life t)
    (htested : d'.tested t = d.tested t) : d'.hunts t = d.hunts t := by
  unfold Closing.hunts Closing.goesOn
  rw [hpcs, hlife, htested]

omit [DecidableEq Q] in
lemma hunts_of_life (h : d.life t ≠ .runs) : d.hunts t = false := by
  unfold Closing.hunts
  cases hgo : d.goesOn t with
  | false => rfl
  | true => exact absurd (runs_of_goesOn hgo) h

omit [DecidableEq Q] in
lemma hunts_of_pc (h : (d.base.pcs t).inLoop = false) : d.hunts t = false := by
  unfold Closing.hunts
  rw [h, Bool.and_false]

omit [DecidableEq Q] in
lemma goesOn_of_runs (hlife : d.life t = .runs) (htop : d.base.pcs t ≠ .top) :
    d.goesOn t = true := by
  unfold Closing.goesOn
  rw [hlife]
  split
  · contradiction
  · rfl
  · rename_i hno _
    exact (hno rfl).elim

omit [DecidableEq Q] in
lemma hunts_of_runs (hlife : d.life t = .runs) (hpc : (d.base.pcs t).inLoop = true)
    (htop : d.base.pcs t ≠ .top) : d.hunts t = true := by
  unfold Closing.hunts
  rw [goesOn_of_runs hlife htop, hpc]
  rfl

lemma runsJob_of_ne (h : m ≠ .base (.step t)) : d.runsJob t m = false := by
  unfold Closing.runsJob
  split
  · split
    · refine decide_eq_false ?_
      rintro rfl
      exact h rfl
    · rfl
  · rfl

/-- A move of the pools: a worker that is past the `pthread_testcancel` takes one job, or waits. -/
lemma late_base (hown : OwnQueue d.base act) (hgo : act.thread.all d.goesOn = true)
    (hs : next w d.base act = some s) :
    (d.runsJob t (.base act)).toNat +
      (Closing.hunts { d with base := s, tested := act.untest d.tested } t).toNat ≤
        (d.hunts t).toNat := by
  set d' : Closing Q B := { d with base := s, tested := act.untest d.tested } with hd'
  have huntested : act.restarts ≠ some t → d'.tested t = d.tested t := fun hr => by
    show act.untest d.tested t = d.tested t
    unfold Act.untest
    cases hu : act.restarts with
    | none => rfl
    | some u =>
      refine Function.update_of_ne ?_ ..
      rintro rfl
      exact hr hu
  have hstep : act = .step t → d.goesOn t = true := fun h => by
    rw [h] at hgo
    exact hgo
  have hmove : act ≠ .step t → d.runsJob t (.base act) = false := fun h =>
    runsJob_of_ne fun h' => h (Move.base.inj h')
  have hno : ∀ {pc}, d.base.pcs t = pc → (∀ job, pc ≠ .leave job) →
      d.runsJob t (.base act) = false := fun {pc} hpc hleave => by
    by_cases h : act = .step t
    · rw [h]
      unfold Closing.runsJob
      cases pc with
      | leave job => exact absurd rfl (hleave job)
      | _ => simp only [hpc]
    · exact hmove h
  have hgoes := next_goes hown hs t
  generalize hpc : d.base.pcs t = pc at hgoes
  generalize hpc' : s.pcs t = pc' at hgoes
  have hself : d'.base.pcs t = pc' := hpc'
  cases hgoes with
  | stay _ h hr =>
    rw [hmove h, hunts_eq (hself.trans hpc.symm) rfl (huntested hr)]
    exact (Nat.zero_add _).le
  | wake h hr =>
    rw [hmove h]
    cases hlife : d.life t with
    | runs => simpa [hunts_of_runs hlife (by rw [hpc]; rfl) (by simp [hpc])] using Bool.toNat_le _
    | _ => simp [hunts_of_life (d := d') (t := t) (by simp [hd', hlife])]
  | restart _ hout h =>
    have htested : d'.tested t = false := by
      show act.untest d.tested t = false
      unfold Act.untest
      rw [h]
      exact Function.update_self ..
    have hgo' : d'.goesOn t = false := by
      unfold Closing.goesOn
      rw [hself, htested]
      cases d'.life t <;> rfl
    have hhunts : d'.hunts t = false := by
      unfold Closing.hunts
      rw [hgo', Bool.false_and]
    have hne : act ≠ .step t := by
      rintro rfl
      simp [Act.restarts] at h
    rw [hmove hne, hhunts]
    exact Nat.zero_le _
  | call q b job h =>
    rw [hno hpc (by simp), hunts_of_pc (by rw [hself]; rfl)]
    exact Nat.zero_le _
  | add q job a a' h | ret q job a h =>
    rw [hno hpc (by simp), hunts_of_pc (by rw [hself]; rfl)]
    exact Nat.zero_le _
  | seek _ _ h hin hin' htop hleave =>
    have hhunts : d.hunts t = true := by
      unfold Closing.hunts
      rw [hstep h, hpc, hin]
      rfl
    rw [hno hpc hleave, hhunts]
    simpa using Bool.toNat_le _
  | leave job h =>
    have hhunts : d.hunts t = true := by
      unfold Closing.hunts
      rw [hstep h, hpc]
      rfl
    rw [hunts_of_pc (d := d') (by rw [hself]; rfl), hhunts]
    simpa using Bool.toNat_le _

lemma thrdpoolDestroy_eq {pc : DestroyPc} (hs : thrdpoolDestroy w d q pc = some d') :
    ∃ pc' c, d' = { d.setDestroy q pc' with cancelled := c } ∧
      ∀ t, d.cancelled t = true → c t = true := by
  cases pc with
  | idle | returned => simp [thrdpoolDestroy] at hs
  | await =>
    simp only [thrdpoolDestroy] at hs
    split at hs
    · exact ⟨_, d.cancelled, (Option.some.inj hs).symm, fun _ => id⟩
    · simp at hs
  | cancel left =>
    cases left with
    | nil => exact ⟨_, d.cancelled, (Option.some.inj hs).symm, fun _ => id⟩
    | cons i left =>
      simp only [thrdpoolDestroy] at hs
      split at hs
      · rename_i j _
        refine ⟨_, _, (Option.some.inj hs).symm, fun t hc => ?_⟩
        by_cases ht : t = .worker q j
        · rw [ht]
          exact Function.update_self ..
        · rwa [Function.update_of_ne ht]
      · exact ⟨_, d.cancelled, (Option.some.inj hs).symm, fun _ => id⟩
  | join j left =>
    simp only [thrdpoolDestroy] at hs
    split at hs
    · exact ⟨_, d.cancelled, (Option.some.inj hs).symm, fun _ => id⟩
    · simp at hs

lemma next_cancelled (hs : d.next w m = some d') :
    (∀ t, d.cancelled t = true → d'.cancelled t = true) ∧
      ∀ q, m ≠ .destroy q → m ≠ .destroyStep q → d'.destroy q = d.destroy q := by
  cases Closing.steps hs with
  | base | pass | quit | drop | rouse | relock | unlock => exact ⟨fun _ => id, fun _ _ _ => rfl⟩
  | destroy p =>
    refine ⟨fun _ => id, fun q hq _ => Function.update_of_ne ?_ ..⟩
    rintro rfl
    exact hq rfl
  | destroyStep p _ hstep =>
    obtain ⟨pc, c, rfl, hmono⟩ := thrdpoolDestroy_eq hstep
    refine ⟨hmono, fun q _ hq => Function.update_of_ne ?_ ..⟩
    rintro rfl
    exact hq rfl

lemma late_step (h : d.Sound w) (hok : d.Orderly m) (hc : d.cancelled t = true)
    (hs : d.next w m = some d') :
    (d.runsJob t m).toNat + (d'.hunts t).toNat ≤ (d.hunts t).toNat := by
  have hquiet : d.runsJob t m = false → d'.hunts t = false ∨ d'.hunts t = d.hunts t →
      (d.runsJob t m).toNat + (d'.hunts t).toNat ≤ (d.hunts t).toNat := fun hjob hhunts => by
    rw [hjob]
    rcases hhunts with hh | hh <;> simp [hh]
  -- a worker that acts on its cancellation takes no job any more
  have hworker : ∀ {q i l}, d.runsJob t m = false →
      d'.life = Function.update d.life (.worker q i) l → l ≠ .runs →
      (∀ u, u ≠ .worker q i → d'.base.pcs u = d.base.pcs u) → d'.tested = d.tested →
      (d.runsJob t m).toNat + (d'.hunts t).toNat ≤ (d.hunts t).toNat :=
    fun {q i l} hjob hlife hl hpcs htested => hquiet hjob <| by
      by_cases ht : t = .worker q i
      · subst ht
        exact .inl (hunts_of_life (by rwa [hlife, Function.update_self]))
      · refine .inr (hunts_eq (hpcs t ht) ?_ (by rw [htested]))
        rw [hlife, Function.update_of_ne ht]
  cases Closing.steps hs with
  | base act s hgo hstep => exact late_base hok.1 hgo hstep
  | pass q i _ _ _ hcancelled =>
    have ht : t ≠ .worker q i := by
      rintro rfl
      simp [hc] at hcancelled
    exact hquiet rfl (.inr (hunts_eq rfl rfl (Function.update_of_ne ht ..)))
  | quit | drop | rouse | unlock => exact hworker rfl rfl (by simp) (fun u hu => setPc_ne hu) rfl
  | relock q i s hlife hstep =>
    exact hworker rfl rfl (by simp) (fun u hu => worker_others (h.relocks hlife hstep).2 hu) rfl
  | destroy => exact hquiet rfl (.inr rfl)
  | destroyStep q _ hstep =>
    obtain ⟨pc, c, rfl, -⟩ := thrdpoolDestroy_eq hstep
    exact hquiet rfl (.inr rfl)

lemma late_of_trace (hn : ∀ q, (w q).num < 2 ^ 31)
    (h : Trace (Closing.next w) Closing.Orderly Closing.initial ds d) (t : Tid Q) :
    (d.cancelled t = false → ds.countP (fun x => x.1.cancelled t && x.1.runsJob t x.2) = 0) ∧
    ds.countP (fun x => x.1.cancelled t && x.1.runsJob t x.2) + (d.hunts t).toNat ≤ 1 := by
  induction h with
  | refl => exact ⟨fun _ => rfl, by simpa using Bool.toNat_le _⟩
  | step h hok hs ih =>
    rename_i ds d d' m
    rw [List.countP_cons]
    cases hc : d.cancelled t with
    | false =>
      rw [ih.1 hc]
      exact ⟨fun _ => by simp, by simpa using Bool.toNat_le _⟩
    | true =>
      have hlate := late_step (sound_of_trace hn h) hok hc hs
      refine ⟨fun hc' => ?_, ?_⟩
      · rw [(next_cancelled hs).1 t hc] at hc'
        cases hc'
      · rw [Bool.true_and]
        cases hjob : d.runsJob t m with
        | false =>
          rw [hjob] at hlate
          have := ih.2
          simp only [Bool.toNat_false, Bool.false_eq_true, if_false] at hlate ⊢
          omega
        | true =>
          rw [hjob] at hlate
          have := ih.2
          simp only [Bool.toNat_true, if_true] at hlate ⊢
          omega

/-- **A destroyed pool is left alone**: in every run of any number of pools that others use only
until they are destroyed, when a `thrdpool_destroy` has returned, all of the pool's workers have
ended, no thread is in its code or ever will be, its mutex is free, and the jobs that it accepted
and that no worker took are those in its queues; and a worker begins at most one job after it was
cancelled. -/
theorem thrdpool_destroy_safe (hn : ∀ q, (w q).num < 2 ^ 31)
    (h : Trace (Closing.next w) Closing.Orderly (Closing.initial : Closing Q B) ds d) :
    (∀ q, d.destroy q = .returned → Gone (w q).num d q ∧
      ∀ m d', d.Orderly m → d.next w m = some d' → ¬ d.Uses q m ∧ d'.destroy q = .returned) ∧
    ∀ t, ds.countP (fun x => x.1.cancelled t && x.1.runsJob t x.2) ≤ 1 := by
  have hsound := sound_of_trace hn h
  refine ⟨fun q hd => ⟨hsound.gone hd, fun m d' hok hs => ?_⟩, fun t => ?_⟩
  · have hunused := hsound.unused hd hok hs
    refine ⟨hunused, ((next_cancelled hs).2 q ?_ ?_).trans hd⟩ <;>
      (rintro rfl; exact hunused rfl)
  · exact (Nat.le_add_right ..).trans (late_of_trace hn h t).2

end Late

/-! ### A run -/

section Run

variable [DecidableEq Q] {w : Q → Workers} {d d' : Closing Q B} {s : State Q B} {q : Q} {t : Tid Q}
  {m : Move Q B} {ds : List (Closing Q B × Move Q B)} {k j : ℕ}

/-- Whether the move is made by a worker, by a `thrdpool_destroy` or by one of the first `k` outside
threads. -/
def Move.within (k : ℕ) : Move Q B → Bool
  | .base act => act.within k
  | _ => true

/-- `Closing.Orderly`, where only the first `k` outside threads call `thrdpool_add`. -/
def Closing.OrderlyTo (k : ℕ) (d : Closing Unit B) : Move Unit B → Prop
  | .base act => (OwnQueue d.base act ∧ d.Keeps act) ∧ act.within k = true
  | .destroy q => (d.base.pools q).os 0 = some ((d.base.pools q).thr 0) ∧
    ∀ j < k, (d.base.pcs (.outside j)).call.isNone = true
  | _ => True

instance (q : Q) : (t : Tid Q) → Decidable (t.WorksFor q)
  | .outside _ => inferInstanceAs (Decidable False)
  | .worker p _ => inferInstanceAs (Decidable (p = q))

instance (d : Closing Q B) : (act : Act Q B) → Decidable (d.Keeps act)
  | .createFail _ _ => inferInstanceAs (Decidable False)
  | .storeFirst q => inferInstanceAs (Decidable (d.destroy q = .idle))
  | .call t (some q) _ => inferInstanceAs (Decidable (t.WorksFor q ∨ d.destroy q = .idle))
  | .call _ none _ | .start _ _ | .create _ _ | .store _ | .enter _ _ | .finish _ _
  | .spurious _ _ | .step _ => inferInstanceAs (Decidable True)

instance (d : Closing Unit B) : (m : Move Unit B) → Decidable (d.OrderlyTo k m)
  | .base act =>
    inferInstanceAs (Decidable ((OwnQueue d.base act ∧ d.Keeps act) ∧ act.within k = true))
  | .destroy q => inferInstanceAs (Decidable ((d.base.pools q).os 0 =
      some ((d.base.pools q).thr 0) ∧ ∀ j < k, (d.base.pcs (.outside j)).call.isNone = true))
  | .testcancel _ _ | .obey _ _ | .unwind _ _ | .destroyStep _ => inferInstanceAs (Decidable True)

lemma next_outside (h : d.Sound w) (hok : d.Orderly m) (hm : m.within j = true)
    (hrest : d.base.pcs (.outside j) = .rest) (hs : d.next w m = some d') :
    d'.base.pcs (.outside j) = .rest := by
  cases Closing.steps hs with
  | base act s hgo hstep => exact outside_stays hok.1 hm hrest hstep
  | quit | drop | rouse | unlock => exact (setPc_ne (by simp)).trans hrest
  | relock q i s hlife hstep =>
    exact (worker_others (h.relocks hlife hstep).2 (by simp)).trans hrest
  | pass | destroy => exact hrest
  | destroyStep q _ hstep =>
    obtain ⟨pc, c, rfl, -⟩ := thrdpoolDestroy_eq hstep
    exact hrest

lemma orderly_of_to {w : Unit → Workers} {d : Closing Unit B}
    {ds : List (Closing Unit B × Move Unit B)} (hn : ∀ q, (w q).num < 2 ^ 31)
    (h : Trace (Closing.next w) (Closing.OrderlyTo k) Closing.initial ds d) :
    Trace (Closing.next w) Closing.Orderly Closing.initial ds d ∧
      ∀ j, k ≤ j → d.base.pcs (.outside j) = .rest := by
  induction h with
  | refl => exact ⟨.refl, fun _ _ => rfl⟩
  | step h hok hs ih =>
    rename_i ds d d' m
    obtain ⟨htrace, hrest⟩ := ih
    have hok' : d.Orderly m := by
      cases m with
      | base act => exact hok.1
      | destroy q =>
        refine ⟨hok.1, fun t ht job a hpc => ?_⟩
        cases t with
        | worker p i => exact ht rfl
        | outside j =>
          rcases Nat.lt_or_ge j k with hj | hj
          · have hnone := hok.2 j hj
            simp [hpc, Pc.call] at hnone
          · simp [hrest j hj] at hpc
      | _ => trivial
    refine ⟨htrace.step hok' hs, fun j hj => ?_⟩
    refine next_outside (sound_of_trace hn htrace) hok' ?_ (hrest j hj) hs
    cases m with
    | base act => exact within_mono hj hok.2
    | _ => rfl

/-- One pool of one worker. -/
def sole : Unit → Workers := fun _ => single true

/-- The worker is past its `pthread_testcancel` when a job comes and the pool is destroyed, so it
still runs the job. -/
def cancelledLate : List (Move Unit ℕ) :=
  List.flatten [[.base (.start () 7), .base (.storeFirst ()), .base (.enter () 0),
      .testcancel () 0, .base (.call (.outside 0) (some ()) (some 5))],
    List.replicate 4 (.base (.step (.outside 0))),
    [.destroy (), .destroyStep (), .destroyStep ()],
    List.replicate 4 (.base (.step (.worker () 0))),
    [.base (.finish () 0), .testcancel () 0, .destroyStep (), .destroyStep ()]]

/-- The worker takes one job after it was cancelled, and ends. -/
theorem thrdpool_destroy_safe_one : ∃ ds, ∃ d : Closing Unit ℕ,
    Trace (Closing.next sole) Closing.Orderly Closing.initial ds d ∧
    d.destroy () = .returned ∧ (d.base.pools ()).taken.length = 1 ∧
    ds.countP (fun x => x.1.cancelled (.worker () 0) && x.1.runsJob (.worker () 0) x.2) = 1 ∧
    Gone 1 d () := by
  obtain ⟨ds, d, htrace, hp⟩ := exists_moves (Closing.next sole) (Closing.OrderlyTo 1)
    (Closing.initial : Closing Unit ℕ)
    (fun ds d => decide (d.destroy () = .returned ∧ (d.base.pools ()).taken.length = 1 ∧
      ds.countP (fun x => x.1.cancelled (.worker () 0) && x.1.runsJob (.worker () 0) x.2) = 1))
    cancelledLate (by decide +kernel)
  obtain ⟨hd, htaken, hlate⟩ := of_decide_eq_true hp
  have hn : ∀ q, (sole q).num < 2 ^ 31 := fun _ => (by decide : 1 < 2 ^ 31)
  have hrun := (orderly_of_to hn htrace).1
  exact ⟨ds, d, hrun, hd, htaken, hlate, ((thrdpool_destroy_safe hn hrun).1 () hd).1⟩

end Run

end CoopTasks.ThreadPool
