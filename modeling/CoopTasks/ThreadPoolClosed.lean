import CoopTasks.ThreadPoolGone

/-!
`thrdpool_destroy` returns, whatever the threads of its pool are doing.

What a worker does until it ends is paid by what it had left to do, or kept for its end. Where no
thread can move any more, a worker that was cancelled has ended, so that nobody is left to join.
-/

namespace CoopTasks.ThreadPool

open CoopTasks.SizeT CoopTasks.Machine CoopTasks.Progress CoopTasks.ThreadPoolCreate

variable {Q B : Type*} {d d' : Closing Q B} {s s' : State Q B} {q p : Q} {t u : Tid Q}
  {w : Q → Workers} {n i j k : ℕ} {act : Act Q B} {m : Move Q B}
  {ds : List (Closing Q B × Move Q B)}

/-! ### What is left to do -/

/-- What is kept for the end of a worker of a pool of at most `n`. -/
def Life.left (n : ℕ) : Life → ℕ
  | .runs => 2 * n + 18
  | .relocks | .unlocks => 5
  | .ended => 0

/-- That, and the next call of `pthread_testcancel`. -/
def Closing.left (n : ℕ) (d : Closing Q B) (t : Tid Q) : ℕ :=
  match t with
  | .outside _ => 0
  | .worker _ _ => (d.life t).left n + (!d.tested t).toNat

/-- The steps of `thrdpool_destroy` that are left, for a pool of at most `n` workers. -/
def DestroyPc.steps (n : ℕ) : DestroyPc → ℕ
  | .idle | .await => 2 * n + 2
  | .cancel left => 2 * left.length + 1
  | .join _ left => 2 * left.length + 2
  | .returned => 0

/-- Whether a thread moves by itself. -/
def Move.drives : Move Q B → Bool
  | .base act => act.drives
  | .destroy _ => false
  | _ => true

/-- Whether this is a call of `thrdpool_add`, or a worker wakes up without having been woken. -/
def Move.rouses : Move Q B → Bool
  | .base act => act.rouses
  | _ => false

section Pays

variable [DecidableEq Q] [Fintype Q]

/-- What is left to do; a step of the pools may cost one of `pthread_testcancel`. -/
def Closing.fund (w : Q → Workers) (n k : ℕ) (d : Closing Q B) : ℕ :=
  2 * d.base.fund w n k + ∑ t ∈ parties w k, d.left n t + ∑ q, (d.destroy q).steps n

lemma fund_worker {a b c : ℕ} (hi : i < (w q).num)
    (hbase : 2 * d'.base.fund w n k + a ≤ 2 * d.base.fund w n k + b)
    (hself : c + d'.left n (.worker q i) + b ≤ d.left n (.worker q i) + a)
    (hlife : ∀ u, u ≠ .worker q i → d'.life u = d.life u)
    (htested : ∀ u, u ≠ .worker q i → d'.tested u = d.tested u)
    (hdestroy : d'.destroy = d.destroy) : c + d'.fund w n k ≤ d.fund w n k := by
  have hsum := sum_one (d.left n) (d'.left n) (worker_mem_parties (k := k).mpr hi) fun u hu => by
    unfold Closing.left
    cases u with
    | outside => rfl
    | worker => simp only [hlife _ hu, htested _ hu]
  unfold Closing.fund
  rw [hdestroy]
  omega

lemma fund_destroy {pc : DestroyPc} {a : ℕ} (c : Tid Q → Bool)
    (h : a + pc.steps n ≤ (d.destroy q).steps n) :
    a + Closing.fund w n k { d.setDestroy q pc with cancelled := c } ≤ d.fund w n k := by
  have hsum := sum_one (fun p => (d.destroy p).steps n)
    (fun p => ((d.setDestroy q pc).destroy p).steps n) (Finset.mem_univ q) fun p hp =>
      congrArg _ (Function.update_of_ne hp ..)
  have hself : (d.setDestroy q pc).destroy q = pc := Function.update_self ..
  rw [hself] at hsum
  have hleft : Closing.left n { d.setDestroy q pc with cancelled := c } = d.left n := rfl
  unfold Closing.fund
  rw [hleft]
  show a + (2 * d.base.fund w n k + _ + ∑ p, ((d.setDestroy q pc).destroy p).steps n) ≤ _
  omega

lemma base_pays (hn : ∀ q, (w q).num ≤ n) (hI : Inv w d.base) (hown : OwnQueue d.base act)
    (hin : act.within k = true) (hs : next w d.base act = some s) :
    act.drives.toNat + Closing.fund w n k { d with base := s, tested := act.untest d.tested } ≤
      2 * ((n + 3) * (n + 4)) * act.rouses.toNat + d.fund w n k := by
  have hpay := move_pays hn hI hown hin hs
  set d' : Closing Q B := { d with base := s, tested := act.untest d.tested } with hd'
  have hleft : ∑ t ∈ parties w k, d'.left n t ≤
      ∑ t ∈ parties w k, d.left n t + act.drives.toNat := by
    cases hr : act.restarts with
    | none =>
      have hsame : d'.tested = d.tested := by
        show act.untest d.tested = d.tested
        unfold Act.untest
        rw [hr]
      have heq : d'.left n = d.left n := by
        funext t
        unfold Closing.left
        rw [hsame]
      rw [heq]
      exact Nat.le_add_right ..
    | some t =>
      have hdrives : act.drives = true := by
        cases act <;> simp_all [Act.restarts, Act.drives]
      rw [hdrives]
      have hothers : ∀ u, u ≠ t → d'.left n u = d.left n u := fun u hu => by
        have hsame : d'.tested u = d.tested u := by
          show act.untest d.tested u = d.tested u
          unfold Act.untest
          rw [hr]
          exact Function.update_of_ne hu ..
        unfold Closing.left
        rw [hsame]
      have hself : d'.left n t ≤ d.left n t + 1 := by
        unfold Closing.left
        cases t with
        | outside => exact Nat.zero_le _
        | worker q i =>
          have hle := Bool.toNat_le (!d'.tested (.worker q i))
          show (d.life _).left n + _ ≤ (d.life _).left n + _ + 1
          omega
      show _ ≤ _ + 1
      by_cases ht : t ∈ parties w k
      · have hsum := sum_one (d.left n) (d'.left n) ht hothers
        omega
      · have hsum : ∑ u ∈ parties w k, d'.left n u = ∑ u ∈ parties w k, d.left n u := by
          refine Finset.sum_congr rfl fun u hu => hothers u ?_
          rintro rfl
          exact ht hu
        omega
  unfold Closing.fund
  show _ + (2 * s.fund w n k + _ + ∑ q, (d.destroy q).steps n) ≤ _
  have hdouble : 2 * ((n + 3) * (n + 4)) * act.rouses.toNat =
      2 * ((n + 3) * (n + 4) * act.rouses.toNat) := Nat.mul_assoc ..
  omega

lemma fund_seekMtx (s : State Q B) (o : Option (Tid Q)) :
    (s.setPool q { s.pools q with seekMtx := o }).fund w n k = s.fund w n k := by
  have hdue : ∀ p, ((s.setPool q { s.pools q with seekMtx := o }).pools p).due n (w p).num =
      (s.pools p).due n (w p).num := fun p => by
    by_cases hp : p = q
    · subst hp
      rw [setPool_self]
      rfl
    · rw [setPool_ne hp]
  unfold State.fund
  rw [Finset.sum_congr rfl fun p _ => hdue p]
  rfl

lemma fund_place {pc : Pc Q B} {l : Life} {b : ℕ} (hi : i < (w q).num)
    (hpc : pc.left n (n + 7) ≤ (d.base.pcs (.worker q i)).left n (n + 7) + b)
    (hl : 1 + l.left n + 2 * b ≤ (d.life (.worker q i)).left n) :
    1 + Closing.fund w n k { d with
      base := d.base.setPc (.worker q i) pc
      life := Function.update d.life (.worker q i) l } ≤ d.fund w n k := by
  have hrise : (d.base.setPc (.worker q i) pc).fund w n k ≤ d.base.fund w n k + b := by
    refine fund_rise (worker_mem_parties.mpr hi) rfl (fun _ => setPc_ne) ?_
    unfold State.left
    rw [setPc_self]
    exact hpc
  refine fund_worker (a := 0) (b := 2 * b) hi ?_ ?_ (fun u hu => Function.update_of_ne hu ..)
    (fun _ _ => rfl) rfl
  · show 2 * (d.base.setPc (.worker q i) pc).fund w n k + 0 ≤ _
    omega
  · show 1 + ((Function.update d.life (.worker q i) l (.worker q i)).left n +
      (!d.tested (.worker q i)).toNat) + _ ≤
        (d.life (.worker q i)).left n + (!d.tested (.worker q i)).toNat + 0
    rw [Function.update_self]
    omega

lemma relock_pays (hn : ∀ q, (w q).num ≤ n) (h : d.Sound w)
    (hlife : d.life (.worker q i) = .relocks)
    (hs : next w d.base (.step (.worker q i)) = some s) :
    1 + Closing.fund w n k
      { d with base := s, life := Function.update d.life (.worker q i) .unlocks } ≤
        d.fund w n k := by
  obtain ⟨hpc, -⟩ := h.relocks hlife hs
  have hi : i < (w q).num := begun_lt h.base (by simp [hpc])
  have hown : OwnQueue d.base (.step (.worker q i)) := by simp [OwnQueue, OwnAdd, hpc]
  have hpay : 1 + s.fund w n k ≤ 0 + d.base.fund w n k := move_pays hn h.base hown rfl hs
  refine fund_worker (a := 2) (b := 0) hi ?_ ?_ (fun u hu => Function.update_of_ne hu ..)
    (fun _ _ => rfl) rfl
  · show 2 * s.fund w n k + 2 ≤ _
    omega
  · simp [Closing.left, Life.left, hlife]
    omega

lemma unlock_pays (h : d.Sound w) (hlife : d.life (.worker q i) = .unlocks) :
    1 + Closing.fund w n k ({ d with
      base := d.base.setPool q { d.base.pools q with seekMtx := none } }.terminate
        (.worker q i)) ≤ d.fund w n k := by
  have hpc : d.base.pcs (.worker q i) = .seek .count := by
    have hlives := h.lives (.worker q i)
    rwa [hlife] at hlives
  have hi : i < (w q).num := begun_lt h.base (by simp [hpc])
  have hrest : (Pc.rest : Pc Q B).left n (n + 7) ≤
      (d.base.pcs (.worker q i)).left n (n + 7) + 2 := by
    rw [hpc]
    exact le_rfl
  have hended : 1 + Life.ended.left n + 2 * 2 ≤ (d.life (.worker q i)).left n := by
    rw [hlife]
    exact le_rfl
  have hpay := fund_place (k := k)
    (d := { d with base := d.base.setPool q { d.base.pools q with seekMtx := none } })
    hi hrest hended
  refine hpay.trans (le_of_eq ?_)
  show 2 * (d.base.setPool q _).fund w n k + _ + _ = _
  rw [fund_seekMtx]
  rfl

lemma destroyStep_pays (hn : ∀ q, (w q).num ≤ n) (hint : n < 2 ^ 31)
    (hs : thrdpoolDestroy w d q (d.destroy q) = some d') :
    1 + d'.fund w n k ≤ d.fund w n k := by
  cases hd : d.destroy q with
  | idle | returned => simp [hd, thrdpoolDestroy] at hs
  | await =>
    simp only [hd, thrdpoolDestroy] at hs
    split at hs
    · obtain rfl := Option.some.inj hs
      refine fund_destroy d.cancelled ?_
      have hlen := hn q
      rw [hd, countDown_eq (hlen.trans_lt hint)]
      simp only [DestroyPc.steps, List.length_reverse, List.length_range]
      omega
    · simp at hs
  | cancel left =>
    cases left with
    | nil =>
      simp only [hd, thrdpoolDestroy] at hs
      obtain rfl := Option.some.inj hs
      refine fund_destroy d.cancelled ?_
      rw [hd]
      exact le_rfl
    | cons i left =>
      simp only [hd, thrdpoolDestroy] at hs
      split at hs
      · obtain rfl := Option.some.inj hs
        refine fund_destroy _ ?_
        rw [hd]
        simp only [DestroyPc.steps, List.length_cons]
        omega
      · obtain rfl := Option.some.inj hs
        refine fund_destroy d.cancelled ?_
        rw [hd]
        simp only [DestroyPc.steps, List.length_cons]
        omega
  | join j left =>
    simp only [hd, thrdpoolDestroy] at hs
    split at hs
    · obtain rfl := Option.some.inj hs
      refine fund_destroy d.cancelled ?_
      rw [hd]
      simp only [DestroyPc.steps]
      omega
    · simp at hs

lemma closing_pays (hn : ∀ q, (w q).num ≤ n) (hint : n < 2 ^ 31) (h : d.Sound w)
    (hok : d.Orderly m) (hin : m.within k = true) (hs : d.next w m = some d') :
    m.drives.toNat + d'.fund w n k ≤
      2 * ((n + 3) * (n + 4)) * m.rouses.toNat + d.fund w n k := by
  have hpaid : m.drives = true → 1 + d'.fund w n k ≤ d.fund w n k →
      m.drives.toNat + d'.fund w n k ≤
        2 * ((n + 3) * (n + 4)) * m.rouses.toNat + d.fund w n k := fun hm hpay => by
    rw [hm]
    exact hpay.trans (Nat.le_add_left ..)
  cases Closing.steps hs with
  | base act s hgo hstep => exact base_pays hn h.base hok.1 hin hstep
  | pass q i hlife hpc htested =>
    refine hpaid rfl (fund_worker (a := 0) (b := 0) (begun_lt h.base (by simp [hpc])) le_rfl ?_
      (fun _ _ => rfl) (fun u hu => Function.update_of_ne hu ..) rfl)
    simp [Closing.left, htested]
    omega
  | quit q i hlife hpc =>
    refine hpaid rfl (fund_place (b := 1) (begun_lt h.base (by simp [hpc])) ?_ ?_)
    · simp [hpc, Pc.left]
    · simp [hlife, Life.left]
  | drop q i hlife hpc =>
    refine hpaid rfl (fund_place (b := 0) (begun_lt h.base (by simp [hpc])) ?_ ?_)
    · simp [hpc, Pc.left]
    · simp [hlife, Life.left]
  | rouse q i hlife hpc =>
    have hi : i < (w q).num := begun_lt h.base (by rcases hpc with hpc | hpc <;> simp [hpc])
    refine hpaid rfl (fund_place (b := n + 6) hi (Nat.le_add_left ..) ?_)
    rw [hlife]
    show 1 + 5 + 2 * (n + 6) ≤ 2 * n + 18
    omega
  | relock q i s hlife hstep => exact hpaid rfl (relock_pays hn h hlife hstep)
  | unlock q i hlife => exact hpaid rfl (unlock_pays h hlife)
  | destroy q hidle =>
    have hpay : 0 + (d.setDestroy q .await).fund w n k ≤ d.fund w n k :=
      fund_destroy d.cancelled (by rw [hidle]; exact (Nat.zero_add _).le)
    exact hpay.trans (Nat.le_add_left ..)
  | destroyStep q _ hstep => exact hpaid rfl (destroyStep_pays hn hint hstep)

lemma closing_fund_initial (hn : ∀ q, (w q).num ≤ n) :
    (Closing.initial : Closing Q B).fund w n k ≤ Fintype.card Q * (n * (4 * n + 39) + 2) := by
  have hbase := fund_initial (Q := Q) (B := B) (k := k) hn
  have hleft : ∑ t ∈ parties w k, (Closing.initial : Closing Q B).left n t ≤
      Fintype.card Q * n * (2 * n + 19) :=
    sum_workers_le _ hn (fun _ => rfl) fun _ _ => le_rfl
  have hsteps : ∑ q, ((Closing.initial : Closing Q B).destroy q).steps n ≤
      Fintype.card Q * (2 * n + 2) :=
    Finset.sum_le_card_nsmul _ _ (2 * n + 2) fun _ _ => le_rfl
  have hring : Fintype.card Q * (n * (4 * n + 39) + 2) = 2 * (Fintype.card Q * (n * (n + 9))) +
      Fintype.card Q * n * (2 * n + 19) + Fintype.card Q * (2 * n + 2) := by ring
  unfold Closing.fund
  show 2 * (initial : State Q B).fund w n k + _ + _ ≤ _
  omega

end Pays

/-! ### At rest -/

section Rest

variable [DecidableEq Q] {job : Job B} {a : AddPc}

/-- No thread moves by itself, and no `thrdpool_destroy` goes on. -/
def Closing.Stuck (w : Q → Workers) (d : Closing Q B) : Prop :=
  ∀ m : Move Q B, m.drives = true → d.next w m = none

lemma Closing.Stuck.base (h : d.Stuck w) (hact : act.drives = true)
    (hgo : act.thread.all d.goesOn = true) : ThreadPool.next w d.base act = none := by
  have hnone := h (.base act) hact
  simp only [Closing.next, if_pos hgo] at hnone
  exact Option.map_eq_none_iff.mp hnone

/-- Whoever has a mutex can go on, also to give it back. -/
lemma Closing.Stuck.free (h : d.Stuck w) (hS : d.Sound w) (q : Q) :
    (d.base.pools q).seekMtx = none := by
  cases hm : (d.base.pools q).seekMtx with
  | none => rfl
  | some t =>
    exfalso
    have hin := ((hS.base.pools q).locked t).mpr hm
    have hlives := hS.lives t
    cases hlife : d.life t with
    | runs =>
      have htop : d.base.pcs t ≠ .top := fun hpc => by simp [hpc, Pc.inside] at hin
      exact holder_goes hS.base hm (h.base rfl (goesOn_of_runs hlife htop))
    | relocks =>
      rw [hlife] at hlives
      have hpc : d.base.pcs t = .woken := hlives
      simp [hpc, Pc.inside] at hin
    | unlocks =>
      rw [hlife] at hlives
      have hpc : d.base.pcs t = .seek .count := hlives
      cases t with
      | outside => simp [hpc, Pc.inside] at hin
      | worker p i =>
        have hnone := h (.unwind p i) rfl
        simp [Closing.next, hlife] at hnone
    | ended =>
      rw [hlife] at hlives
      have hpc : d.base.pcs t = .rest := hlives
      simp [hpc, Pc.inside] at hin

lemma Closing.Stuck.noCall (h : d.Stuck w) (hS : d.Sound w) : d.base.pcs t ≠ .add q job a :=
  fun hpc => by
    have hlife := LifeOk.runs_of_add (hpc ▸ hS.lives t)
    exact call_goes (h.free hS q) hpc (h.base rfl (goesOn_of_runs hlife (by simp [hpc])))

/-- A worker that was cancelled has ended, and another sleeps. -/
lemma Closing.Stuck.settled (h : d.Stuck w) (hS : d.Sound w) (hos : (d.base.pools q).os i ≠ none)
    (hdone : i = 0 → (d.base.pools q).creator.done (w q).num = true) :
    (d.cancelled (.worker q i) = true → d.life (.worker q i) = .ended) ∧
      (d.cancelled (.worker q i) = false → d.base.pcs (.worker q i) = .waiting) := by
  have hm := h.free hS
  have hlives := hS.lives (.worker q i)
  have hobeys := hS.obeys (.worker q i)
  cases hlife : d.life (.worker q i) with
  | ended =>
    refine ⟨fun _ => rfl, fun hc => ?_⟩
    rw [hobeys (by simp [hlife])] at hc
    cases hc
  | relocks =>
    rw [hlife] at hlives
    have hpc : d.base.pcs (.worker q i) = .woken := hlives
    have hnone := h (.unwind q i) rfl
    simp [Closing.next, hlife, ThreadPool.next, hpc, ThreadPool.worker, hm q] at hnone
  | unlocks =>
    have hnone := h (.unwind q i) rfl
    simp [Closing.next, hlife] at hnone
  | runs =>
    have htop : d.base.pcs (.worker q i) = .top → d.tested (.worker q i) = true := fun hpc => by
      by_contra htested
      have hnone := h (.testcancel q i) rfl
      simp only [Closing.next, hlife, hpc, Bool.not_eq_true _ ▸ htested] at hnone
      split at hnone <;> simp at hnone
    have hgo : d.goesOn (.worker q i) = true := by
      by_cases hpc : d.base.pcs (.worker q i) = .top
      · unfold Closing.goesOn
        rw [hlife, hpc]
        exact htop hpc
      · exact goesOn_of_runs hlife hpc
    rcases worker_goes hS.base hm hos hdone with hpc | ⟨act, hact, hthread, hgoes⟩
    · refine ⟨fun hc => ?_, fun _ => hpc⟩
      have hnone := h (.obey q i) rfl
      simp [Closing.next, hlife, hc, hpc] at hnone
    · exact absurd (h.base hact (by rw [hthread]; exact hgo)) hgoes

lemma Closing.Stuck.destroyed (h : d.Stuck w) (hS : d.Sound w) :
    d.destroy q = .idle ∨ d.destroy q = .returned := by
  have hq := hS.pools q
  have hnone := h (.destroyStep q) rfl
  simp only [Closing.next] at hnone
  cases hd : d.destroy q with
  | idle => exact .inl rfl
  | returned => exact .inr rfl
  | await =>
    have hos : (d.base.pools q).os 0 ≠ none := by
      have hstored : (d.base.pools q).os 0 = some _ := hq.stored (by simp [hd])
      simp [hstored]
    have hdone : (d.base.pools q).creator.done (w q).num = true := by
      by_contra hdone
      obtain ⟨act, hact, hthread, hgoes⟩ := creator_goes hos hdone
      exact hgoes (h.base hact (by rw [hthread]; rfl))
    simp [hd, thrdpoolDestroy, hdone] at hnone
  | cancel left =>
    cases left with
    | nil => simp [hd, thrdpoolDestroy] at hnone
    | cons i left =>
      simp only [hd, thrdpoolDestroy] at hnone
      split at hnone <;> simp at hnone
  | join j left =>
    have hb : (d.destroy q).begun = true := by rw [hd]; rfl
    have hj := hq.left j (by simp [hd, DestroyPc.left])
    have hos := hq.os_eq (hS.base.pools q).staff hb hj
    have hended := (h.settled hS (by simp [hos]) fun _ => hq.done hb).1 (hq.joined j left hd)
    simp [hd, thrdpoolDestroy, hended] at hnone

lemma Closing.Stuck.drained (h : d.Stuck w) (hS : d.Sound w) (hd : d.destroy q = .idle)
    (hos : (d.base.pools q).os 0 ≠ none) : Drained (w q).num d.base q := by
  have hdone : (d.base.pools q).creator.done (w q).num = true := by
    by_contra hdone
    obtain ⟨act, hact, hthread, hgoes⟩ := creator_goes hos hdone
    exact hgoes (h.base hact (by rw [hthread]; rfl))
  refine drained_of_asleep hS.base (h.free hS q) hos fun i hi => ?_
  refine (h.settled hS hi fun _ => hdone).2 ?_
  by_contra hc
  have hb := (hS.pools q).asked i (Bool.not_eq_false _ ▸ hc)
  simp [hd, DestroyPc.begun] at hb

omit [DecidableEq Q] in
lemma move_within_mono (hjk : j ≤ k) (h : m.within j = true) : m.within k = true := by
  cases m with
  | base act => exact within_mono hjk h
  | _ => rfl

omit [DecidableEq Q] in
lemma exists_move_within (m : Move Q B) : ∃ k, m.within k = true := by
  cases m with
  | base act => exact exists_within act
  | _ => exact ⟨0, rfl⟩

/-- **`thrdpool_destroy` returns**: in every run of any number of pools of at most `n` workers that
others use only until they are destroyed, the threads make at most `2 (n + 3) (n + 4)` moves for
each call of `thrdpool_add` and each worker that wakes up without having been woken, and
`n (4 n + 39) + 2` for each pool, those of its `thrdpool_destroy` and of the end of its workers
included; and where no thread can move by itself, all calls of `thrdpool_add` and of
`thrdpool_destroy` have returned, and the pools that nobody destroyed have done all their work. -/
theorem thrdpool_destroy_returns [Fintype Q] (hn : ∀ q, (w q).num ≤ n) (hint : n < 2 ^ 31)
    (h : Trace (Closing.next w) Closing.Orderly (Closing.initial : Closing Q B) ds d) :
    ds.countP (fun x => x.2.drives) ≤
      2 * ((n + 3) * (n + 4)) * ds.countP (fun x => x.2.rouses) +
        Fintype.card Q * (n * (4 * n + 39) + 2) ∧
    (d.Stuck w → (∀ t q job a, d.base.pcs t ≠ .add q job a) ∧
      ∀ q, d.destroy q = .returned ∨ d.destroy q = .idle ∧
        ((d.base.pools q).os 0 ≠ none → Drained (w q).num d.base q)) := by
  have hint' : ∀ q, (w q).num < 2 ^ 31 := fun q => (hn q).trans_lt hint
  have hS := sound_of_trace hint' h
  refine ⟨?_, fun hstuck => ⟨fun t q job a => hstuck.noCall hS, fun q => ?_⟩⟩
  · obtain ⟨k, hk⟩ := exists_forall_mem (p := fun k x => x.2.within k = true)
      (fun hjk hx => move_within_mono hjk hx) (fun x => exists_move_within x.2) ds
    have hpays := trace_pays (2 * ((n + 3) * (n + 4))) (fun x => x.2.drives.toNat)
      (fun x => x.2.rouses.toNat) (fun _ d => d.fund w n k)
      (fun ds d m d' htrace hok hs => closing_pays hn hint
        (sound_of_trace hint' (htrace.mono fun _ _ => And.left)) hok.1 hok.2 hs) (h.and hk)
    have hfund := closing_fund_initial (Q := Q) (B := B) (k := k) hn
    rw [sum_toNat, sum_toNat] at hpays
    omega
  · rcases hstuck.destroyed hS (q := q) with hd | hd
    · exact .inr ⟨hd, hstuck.drained hS hd⟩
    · exact .inl hd

/-- Where all pools are destroyed and nobody adds a job, nothing moves. -/
lemma stuck_of_returned (hS : d.Sound w) (hd : ∀ q, d.destroy q = .returned)
    (hout : ∀ j, d.base.pcs (.outside j) = .rest) : d.Stuck w := by
  intro m hm
  by_contra hne
  obtain ⟨d', hs⟩ := Option.ne_none_iff_exists'.mp hne
  have hunused : ∀ q, d.Orderly m → ¬ d.Uses q m := fun q hok => hS.unused (hd q) hok hs
  cases m with
  | base act =>
    cases act with
    | start | storeFirst | call | spurious => simp [Move.drives, Act.drives] at hm
    | create q h | store q => exact hunused q ⟨trivial, trivial⟩ rfl
    | createFail q h =>
      have hdone := (hS.pools q).done (by rw [hd]; rfl)
      simp only [Closing.next, Act.thread, Option.all_none, if_true] at hs
      cases hcr : (d.base.pools q).creator with
      | create j =>
        have hj : ¬ j < (w q).num := Nat.not_lt.mpr (by simpa [hcr, Creator.done] using hdone)
        simp [ThreadPool.next, createStep, hcr, hj] at hs
      | store => simp [hcr, Creator.done] at hdone
    | enter q i | finish q i => exact hunused q ⟨trivial, trivial⟩ rfl
    | step t =>
      cases t with
      | outside j => simp [Closing.next, ThreadPool.next, hout j] at hs
      | worker p i =>
        refine hunused p ⟨?_, trivial⟩ (.inl rfl)
        simp only [Closing.next] at hs
        split at hs
        · rename_i hgo
          have hrun : d.life (.worker p i) = .runs := runs_of_goesOn hgo
          have hpc : d.base.pcs (.worker p i) = .unborn :=
            hS.unborn fun hi => absurd (hS.ended (hd p) hi) (by simp [hrun])
          simp [OwnQueue, OwnAdd, hpc]
        · simp at hs
  | testcancel q i | obey q i | unwind q i | destroyStep q => exact hunused q trivial rfl
  | destroy => simp [Move.drives] at hm

/-- The only worker sleeps when the pool is destroyed, and has to take the mutex to end. -/
def cancelledAsleep : List (Move Unit ℕ) :=
  List.flatten [[.base (.start () 7), .base (.storeFirst ()), .base (.enter () 0),
      .testcancel () 0], List.replicate 4 (.base (.step (.worker () 0))),
    [.destroy (), .destroyStep (), .destroyStep (), .obey () 0, .unwind () 0, .unwind () 0,
      .destroyStep (), .destroyStep ()]]

theorem thrdpool_destroy_returns_one : ∃ ds, ∃ d : Closing Unit ℕ,
    Trace (Closing.next sole) Closing.Orderly Closing.initial ds d ∧ d.Stuck sole ∧
    ds.countP (fun x => x.2.drives) = 13 ∧
    ds.countP (fun x => x.2.drives) ≤
      2 * ((1 + 3) * (1 + 4)) * ds.countP (fun x => x.2.rouses) +
        Fintype.card Unit * (1 * (4 * 1 + 39) + 2) ∧
    d.destroy () = .returned := by
  obtain ⟨ds, d, htrace, hp⟩ := exists_moves (Closing.next sole) (Closing.OrderlyTo 0)
    (Closing.initial : Closing Unit ℕ)
    (fun ds d => decide (ds.countP (fun x => x.2.drives) = 13 ∧ d.destroy () = .returned))
    cancelledAsleep (by decide +kernel)
  obtain ⟨hcount, hd⟩ := of_decide_eq_true hp
  have hn : ∀ q, (sole q).num ≤ 1 := fun _ => le_rfl
  obtain ⟨hrun, hrest⟩ := orderly_of_to (fun q => (hn q).trans_lt (by decide)) htrace
  have hS := sound_of_trace (fun q => (hn q).trans_lt (by decide)) hrun
  have hstuck : d.Stuck sole := stuck_of_returned hS (fun _ => hd) fun j => hrest j (Nat.zero_le j)
  obtain ⟨hle, hends⟩ := thrdpool_destroy_returns (n := 1) hn (by decide) hrun
  refine ⟨ds, d, hrun, hstuck, hcount, hle, ?_⟩
  rcases (hends hstuck).2 () with hd | ⟨hidle, -⟩
  · exact hd
  · simp [hd] at hidle

end Rest

end CoopTasks.ThreadPool
