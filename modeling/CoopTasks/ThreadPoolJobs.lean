import CoopTasks.ThreadPoolInv

/-!
Where every job is, from the call of `thrdpool_add` on, and what follows for a pool: each job
is taken once, in order, by a worker of the pool it was added to, and no worker sleeps on work.
-/

namespace CoopTasks.ThreadPool

open CoopTasks.SizeT CoopTasks.Placement CoopTasks.Machine

variable {Q B : Type*} {s s' : State Q B} {q p : Q} {t u : Tid Q} {w : Q → Workers}

/-- Whether the job has been enqueued. -/
def AddPc.done : AddPc → Bool
  | .lock | .enqueue => false
  | .inc => true
  | .broadcast ok | .unlock ok => ok

/-- The call of `thrdpool_add` that a thread is in. -/
def Pc.call : Pc Q B → Option (Q × Job B × AddPc)
  | .add q job a => some (q, job, a)
  | _ => none

inductive JobPlace (Q : Type*)
  | call (t : Tid Q)
  | accepted (q : Q)
  | refused

/-- Where the job with the number `k` is. -/
def JobAt (calls : Tid Q → Option (Q × Job B × AddPc)) (accepted : Q → List (Job B))
    (returns : List (Q × Job B × Bool)) (k : ℕ) : JobPlace Q → Prop
  | .call t => ∃ q job a, calls t = some (q, job, a) ∧ a.done = false ∧ job.id = k
  | .accepted q => ∃ job ∈ accepted q, job.id = k
  | .refused => ∃ q job, (q, job, false) ∈ returns ∧ job.id = k

/-- The calls of `thrdpool_add`, the jobs accepted and the values returned fit together. -/
structure Ledger (calls : Tid Q → Option (Q × Job B × AddPc)) (accepted : Q → List (Job B))
    (returns : List (Q × Job B × Bool)) (juid : ℕ) : Prop where
  placed : Placed (· < juid) (JobAt calls accepted returns)
  once : ∀ q, ((accepted q).map Job.id).Nodup
  outside : ∀ t q job a, calls t = some (q, job, a) → job.outside = t.isOutside
  success : ∀ t q job a, calls t = some (q, job, a) → a.done = true → job ∈ accepted q
  returned : ∀ q job, (q, job, true) ∈ returns → job ∈ accepted q

section Accounts

variable [DecidableEq Q] {calls : Tid Q → Option (Q × Job B × AddPc)}
  {accepted : Q → List (Job B)} {returns : List (Q × Job B × Bool)} {juid : ℕ} {job : Job B}
  {a a' : AddPc}

lemma Ledger.move (h : Ledger calls accepted returns juid) (ht : calls t = some (q, job, a))
    (ha : a'.done = a.done) :
    Ledger (Function.update calls t (some (q, job, a'))) accepted returns juid := by
  refine ⟨h.placed.congr (fun _ => Iff.rfl) fun k p => ?_, h.once, fun u p j b hu => ?_,
    fun u p j b hu hb => ?_, h.returned⟩
  · cases p with
    | accepted | refused => rfl
    | call u =>
      by_cases hu : u = t
      · subst hu; simp [JobAt, ht, ha]
      · simp [JobAt, hu]
  · by_cases hut : u = t
    · subst hut
      obtain ⟨rfl, rfl, rfl⟩ := by simpa using hu
      exact h.outside _ _ _ _ ht
    · exact h.outside u p j b (by simpa [hut] using hu)
  · by_cases hut : u = t
    · subst hut
      obtain ⟨rfl, rfl, rfl⟩ := by simpa using hu
      exact h.success _ _ _ _ ht (ha ▸ hb)
    · exact h.success u p j b (by simpa [hut] using hu) hb

lemma Ledger.start (job : Job B) (h : Ledger calls accepted returns juid) (ht : calls t = none)
    (hjob : job.outside = t.isOutside) (hid : job.id = juid) :
    Ledger (Function.update calls t (some (q, job, .lock))) accepted returns (juid + 1) := by
  refine ⟨?_, h.once, fun u p j b hu => ?_, fun u p j b hu hb => ?_, h.returned⟩
  · have hnew : ∀ p, ¬ JobAt calls accepted returns juid p := fun p hp =>
      lt_irrefl _ (h.placed.mem _ p hp)
    refine h.placed.change (i := juid) (q := .call t) (fun j hj => ?_) (fun k hk p => ?_) ?_
      fun p => ?_
    · omega
    · cases p with
      | accepted | refused => rfl
      | call u =>
        by_cases hu : u = t
        · subst hu
          simp only [JobAt, Function.update_self, ht]
          refine iff_of_false ?_ (by simp)
          rintro ⟨q', job', a', he, -, rfl⟩
          obtain ⟨rfl, rfl, rfl⟩ := by simpa using he
          exact hk hid
        · simp [JobAt, hu]
    · omega
    · cases p with
      | accepted q' => exact iff_of_false (hnew (.accepted q')) (by simp)
      | refused => exact iff_of_false (hnew .refused) (by simp)
      | call u =>
        by_cases hu : u = t
        · subst hu
          exact iff_of_true ⟨q, job, .lock, by simp, rfl, hid⟩ rfl
        · refine iff_of_false (fun hp => hnew (.call u) ?_) (by simp [hu])
          simpa [JobAt, hu] using hp
  · by_cases hut : u = t
    · subst hut
      obtain ⟨rfl, rfl, rfl⟩ := by simpa using hu
      exact hjob
    · exact h.outside u p j b (by simpa [hut] using hu)
  · by_cases hut : u = t
    · subst hut
      obtain ⟨rfl, rfl, rfl⟩ := by simpa using hu
      simp [AddPc.done] at hb
    · exact h.success u p j b (by simpa [hut] using hu) hb

lemma Ledger.accept (h : Ledger calls accepted returns juid) (ht : calls t = some (q, job, a))
    (ha : a.done = false) (ha' : a'.done = true) :
    Ledger (Function.update calls t (some (q, job, a')))
      (Function.update accepted q (accepted q ++ [job])) returns juid := by
  have hat : JobAt calls accepted returns job.id (.call t) := ⟨q, job, a, ht, ha, rfl⟩
  have hno : ∀ p, job.id ∉ (accepted p).map Job.id := by
    intro p hp
    obtain ⟨j, hj, he⟩ := List.mem_map.mp hp
    exact absurd (h.placed.uniq _ (.accepted p) (.call t) ⟨j, hj, he⟩ hat) (by simp)
  have hmem : ∀ {p : Q} {j : Job B}, j ∈ accepted p →
      j ∈ Function.update accepted q (accepted q ++ [job]) p := by
    intro p j hj
    by_cases hp : p = q
    · subst hp; simp [hj]
    · simpa [hp] using hj
  refine ⟨?_, fun p => ?_, fun u p j b hu => ?_, fun u p j b hu hb => ?_,
    fun p j hj => hmem (h.returned p j hj)⟩
  · refine h.placed.change (i := job.id) (q := .accepted q) (fun _ _ => Iff.rfl)
      (fun k hk p => ?_) (h.placed.mem _ _ hat) fun p => ?_
    · cases p with
      | refused => rfl
      | accepted p =>
        by_cases hp : p = q
        · subst hp
          simp only [JobAt, Function.update_self, List.mem_append, List.mem_singleton]
          refine ⟨?_, fun ⟨j, hj, he⟩ => ⟨j, .inl hj, he⟩⟩
          rintro ⟨j, hj | rfl, he⟩
          · exact ⟨j, hj, he⟩
          · exact absurd he.symm hk
        · simp [JobAt, hp]
      | call u =>
        by_cases hu : u = t
        · subst hu
          simp only [JobAt, Function.update_self, ht]
          refine iff_of_false ?_ ?_
          · rintro ⟨q', job', b, he, hb, -⟩
            obtain ⟨rfl, rfl, rfl⟩ := by simpa using he
            simp [ha'] at hb
          · rintro ⟨q', job', b, he, -, rfl⟩
            obtain ⟨rfl, rfl, rfl⟩ := by simpa using he
            exact hk rfl
        · simp [JobAt, hu]
    · cases p with
      | refused =>
        exact iff_of_false (h.placed.ne hat .refused (by simp)) (by simp)
      | accepted p =>
        by_cases hp : p = q
        · subst hp
          exact iff_of_true ⟨job, by simp, rfl⟩ rfl
        · refine iff_of_false (fun hx => ?_) (by simp [hp])
          refine h.placed.ne hat (.accepted p) (by simp) ?_
          simpa [JobAt, hp] using hx
      | call u =>
        refine iff_of_false (fun hx => ?_) (by simp)
        by_cases hu : u = t
        · subst hu
          obtain ⟨q', job', b, he, hb, -⟩ := hx
          obtain ⟨rfl, rfl, rfl⟩ := by simpa using he
          simp [ha'] at hb
        · refine h.placed.ne hat (.call u) (by simp [hu]) ?_
          simpa [JobAt, hu] using hx
  · by_cases hp : p = q
    · subst hp
      rw [Function.update_self, List.map_append]
      refine List.nodup_append.mpr ⟨h.once p, by simp, fun x hx y hy => ?_⟩
      obtain rfl : y = job.id := by simpa using hy
      rintro rfl
      exact hno p hx
    · simpa [hp] using h.once p
  · by_cases hut : u = t
    · subst hut
      obtain ⟨rfl, rfl, rfl⟩ := by simpa using hu
      exact h.outside _ _ _ _ ht
    · exact h.outside u p j b (by simpa [hut] using hu)
  · by_cases hut : u = t
    · subst hut
      obtain ⟨rfl, rfl, rfl⟩ := by simpa using hu
      simp
    · exact hmem (h.success u p j b (by simpa [hut] using hu) hb)

lemma Ledger.finish {ok : Bool} (h : Ledger calls accepted returns juid)
    (ht : calls t = some (q, job, .unlock ok)) :
    Ledger (Function.update calls t none) accepted (returns ++ [(q, job, ok)]) juid := by
  refine ⟨?_, h.once, fun u p j b hu => ?_, fun u p j b hu hb => ?_, fun p j hj => ?_⟩
  · cases ok with
    | true =>
      refine h.placed.congr (fun _ => Iff.rfl) fun k p => ?_
      cases p with
      | accepted => rfl
      | refused => simp [JobAt]
      | call u =>
        by_cases hu : u = t
        · subst hu; simp [JobAt, ht, AddPc.done]
        · simp [JobAt, hu]
    | false =>
      have hat : JobAt calls accepted returns job.id (.call t) :=
        ⟨q, job, .unlock false, ht, rfl, rfl⟩
      refine h.placed.change (i := job.id) (q := .refused) (fun _ _ => Iff.rfl)
        (fun k hk p => ?_) (h.placed.mem _ _ hat) fun p => ?_
      · cases p with
        | accepted => rfl
        | refused =>
          simp only [JobAt, List.mem_append, List.mem_singleton]
          refine ⟨?_, fun ⟨p, j, hj, he⟩ => ⟨p, j, .inl hj, he⟩⟩
          rintro ⟨p, j, hj | hj, he⟩
          · exact ⟨p, j, hj, he⟩
          · obtain ⟨-, rfl⟩ : p = q ∧ j = job := by simpa using hj
            exact absurd he.symm hk
        | call u =>
          by_cases hu : u = t
          · subst hu
            simp only [JobAt, Function.update_self, ht]
            refine iff_of_false (by simp) ?_
            rintro ⟨q', job', b, he, -, rfl⟩
            obtain ⟨rfl, rfl, rfl⟩ := by simpa using he
            exact hk rfl
          · simp [JobAt, hu]
      · cases p with
        | accepted p => exact iff_of_false (h.placed.ne hat (.accepted p) (by simp)) (by simp)
        | refused => exact iff_of_true ⟨q, job, by simp, rfl⟩ rfl
        | call u =>
          refine iff_of_false (fun hx => ?_) (by simp)
          by_cases hu : u = t
          · subst hu; simp [JobAt] at hx
          · refine h.placed.ne hat (.call u) (by simp [hu]) ?_
            simpa [JobAt, hu] using hx
  · by_cases hut : u = t
    · subst hut; simp at hu
    · exact h.outside u p j b (by simpa [hut] using hu)
  · by_cases hut : u = t
    · subst hut; simp at hu
    · exact h.success u p j b (by simpa [hut] using hu) hb
  · rcases List.mem_append.mp hj with hj | hj
    · exact h.returned p j hj
    · obtain ⟨rfl, rfl, rfl⟩ : p = q ∧ j = job ∧ ok = true := by simpa [eq_comm] using hj
      exact h.success _ _ _ _ ht rfl

end Accounts

/-! ### Every step -/

def State.calls (s : State Q B) : Tid Q → Option (Q × Job B × AddPc) := fun t => (s.pcs t).call

def State.accepted (s : State Q B) : Q → List (Job B) := fun q => (s.pools q).accepted

/-- What every step keeps. -/
structure Inv (w : Q → Workers) (s : State Q B) : Prop where
  pools : ∀ q, PoolOk (w q).num s q
  ledger : Ledger s.calls s.accepted s.returns s.juid

section Steps

variable [DecidableEq Q] {P : Pool Q B} {pc : Pc Q B} {i : ℕ} {job : Job B} {a : AddPc}

@[simp] lemma calls_setPool : (s.setPool q P).calls = s.calls := rfl
@[simp] lemma accepted_setPc : (s.setPc t pc).accepted = s.accepted := rfl
@[simp] lemma accepted_wakeAll : (s.wakeAll q).accepted = s.accepted := rfl

@[simp] lemma calls_setPc : (s.setPc t pc).calls = Function.update s.calls t pc.call := by
  funext u
  by_cases hu : u = t
  · subst hu; simp [State.calls]
  · simp [State.calls, setPc_ne hu, hu]

@[simp] lemma accepted_setPool :
    (s.setPool q P).accepted = Function.update s.accepted q P.accepted := by
  funext p
  by_cases hp : p = q
  · subst hp; simp [State.accepted]
  · simp [State.accepted, setPool_ne hp, hp]

@[simp] lemma calls_wakeAll : (s.wakeAll q).calls = s.calls := by
  funext u
  rcases wakeAll_cases s q u with he | ⟨h1, h2, -⟩
  · simp [State.calls, he]
  · simp [State.calls, h1, h2, Pc.call]

lemma accepted_same (h : P.accepted = (s.pools q).accepted) :
    Function.update s.accepted q P.accepted = s.accepted := by
  rw [h]
  exact Function.update_eq_self q s.accepted

lemma calls_same (h : pc.call = (s.pcs t).call) :
    Function.update s.calls t pc.call = s.calls := by
  rw [h]
  exact Function.update_eq_self t s.calls

lemma thrdpoolAdd_ledger (h : Ledger s.calls s.accepted s.returns s.juid)
    (hpc : s.pcs t = .add q job a) (hs : thrdpoolAdd s t q job a = some s') :
    Ledger s'.calls s'.accepted s'.returns s'.juid := by
  have ht : s.calls t = some (q, job, a) := by simp [State.calls, hpc, Pc.call]
  have hsame : ∀ {P : Pool Q B}, P.accepted = (s.pools q).accepted →
      Function.update s.accepted q P.accepted = s.accepted := accepted_same
  cases a with
  | lock =>
    simp only [thrdpoolAdd] at hs
    split at hs
    · obtain rfl := by simpa using hs
      rw [accepted_setPc, accepted_setPool, hsame rfl, calls_setPc]
      exact h.move ht rfl
    · simp at hs
  | enqueue =>
    have hfail : s' = s.setPc t (.add q job (.broadcast false)) →
        Ledger s'.calls s'.accepted s'.returns s'.juid := by
      rintro rfl
      rw [accepted_setPc, calls_setPc]
      exact h.move ht rfl
    simp only [thrdpoolAdd] at hs
    split at hs
    · rename_i p i
      split at hs
      · rename_i l hl
        obtain rfl := Option.some.inj hs
        rw [accepted_setPc, accepted_setPool, accepted_setPool, accepted_same (by rfl), calls_setPc]
        have hacc : ((s.setPool p ((s.pools p).setLocal i l)).pools q).accepted =
            (s.pools q).accepted := by
          by_cases hq : q = p
          · subst hq; simp
          · simp [setPool_ne hq]
        rw [hacc]
        exact h.accept ht rfl rfl
      · exact hfail (Option.some.inj hs).symm
    · split at hs
      · obtain rfl := Option.some.inj hs
        rw [accepted_setPc, accepted_setPool, calls_setPc]
        exact h.accept ht rfl rfl
      · exact hfail (Option.some.inj hs).symm
  | inc =>
    obtain rfl := Option.some.inj hs
    rw [accepted_setPc, accepted_setPool, hsame rfl, calls_setPc]
    exact h.move ht rfl
  | broadcast ok =>
    obtain rfl := Option.some.inj hs
    rw [accepted_setPc, accepted_wakeAll, calls_setPc, calls_wakeAll]
    exact h.move ht rfl
  | unlock ok =>
    obtain rfl := Option.some.inj hs
    have h1 := h.finish ht
    have h2 := hsame (P := { s.pools q with seekMtx := none }) rfl
    show Ledger ((s.setPool q { s.pools q with seekMtx := none }).setPc t .rest).calls
      ((s.setPool q { s.pools q with seekMtx := none }).setPc t .rest).accepted _ s.juid
    rw [accepted_setPc, accepted_setPool, h2, calls_setPc]
    exact h1

omit [DecidableEq Q] in
lemma jobSeeking_accepted (n i : ℕ) (P : Pool Q B) (pc : SeekPc B) :
    (jobSeeking n i P pc).1.accepted = P.accepted := by
  cases pc with
  | count | sub => rfl
  | own | global =>
    simp only [jobSeeking]
    split <;> rfl
  | steal j =>
    simp only [jobSeeking]
    split
    · split
      · split <;> rfl
      · rfl
    · rfl

lemma worker_ledger (h : Ledger s.calls s.accepted s.returns s.juid)
    (hpc : s.pcs (.worker q i) = pc) (hs : worker w s q i pc = some s') :
    Ledger s'.calls s'.accepted s'.returns s'.juid := by
  have key : ∀ (P : Pool Q B) (pc' : Pc Q B), (s.setPool q P).setPc (.worker q i) pc' = s' →
      P.accepted = (s.pools q).accepted → pc'.call = (s.pcs (.worker q i)).call →
      Ledger s'.calls s'.accepted s'.returns s'.juid := by
    rintro P pc' rfl h1 h2
    rw [accepted_setPc, accepted_setPool, accepted_same h1, calls_setPc, calls_setPool,
      calls_same h2]
    exact h
  subst hpc
  unfold worker at hs
  split at hs
  · rename_i hpc
    split at hs
    · exact key _ _ (Option.some.inj hs) rfl (by simp [hpc, Pc.call])
    · simp at hs
  · rename_i hpc
    split at hs
    · exact key _ _ (Option.some.inj hs) rfl (by simp [hpc, Pc.call])
    · simp at hs
  · rename_i a hpc
    refine key _ _ (Option.some.inj hs) (jobSeeking_accepted _ _ _ _) ?_
    rw [hpc]
    rcases (jobSeeking (w q).num i (s.pools q) a).2 with x | - | x <;> rfl
  · rename_i hpc
    exact key _ _ (Option.some.inj hs) rfl (by simp [hpc, Pc.call])
  · rename_i hpc
    exact key _ _ (Option.some.inj hs) rfl (by simp [hpc, Pc.call])
  · simp at hs

lemma create_inv (h : Inv w s) (act : Act Q B)
    (hs : (createStep (w q).num (s.pools q) act).map (s.setPool q) = some s') : Inv w s' := by
  obtain ⟨P, hP, rfl⟩ := Option.map_eq_some_iff.mp hs
  have hq := h.pools q
  obtain ⟨h1, h2⟩ := createStep_staff (w q).pos hq.staff hP
  refine ⟨fun p => ?_, ?_⟩
  · by_cases hp : p = q
    · subst hp
      have hpool : (s.setPool p P).pools p = P := setPool_self
      refine ⟨fun t => ?_, fun hm => ?_, fun t hm => ?_, ?_, ?_⟩ <;> rw [hpool] at *
      · rw [h2]; exact hq.locked t
      · rw [h2] at hm ⊢
        exact ⟨(hq.free hm).1, (hq.free hm).2⟩
      · rw [h2] at hm ⊢
        exact (hq.held t hm).congr (by rw [h2]) (by rw [h2]) (by rw [h2])
      · rw [h2]; exact { hq.stock with }
      · exact h1
    · exact (h.pools p).frame (setPool_ne hp) (fun _ => Iff.rfl) (fun _ _ => rfl) id
        fun _ => Iff.rfl
  · rw [accepted_setPool, accepted_same (by rw [h2]), calls_setPool]
    exact h.ledger

lemma place_ok (pc : Pc Q B) (h : Inv w s) (hin : ∀ p, (s.pcs t).inside t ≠ some p)
    (hin' : ∀ p, pc.inside t ≠ some p) (hw : pc ≠ .waiting) (hb : pc ≠ .unborn)
    (hb' : s.pcs t ≠ .unborn) (q : Q) : PoolOk (w q).num (s.setPc t pc) q := by
  refine (h.pools q).frame rfl (fun u => ?_) (fun u hu => ?_) ?_ fun j => ?_
  · by_cases hu : u = t
    · subst hu
      rw [setPc_self]
      exact iff_of_false (hin' q) (hin q)
    · rw [setPc_ne hu]
  · refine setPc_ne ?_
    rintro rfl
    exact hin q hu
  · rintro ⟨j, hj⟩
    by_cases hu : .worker q j = t
    · subst hu
      exact absurd (by simpa using hj) hw
    · exact ⟨j, by rwa [setPc_ne hu] at hj⟩
  · by_cases hu : .worker q j = t
    · subst hu
      exact iff_of_true (by simpa [Begun] using hb) hb'
    · simp [Begun, setPc_ne hu]

lemma place_ledger (h : Inv w s) (hcall : pc.call = (s.pcs t).call) :
    Ledger (s.setPc t pc).calls (s.setPc t pc).accepted s.returns s.juid := by
  rw [accepted_setPc, calls_setPc, calls_same hcall]
  exact h.ledger

lemma enter_inv (h : Inv w s) (hpc : s.pcs (.worker q i) = .unborn)
    (hos : (s.pools q).os i ≠ none)
    (hdone : i = 0 → (s.pools q).creator.done (w q).num = true) :
    Inv w (s.setPc (.worker q i) .top) := by
  refine ⟨fun p => ?_, place_ledger h (by simp [hpc, Pc.call])⟩
  have hp := h.pools p
  have hinside : ∀ u, ((s.setPc (.worker q i) .top).pcs u).inside u = (s.pcs u).inside u := by
    intro u
    by_cases hu : u = .worker q i
    · subst hu
      rw [setPc_self, hpc]
      rfl
    · rw [setPc_ne hu]
  have hheld : ∀ u, (s.pcs u).inside u = some p →
      (s.setPc (.worker q i) .top).pcs u = s.pcs u := by
    intro u hu
    refine setPc_ne ?_
    rintro rfl
    simp [hpc, Pc.inside] at hu
  have hwaits : Waits (s.setPc (.worker q i) .top) p → Waits s p := by
    rintro ⟨j, hj⟩
    by_cases hu : Tid.worker p j = .worker q i
    · rw [hu] at hj
      simp at hj
    · exact ⟨j, by rwa [setPc_ne hu] at hj⟩
  have hmono : ∀ j, Begun s p j → Begun (s.setPc (.worker q i) .top) p j := by
    intro j hj
    by_cases hu : Tid.worker p j = .worker q i
    · simp [Begun, hu]
    · rwa [Begun, setPc_ne hu]
  refine ⟨fun u => by rw [hinside]; exact hp.locked u, fun hm => (hp.free hm).anti hwaits,
    fun u hm => ?_, { hp.stock with unused := fun j hj => hp.stock.unused j (mt (hmono j) hj) },
    { hp.staff with begun := fun j hj => ?_ }⟩
  · rw [hheld u ((hp.locked u).mpr hm)]
    exact (hp.held u hm).anti hwaits
  · by_cases hu : Tid.worker p j = .worker q i
    · obtain ⟨rfl, rfl⟩ : p = q ∧ j = i := by simpa using hu
      exact ⟨hos, hdone⟩
    · exact hp.staff.begun j (by rwa [Begun, setPc_ne hu] at hj)

theorem inv_step {act : Act Q B} (h : Inv w s) (hown : OwnQueue s act)
    (hs : next w s act = some s') : Inv w s' := by
  cases act with
  | start | storeFirst | create | createFail | store => exact create_inv h _ hs
  | enter q i =>
    simp only [next] at hs
    split at hs
    · rename_i hpc
      split at hs
      · rename_i hg
        obtain rfl := Option.some.inj hs
        exact enter_inv h hpc hg.2.1 hg.2.2
      · simp at hs
    · simp at hs
  | call t tp job =>
    simp only [next] at hs
    split at hs
    · rename_i q b hpc
      obtain rfl := Option.some.inj hs
      refine ⟨fun p => ?_, ?_⟩
      · exact { place_ok (t := t) (.add q ⟨s.juid, b, t.isOutside⟩ .lock) h
          (by simp [hpc, Pc.inside]) (by simp [Pc.inside]) (by simp) (by simp) (by simp [hpc])
          p with }
      · have ht : s.calls t = none := by simp [State.calls, hpc, Pc.call]
        have := h.ledger.start ⟨s.juid, b, t.isOutside⟩ (q := q) ht rfl rfl
        show Ledger (s.setPc t (.add q ⟨s.juid, b, t.isOutside⟩ .lock)).calls _ _ _
        rw [calls_setPc]
        exact this
    · obtain rfl := Option.some.inj hs
      exact h
    · simp at hs
  | finish q i =>
    simp only [next] at hs
    split at hs
    · rename_i hpc
      obtain rfl := Option.some.inj hs
      exact ⟨place_ok _ h (by simp [hpc, Pc.inside]) (by simp [Pc.inside]) (by simp) (by simp)
        (by simp [hpc]), place_ledger h (by simp [hpc, Pc.call])⟩
    · simp at hs
  | spurious q i =>
    simp only [next] at hs
    split at hs
    · rename_i hpc
      obtain rfl := Option.some.inj hs
      exact ⟨place_ok _ h (by simp [hpc, Pc.inside]) (by simp [Pc.inside]) (by simp) (by simp)
        (by simp [hpc]), place_ledger h (by simp [hpc, Pc.call])⟩
    · simp at hs
  | step t =>
    simp only [next] at hs
    split at hs
    · rename_i t _ _ q job a hpc
      have hjob := h.ledger.outside t q job a (by simp [State.calls, hpc, Pc.call])
      have hF := thrdpoolAdd_frame hpc hown hs
      refine ⟨fun p => ?_, thrdpoolAdd_ledger h.ledger hpc hs⟩
      by_cases hp : p = q
      · subst hp
        exact thrdpoolAdd_ok (h.pools p) hpc hjob hown hs
      · exact hF.other hp (h.pools p)
    · rename_i _ _ q i _
      have hF := worker_frame rfl hs
      refine ⟨fun p => ?_, worker_ledger h.ledger rfl hs⟩
      by_cases hp : p = q
      · subst hp
        exact worker_ok (h.pools p) rfl hs
      · exact hF.other hp (h.pools p)
    · simp at hs

omit [DecidableEq Q] in
lemma initial_inv : Inv w (initial : State Q B) := by
  have hrest : ∀ t, (initial.pcs t : Pc Q B) = .rest ∨ (initial.pcs t : Pc Q B) = .unborn := by
    rintro (t | ⟨q, i⟩)
    · exact .inl rfl
    · exact .inr rfl
  refine ⟨fun q =>
    ⟨fun t => ?_, fun _ => ?_, fun t hm => absurd hm (by simp [initial, newPool]), ?_,
    ?_⟩, ?_⟩
  · refine iff_of_false ?_ (by simp [initial, newPool])
    rcases hrest t with h | h <;> simp [h, Pc.inside]
  · exact ⟨by simp [initial, newPool, Pool.total], fun _ => ⟨rfl, fun _ _ => rfl⟩⟩
  · exact ⟨fun _ => by simp [initial, newPool], fun _ _ => rfl, by
      simp [initial, newPool, Pool.queued], by simp [initial, newPool], rfl⟩
  · constructor <;> simp [initial, newPool, Creator.index, Begun]
  · have hcalls : (initial : State Q B).calls = fun _ => none := by
      funext t
      rcases hrest t with h | h <;> simp [State.calls, h, Pc.call]
    rw [hcalls]
    refine ⟨⟨fun k hk => absurd hk (Nat.not_lt_zero k), ?_, ?_⟩, fun _ => ?_, by simp, by simp,
      by simp [initial]⟩
    · rintro k (t | q | -) p hp <;> simp [JobAt, initial, State.accepted, newPool] at hp
    · rintro k (t | q | -) hp <;> simp [JobAt, initial, State.accepted, newPool] at hp
    · simp [State.accepted, initial, newPool]

theorem inv_of_reach (h : Reach (next w) OwnQueue initial s) : Inv w s :=
  h.inv initial_inv fun _ _ _ => inv_step

end Steps

/-! ### One pool -/

/-- What the only pool of a process keeps in every state, `n` being the number of its workers:
the counter, the jobs, what `thrdpool_add` returned, their order, and who may sleep. -/
structure JobsOk (n : ℕ) (s : State Unit B) : Prop where
  counter : (s.pools ()).seekMtx = none → (s.pools ()).numLocalJobs = (s.pools ()).total n
  balance : ((s.pools ()).accepted : Multiset (Job B)) =
    (s.pools ()).queued n + ((s.pools ()).taken : Multiset (Job B))
  once : ((s.pools ()).taken.map Job.id).Nodup
  granted : ∀ job, ((), job, true) ∈ s.returns → job ∈ (s.pools ()).accepted
  refused : ∀ job, ((), job, false) ∈ s.returns → ∀ job' ∈ (s.pools ()).accepted, job'.id ≠ job.id
  order : (s.pools ()).accepted.filter Job.outside =
    (s.pools ()).taken.filter Job.outside ++ (s.pools ()).jobs
  awake : (s.pools ()).seekMtx = none → (∃ i, s.pcs (.worker () i) = .waiting) →
    (s.pools ()).jobs = [] ∧ ∀ i < n, (s.pools ()).localJobs i = []

lemma ownQueue_unit (s : State Unit B) (act : Act Unit B) : OwnQueue s act := by
  unfold OwnQueue
  split
  · unfold OwnAdd
    split
    · exact .inl rfl
    · trivial
  · trivial

/-- **Each job exactly once, and no sleeping on work**: in every state of every run of a
process with one thread pool. -/
theorem thrdpool_jobs {w : Unit → Workers} {s : State Unit B}
    (h : Reach (next w) (fun _ _ => True) initial s) : JobsOk (w ()).num s := by
  have hI := inv_of_reach (h.mono fun s act _ => ownQueue_unit s act)
  have hP := hI.pools ()
  refine ⟨fun hm => (hP.free hm).1, hP.stock.balance, ?_, fun job hj => hI.ledger.returned _ _ hj,
    fun job hj job' hj' he => ?_, hP.stock.order, fun hm hw => (hP.free hm).2 hw⟩
  · have hsub := Multiset.le_add_left ((s.pools ()).taken : Multiset (Job B))
      ((s.pools ()).queued (w ()).num)
    rw [← hP.stock.balance] at hsub
    exact Multiset.coe_nodup.mp
      (Multiset.nodup_of_le (Multiset.map_le_map hsub) (hI.ledger.once ()))
  · exact absurd (hI.ledger.placed.uniq job.id (.accepted ()) .refused ⟨job', hj', he⟩
      ⟨(), job, hj, rfl⟩) (by simp)

/-- Two workers, and a job that adds a job. -/
theorem thrdpool_jobs_two : ∃ s : State Unit ℕ,
    Reach (next fun _ => ⟨2, by decide, by decide⟩) (fun _ _ => True) initial s ∧
      (s.pools ()).taken.length = 2 ∧ JobsOk 2 s := by
  obtain ⟨s, hs, hp⟩ := exists_reach (next fun _ : Unit => ⟨2, by decide, by decide⟩)
    (fun _ _ => True) (initial : State Unit ℕ) (fun s => (s.pools ()).taken.length == 2)
    (List.flatten [[.start () 7, .create () 8, .enter () 1, .storeFirst (), .store ()],
      List.replicate 4 (.step (.worker () 1)),
      .call (.outside 0) (some ()) (some 5) :: List.replicate 4 (.step (.outside 0)),
      List.replicate 4 (.step (.worker () 1)),
      .call (.worker () 1) (some ()) (some 6) :: List.replicate 5 (.step (.worker () 1)),
      .enter () 0 :: List.replicate 6 (.step (.worker () 0))])
    (by decide +kernel)
  exact ⟨s, hs, by simpa using hp, thrdpool_jobs hs⟩

/-! ### Several pools -/

/-- After a critical section of a pool, the jobs it has accepted and that were not taken are in
its own queues, its counter agrees with them, and only its own workers have taken its jobs. -/
structure Separate (w : Q → Workers) (s : State Q B) : Prop where
  jobs : ∀ q, (s.pools q).seekMtx = none → ((s.pools q).accepted : Multiset (Job B)) =
    (s.pools q).queued (w q).num + ((s.pools q).taken : Multiset (Job B))
  counter : ∀ q, (s.pools q).seekMtx = none →
    (s.pools q).numLocalJobs = (s.pools q).total (w q).num
  taken : ∀ p q, ∀ job ∈ (s.pools p).accepted, job ∈ (s.pools q).taken → p = q

/-- **Pools stay separate** in every run in which no worker's own queue takes a job for another
pool. -/
theorem pools_separate [DecidableEq Q] {w : Q → Workers} {s : State Q B}
    (h : Reach (next w) OwnQueue initial s) : Separate w s := by
  have hI := inv_of_reach h
  refine ⟨fun q _ => (hI.pools q).stock.balance, fun q hm => ((hI.pools q).free hm).1,
    fun p q job hp hq => ?_⟩
  have hacc : job ∈ (s.pools q).accepted := by
    rw [← Multiset.mem_coe, (hI.pools q).stock.balance]
    exact Multiset.mem_add.mpr (.inr (Multiset.mem_coe.mpr hq))
  simpa using hI.ledger.placed.uniq job.id (.accepted p) (.accepted q) ⟨job, hp, rfl⟩
    ⟨job, hacc, rfl⟩

/-- One pool of one worker per truth value. -/
def single : Bool → Workers := fun _ => ⟨1, by decide, by decide⟩

/-- The worker of the pool `q` starts, and takes and runs a job that thread 0 has added. -/
def busy (q : Bool) : List (Act Bool ℕ) :=
  [.start q 7, .storeFirst q, .enter q 0, .call (.outside 0) (some q) (some 5)] ++
    List.replicate 4 (.step (.outside 0)) ++ List.replicate 4 (.step (.worker q 0))

/-- A worker of each pool runs a job, and one of these adds a job to its own pool. -/
theorem pools_separate_two : ∃ s : State Bool ℕ, Reach (next single) OwnQueue initial s ∧
    (s.pools true).taken.length = 2 ∧ (s.pools false).taken.length = 1 ∧ Separate single s := by
  obtain ⟨s, hs, hp⟩ := exists_reach (next single) OwnQueue (initial : State Bool ℕ)
    (fun s => decide ((s.pools true).taken.length = 2 ∧ (s.pools false).taken.length = 1))
    (List.flatten [busy true, busy false,
      .call (.worker true 0) (some true) (some 6) :: List.replicate 5 (.step (.worker true 0)),
      .finish true 0 :: List.replicate 4 (.step (.worker true 0))])
    (by decide +kernel)
  obtain ⟨h1, h2⟩ := of_decide_eq_true hp
  exact ⟨s, hs, h1, h2, pools_separate hs⟩

/-- A job that runs on a worker of one pool and adds a job to another leaves it in the worker's
own queue, where the other pool counts it and cannot find it. -/
theorem thrdpool_add_crosses_pools : ¬ ∀ s : State Bool ℕ,
    Reach (next single) (fun _ _ => True) initial s → Separate single s := by
  intro hall
  obtain ⟨s, hs, hp⟩ := exists_reach (next single) (fun _ _ => True) (initial : State Bool ℕ)
    (fun s => decide ((s.pools false).seekMtx = none ∧
      (s.pools false).numLocalJobs ≠ (s.pools false).total 1))
    (busy true ++ .call (.worker true 0) (some false) (some 6) ::
      List.replicate 5 (.step (.worker true 0)))
    (by decide +kernel)
  obtain ⟨hm, hne⟩ := of_decide_eq_true hp
  exact hne ((hall s hs).counter false hm)

end CoopTasks.ThreadPool
