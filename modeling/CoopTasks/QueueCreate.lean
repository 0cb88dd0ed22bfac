import CoopTasks.PoolAlone
import CoopTasks.QueueInv

/-!
A queue that `queue_create` has made: one dummy node, and all the others in the pool.
-/

namespace CoopTasks.Queue

open CoopTasks.Chain CoopTasks.Append CoopTasks.Advance CoopTasks.Placement CoopTasks.Alone
open CoopTasks.SizeT
open CoopTasks.Pool (PoolState Errno)

variable {V : Type*} {s s' : QueueState V} {cap t : ℕ} {c₁ c₂ : List ℕ} {weak : Bool}
  {m m' : PoolState (Item V)}

/-- No size that `queue_create` computes wraps around. -/
def SizesFit (valBytes capacity : ℕ) : Prop :=
  queueValueBytes + valBytes + 15 ≤ sizeMax ∧ capacity + 2 ≤ sizeMax

/-- When no size wraps, a queue is made over a pool one larger than its capacity, and its nodes
lie apart from each other. -/
theorem queueCreate_ok {memory : Bool} {valBytes : ℕ} (hfit : SizesFit valBytes cap)
    (h : queueCreate memory valBytes cap = .ok s) :
    s = raw cap ∧ 0 < valBytes ∧ 0 < cap ∧
      Pool.SizesFit (queueValueBytes + valBytes) (cap + 1) ∧
      Pool.mempoolCreate memory (queueValueBytes + valBytes) (cap + 1) none =
        .ok (raw (V := V) cap).mem := by
  obtain ⟨h1, h2⟩ := hfit
  unfold queueCreate at h
  split at h
  · simp at h
  · rename_i hargs
    have hfit : Pool.SizesFit (queueValueBytes + valBytes) (cap + 1) := by
      unfold Pool.SizesFit Pool.memoryFragmentBytes queueValueBytes at *
      omega
    have hcap : sizeAdd cap 1 = cap + 1 := sizeAdd_eq (by omega)
    rw [sizeAdd_eq (by omega), hcap] at h
    cases hm : Pool.mempoolCreate memory (queueValueBytes + valBytes) (cap + 1)
        (none : Item V) with
    | error e => simp [hm, Except.map] at h
    | ok m =>
      obtain rfl := by simpa [hm, Except.map] using h
      obtain ⟨rfl, -⟩ := Pool.mempoolCreate_ok hm
      unfold raw
      rw [hcap]
      exact ⟨rfl, by omega, by omega, hfit, rfl⟩

lemma queueCreate_made {valBytes : ℕ} (hv : 0 < valBytes) (hpos : 0 < cap)
    (hfit : SizesFit valBytes cap) (hblock : (cap + 2) *
      Pool.internalMempoolAlignedDataBytes (queueValueBytes + valBytes) ≤ sizeMax) :
    queueCreate true valBytes cap = .ok (raw cap : QueueState V) := by
  obtain ⟨hbytes, hmax⟩ := hfit
  have hcap : sizeAdd cap 1 = cap + 1 := sizeAdd_eq (by omega)
  have hmade := Pool.mempoolCreate_made (d := (none : Item V))
    (Nat.add_pos_right queueValueBytes hv)
    (Nat.succ_pos cap) hmax hblock
  unfold queueCreate raw
  rw [if_neg (by omega), sizeAdd_eq (by omega), hcap, hmade]
  rfl

/-- The pool while thread 0 is the only one to use it. -/
structure PoolReady (cap : ℕ) (m : PoolState (Item V)) (c₁ : List ℕ) : Prop where
  inv : Pool.Inv m (cap + 2) c₁
  live : Pool.Live m
  capacity : m.pool.capacity = cap + 1
  owner : ∀ o, o ≠ 0 → m.owns o = []
  near : TailNear m.pool.ends m.cells

/-- What `queue_create` has done so far. -/
def Making (cap : ℕ) (s : QueueState V) : Prop :=
  (∀ t, t ≠ 0 → s.pcs t = .idle ∧ s.mem.calls t = .idle) ∧ s.log = [] ∧ s.count = 0 ∧
  match s.pcs 0 with
  | .createPool => Pool.Laying (cap + 1) none s.mem
  | .createAlloc .alloc => ∃ c₁, PoolReady cap s.mem c₁ ∧
    ((∃ pc, s.mem.calls 0 = .alloc 0 pc) ∧ s.mem.owns 0 = [] ∧
        (s.mem.calls 0).Alone s.mem.pool.ends s.mem.cells ∨
      ∃ n, s.mem.calls 0 = .returned (some n) ∧ s.mem.owns 0 = [n])
  | .createAlloc (.init n) => (∃ c₁, PoolReady cap s.mem c₁) ∧
    (s.mem.calls 0).outside = true ∧ s.mem.owns 0 = [n]
  | .createEnds (some n) => (∃ c₁, PoolReady cap s.mem c₁) ∧
    (s.mem.calls 0).outside = true ∧ s.mem.owns 0 = [n] ∧ (s.mem.cells.link n).ptr = none
  | .returned _ => ∃ c₁ n, Inv cap s c₁ [n] ∧ PoolReady cap s.mem c₁ ∧
    TailNear s.ends s.mem.cells
  | _ => False

lemma making_raw (hmax : cap + 2 ≤ sizeMax) : Making cap (raw cap : QueueState V) := by
  refine ⟨fun t ht => ⟨by simp [raw, ht], by simp [raw, Pool.raw, ht]⟩, rfl, rfl, ?_⟩
  show Pool.Laying (cap + 1) none (Pool.raw (sizeAdd cap 1) none)
  rw [sizeAdd_eq (by omega)]
  exact Pool.laying_start

lemma alloc_ready (h : PoolReady cap m c₁) (hcall : ∃ pc, m.calls 0 = .alloc 0 pc)
    (howns : m.owns 0 = []) (ha : (m.calls 0).Alone m.pool.ends m.cells)
    (hidle : ∀ t, t ≠ 0 → m.calls t = .idle) (hs : Pool.threadStep m 0 weak = some m') :
    (∀ t, t ≠ 0 → m'.calls t = .idle) ∧ ∃ c', PoolReady cap m' c' ∧
      ((∃ pc, m'.calls 0 = .alloc 0 pc) ∧ m'.owns 0 = [] ∧
          (m'.calls 0).Alone m'.pool.ends m'.cells ∨
        ∃ n, m'.calls 0 = .returned (some n) ∧ m'.owns 0 = [n]) := by
  obtain ⟨pc, hcall⟩ := hcall
  obtain ⟨m'', hs'', ha', hnear, -, hnone⟩ := Pool.threadStep_alone weak h.inv h.live
    (by rw [hcall]; rfl) ha h.near
  obtain rfl : m'' = m' := by simpa [hs] using hs''.symm
  obtain ⟨c', hI', hlive', hmv, -⟩ := Pool.threadStep_inv h.inv h.live
    (Pool.callAlone_fresh ha (h.live 0)) hs
  refine ⟨fun t ht => (hmv.others t ht).trans (hidle t ht), c', ?_, ?_⟩
  · refine ⟨hI', hlive', hmv.capacity.trans h.capacity, fun o ho => ?_, hnear⟩
    rcases hmv.owns with ⟨he, -⟩ | ⟨o', f, hcur, -, he⟩
    · rw [he]; exact h.owner o ho
    · obtain rfl : 0 = o' := by simp_all
      rw [he, Function.update_of_ne ho]; exact h.owner o ho
  · rcases hmv.owns with ⟨he, hret⟩ | ⟨o', f, hcur, hret, he⟩
    · refine .inl ⟨(hmv.alloc 0 pc hcall).resolve_right ?_, by rw [he, howns], ha'⟩
      rintro ⟨r, hr⟩
      cases r with
      | some f => exact hret f hr
      | none =>
        -- all fragments are on the chain, so it has more than one
        obtain ⟨hlen, hheld⟩ := hnone 0 pc hcall hr
        have := h.inv.length_add (fun t => by
          by_cases ht : t = 0
          · subst ht; exact hheld
          · rw [hidle t ht]; rfl) h.owner
        rw [howns, hlen] at this
        simp at this
    · obtain rfl : 0 = o' := by simp_all
      exact .inr ⟨f, hret, by simp [he, howns]⟩

lemma making_step (hmax : cap + 2 ≤ sizeMax) (h : Making cap s)
    (hs : threadStep s 0 weak = some s') : Making cap s' := by
  obtain ⟨hidle, hlog, hcount, hcur⟩ := h
  have hgo : ∀ (u : QueueState V) pc, u.pcs = s.pcs → ∀ t, t ≠ 0 → (u.go 0 pc).pcs t = .idle :=
    fun u pc hu t ht => by rw [go_ne ht, hu]; exact (hidle t ht).1
  unfold threadStep at hs
  split at hcur
  · rename_i hpc
    cases hout : (s.mem.calls 0).outside with
    | false =>
      obtain ⟨m, hm, rfl⟩ := by simpa [hout] using hs
      have hlay := Pool.laying_step hcur hm
      refine ⟨fun t ht => ⟨(hidle t ht).1, hlay.2.1 t ht⟩, hlog, hcount, ?_⟩
      simp only [hpc]
      exact hlay
    | true =>
      obtain rfl := by simpa [hout, queueStep, hpc, queueCreateStep] using hs
      obtain ⟨⟨-, howns, hcap, hcall⟩, -⟩ := hcur
      split at hcall
      · simp_all [Pool.Call.outside]
      · simp_all [Pool.Call.outside]
      · simp_all [Pool.Call.outside]
      · rename_i hr
        rw [Pool.fragments_eq hmax] at hcall
        obtain ⟨hI, hnear, -⟩ := hcall
        have hothers : ∀ t, t ≠ 0 → (mempoolAlloc s.mem 0).calls t = .idle := fun t ht =>
          (Pool.setCall_ne ht).trans (hidle t ht).2
        refine ⟨fun t ht => ⟨hgo _ _ rfl t ht, hothers t ht⟩, hlog, hcount, ?_⟩
        rw [go_self]
        refine ⟨_, ⟨hI.setCall (by rw [hr]; rfl) trivial, fun t pc => ?_, hcap,
          fun o _ => howns o, hnear⟩, .inl ⟨⟨_, Pool.setCall_self⟩, howns 0, ?_⟩⟩
        · by_cases ht : t = 0
          · subst ht; simp [mempoolAlloc]
          · have := hothers t ht
            simp_all [mempoolAlloc]
        · show (((mempoolAlloc s.mem 0).calls 0).Alone _ _)
          simp [mempoolAlloc, Pool.Call.Alone, TakeAlone]
      · exact hcall.elim
  · rename_i hpc
    obtain ⟨c₁, hready, hcase⟩ := hcur
    rcases hcase with ⟨hcall, howns, ha⟩ | ⟨n, hcall, howns⟩
    · have hout : (s.mem.calls 0).outside = false := by obtain ⟨pc, h⟩ := hcall; rw [h]; rfl
      obtain ⟨m, hm, rfl⟩ := by simpa [hout] using hs
      obtain ⟨hidle', hready'⟩ := alloc_ready hready hcall howns ha (fun t ht => (hidle t ht).2) hm
      refine ⟨fun t ht => ⟨(hidle t ht).1, hidle' t ht⟩, hlog, hcount, ?_⟩
      simp only [hpc]
      exact hready'
    · have hout : (s.mem.calls 0).outside = true := by rw [hcall]; rfl
      rw [hout] at hs
      obtain rfl := by
        simpa [queueStep, hpc, queueCreateStep, queueAllocValue, hcall] using hs
      refine ⟨fun t ht => ⟨hgo _ _ rfl t ht, (hidle t ht).2⟩, hlog, hcount, ?_⟩
      rw [go_self]
      exact ⟨⟨c₁, hready⟩, hout, howns⟩
  · rename_i n hpc
    obtain ⟨⟨c₁, hready⟩, hout, howns⟩ := hcur
    obtain rfl := by
      simpa [hout, queueStep, hpc, queueCreateStep, queueAllocValue] using hs
    have hn : n ∈ s.mem.owns 0 := by simp [howns]
    have hne : ∀ g, g ∉ s.mem.owns 0 → Same s.mem.cells (s.mem.cells.write n queueValueMaker) g :=
      fun g hg => same_write (by rintro rfl; exact hg hn)
    have hsame : ∀ g ∈ c₁, Same s.mem.cells (s.mem.cells.write n queueValueMaker) g := fun g hg =>
      hne g (hready.inv.not_owned_of_mem hg 0)
    refine ⟨fun t ht => ⟨hgo _ _ rfl t ht, (hidle t ht).2⟩, hlog, hcount, ?_⟩
    rw [go_self]
    exact ⟨⟨c₁, hready.inv.setCells mild_write hsame fun _ g hg =>
      (hne g (hready.inv.not_owned_of_held hg 0)).1, hready.live, hready.capacity, hready.owner,
      hready.near.congr hready.inv.linked fun g hg => (hsame g hg).1⟩, hout, howns,
      by simp [QueueState.setCells, queueValueMaker]⟩
  · rename_i n hpc
    obtain ⟨⟨c₁, hready⟩, hout, howns, hnull⟩ := hcur
    obtain rfl := by simpa [hout, queueStep, hpc, queueCreateStep] using hs
    refine ⟨fun t ht => ⟨hgo _ _ rfl t ht, (hidle t ht).2⟩, hlog, hcount, ?_⟩
    rw [go_self]
    refine ⟨c₁, n, ⟨hready.inv, hready.live, hready.capacity, hready.owner,
      ⟨by simp, hnull, rfl, n, by simp, rfl⟩, ?_, fun t => ?_⟩, hready, n, rfl, .inl hnull⟩
    · have hnone : ∀ u g, ¬ At ({ s with ends := ⟨⟨0, some n⟩, ⟨0, some n⟩⟩ }.go 0
          (.returned (.ok none))) [n] g (.call u) := by
        intro u g
        by_cases hu : u = 0
        · subst hu; simp [At, Pc.held]
        · simp only [At, go_ne hu]
          simp [(hidle u hu).1, Pc.held]
      refine ⟨fun g hg => ⟨.chain, by simpa [At, howns] using hg⟩, ?_, ?_⟩
      · rintro g (- | u) (- | u') hp hq
        · rfl
        · exact absurd hq (hnone u' g)
        · exact absurd hp (hnone u g)
        · exact absurd hp (hnone u g)
      · rintro g (- | u) hp
        · simpa [At, howns] using hp
        · exact absurd hp (hnone u g)
    · by_cases ht : t = 0
      · subst ht; rw [go_self]; exact hout
      · rw [go_ne ht]
        simp only [(hidle t ht).1]
        show (s.mem.calls t).outside = true
        rw [(hidle t ht).2]; rfl
  · rename_i hpc
    obtain ⟨c₁, n, hI, -⟩ := hcur
    have hout := hI.threads 0
    rw [hpc] at hout
    have hout : (s.mem.calls 0).outside = true := hout
    simp [hout, queueStep, hpc] at hs
  · exact hcur.elim

/-- What `queue_create` leaves behind. -/
theorem created_inv (hmax : cap + 2 ≤ sizeMax) (h : Created cap s) :
    (∃ c₁ n, Inv cap s c₁ [n] ∧ PoolReady cap s.mem c₁ ∧ TailNear s.ends s.mem.cells) ∧
      s.log = [] ∧ s.count = 0 ∧ ∀ t, (s.pcs t).outside = true := by
  have hmaking : Making cap s := h.1.inv (making_raw hmax) fun u a v hu ha hv => by
    cases a with
    | step t weak =>
      obtain rfl : t = 0 := by simpa [Act.isStep] using ha
      exact making_step hmax hu hv
    | enqueue | dequeue => simp [Act.isStep] at ha
  obtain ⟨hidle, hlog, hcount, hcur⟩ := hmaking
  rw [h.2] at hcur
  refine ⟨hcur, hlog, hcount, fun t => ?_⟩
  by_cases ht : t = 0
  · subst ht; rw [h.2]; rfl
  · rw [(hidle t ht).1]; rfl

/-! ### A pool of a single fragment -/

/-- What a take has read where there is one fragment. -/
def BareTake : TakePc ℕ (Item V) → Prop
  | .loadHead => True
  | .loadTail head => head.ptr = some 0
  | .loadNext head tail => head.ptr = some 0 ∧ tail.ptr = some 0
  | .check head tail next => head.ptr = some 0 ∧ tail.ptr = some 0 ∧ next.ptr = none
  | _ => False

def BareCall : Pool.Call (Item V) → Prop
  | .idle | .returned none => True
  | .alloc _ (.loop pc) => BareTake pc
  | _ => False

/-- Where a thread may stand: it gets no node, and a dequeue stops at the null pointer. -/
def BarePc : Pc V → Prop
  | .idle | .returned _ | .createAlloc .alloc | .createEnds none | .enqueueAlloc _ _ .alloc
  | .dequeueLoop _ _ .loadHead => True
  | .dequeueLoop _ _ (.loadTail head) | .dequeueLoop _ _ (.loadNext head _) => head.ptr = none
  | _ => False

def Event.fruitless : Event V → Bool
  | .enqueue _ _ | .dequeue _ _ | .failed _ _ => true
  | _ => false

/-- `capacity + 1` or `capacity + 2` has wrapped to zero: nobody gets a node, so there is not even
a dummy. -/
structure Bare (s : QueueState V) : Prop where
  head : s.mem.pool.ends.head.ptr = some 0
  tail : s.mem.pool.ends.tail.ptr = some 0
  link : (s.mem.cells.link 0).ptr = none
  dummy : s.ends.head.ptr = none
  calls : ∀ t, BareCall (s.mem.calls t)
  pcs : ∀ t, BarePc (s.pcs t)
  log : ∀ e ∈ s.log, e.fruitless = true

lemma Bare.go (h : Bare s) {pc : Pc V} (hpc : BarePc pc) : Bare (s.go t pc) :=
  { h with
    pcs := fun u => by
      by_cases hu : u = t
      · rw [hu, go_self]
        exact hpc
      · rw [go_ne hu]
        exact h.pcs u }

lemma Bare.note (h : Bare s) {e : Event V} (he : e.fruitless = true) : Bare (s.note e) :=
  { h with
    log := fun e' he' => by
      rcases List.mem_append.mp he' with he' | he'
      · exact h.log e' he'
      · rwa [List.mem_singleton.mp he'] }

lemma Bare.begin (h : Bare s) {e : Event V} {pc : Pc V} {k : ℕ} (he : e.fruitless = true)
    (hpc : BarePc pc) : Bare (({ s with count := k }.note e).go t pc) := by
  have hcount : Bare { s with count := k } := { h with }
  exact (hcount.note he).go hpc

lemma Bare.setCall (h : Bare s) {call : Pool.Call (Item V)} (hcall : BareCall call) :
    Bare { s with mem := s.mem.setCall t call } :=
  { h with
    calls := fun u => by
      by_cases hu : u = t
      · subst hu
        show BareCall ((s.mem.setCall u call).calls u)
        rw [Pool.setCall_self]
        exact hcall
      · show BareCall ((s.mem.setCall t call).calls u)
        rw [Pool.setCall_ne hu]
        exact h.calls u }

lemma Bare.poolStep (h : Bare s) (hs : Pool.threadStep s.mem t weak = some m) :
    Bare { s with mem := m } := by
  have hcall := h.calls t
  unfold Pool.threadStep at hs
  split at hs
  · simp at hs
  · simp at hs
  · rename_i o pc hpc
    rw [hpc] at hcall
    cases pc with
    | count f => exact hcall.elim
    | loop pc =>
      cases pc with
      | loadHead =>
        obtain rfl := by simpa [Pool.internalMempoolPick, takeStep] using hs
        exact h.setCall h.head
      | loadTail head =>
        obtain rfl := by simpa [Pool.internalMempoolPick, takeStep] using hs
        exact h.setCall ⟨hcall, h.tail⟩
      | loadNext head tail =>
        obtain ⟨hhead, htail⟩ := hcall
        obtain rfl := by simpa [Pool.internalMempoolPick, takeStep, hhead] using hs
        exact h.setCall ⟨hhead, htail, h.link⟩
      | check head tail next =>
        obtain ⟨hhead, htail, hnext⟩ := hcall
        cases heq : head.equals s.mem.pool.ends.head with
        | false =>
          obtain rfl := by simpa [Pool.internalMempoolPick, takeStep, heq] using hs
          exact h.setCall trivial
        | true =>
          obtain rfl := by
            simpa [Pool.internalMempoolPick, takeStep, heq, hhead, htail, hnext] using hs
          exact h.setCall trivial
      | help | copy | swing => exact hcall.elim
  · rename_i hpc
    rw [hpc] at hcall
    exact hcall.elim
  · rename_i hpc
    rw [hpc] at hcall
    exact hcall.elim

lemma Bare.queueStep (h : Bare s) (hs : queueStep s t weak = some s') : Bare s' := by
  have hpc := h.pcs t
  have hcall := h.calls t
  have hnone : ∀ n, s.mem.calls t ≠ .returned (some n) := fun n hret => by
    rw [hret] at hcall
    exact hcall
  unfold Queue.queueStep at hs
  generalize s.pcs t = pc at hs hpc
  cases pc with
  | idle | returned => simp at hs
  | createPool | enqueueLoop | dequeueFree => exact hpc.elim
  | createAlloc pc =>
    cases pc with
    | init | copy => exact hpc.elim
    | alloc =>
      obtain ⟨⟨C, r⟩, halloc, rfl⟩ := Option.map_eq_some_iff.mp hs
      simp only [queueAllocValue] at halloc
      split at halloc
      · rename_i n hret
        exact absurd hret (hnone n)
      · obtain ⟨rfl, rfl⟩ := Prod.mk.inj (Option.some.inj halloc)
        exact h.go trivial
      · simp at halloc
  | createEnds n =>
    cases n with
    | some n => exact hpc.elim
    | none =>
      obtain rfl := Option.some.inj hs
      have hends : Bare { s with ends := ⟨⟨0, none⟩, ⟨0, none⟩⟩ } := { h with dummy := rfl }
      exact hends.go trivial
  | enqueueAlloc call v pc =>
    cases pc with
    | init | copy => exact hpc.elim
    | alloc =>
      obtain ⟨⟨C, r⟩, halloc, rfl⟩ := Option.map_eq_some_iff.mp hs
      simp only [queueAllocValue] at halloc
      split at halloc
      · rename_i n hret
        exact absurd hret (hnone n)
      · obtain ⟨rfl, rfl⟩ := Prod.mk.inj (Option.some.inj halloc)
        exact (h.note rfl).go trivial
      · simp at halloc
  | dequeueLoop call val pc =>
    cases pc with
    | loadHead =>
      obtain rfl := by simpa [queueDequeue, takeStep] using hs
      exact h.go h.dummy
    | loadTail head =>
      obtain rfl := by simpa [queueDequeue, takeStep] using hs
      exact h.go hpc
    | loadNext head tail =>
      -- `head.val->next` is read through the null pointer
      have hnull : head.ptr = none := hpc
      simp [queueDequeue, takeStep, hnull] at hs
    | check | help | copy | swing => exact hpc.elim

lemma bare_step {a : Act V} (h : Bare s) (hs : next s a = some s') : Bare s' := by
  cases a with
  | enqueue t val =>
    cases hout : (s.pcs t).outside with
    | false => simp [next, hout] at hs
    | true =>
      cases val with
      | none =>
        obtain rfl := by simpa [next, hout] using hs
        exact h.begin rfl trivial
      | some v =>
        obtain rfl := by simpa [next, hout] using hs
        have hcall : Bare { s with mem := mempoolAlloc s.mem t } := h.setCall trivial
        exact hcall.begin rfl trivial
  | dequeue t val =>
    cases hout : (s.pcs t).outside with
    | false => simp [next, hout] at hs
    | true =>
      obtain rfl := by simpa [next, hout] using hs
      exact h.begin rfl trivial
  | step t weak =>
    simp only [next, threadStep] at hs
    cases hout : (s.mem.calls t).outside with
    | true =>
      rw [hout] at hs
      exact h.queueStep hs
    | false =>
      rw [hout] at hs
      obtain ⟨m, hm, rfl⟩ := Option.map_eq_some_iff.mp hs
      exact h.poolStep hm

lemma Bare.start (h : Pool.Inv s.mem 1 [0]) (hcalls : ∀ u, BareCall (s.mem.calls u))
    (hpcs : ∀ u, BarePc (s.pcs u)) (hdummy : s.ends.head.ptr = none) (hlog : s.log = []) :
    Bare s := by
  obtain ⟨f, hf, htail⟩ := h.linked.tail
  obtain rfl := List.mem_singleton.mp hf
  exact ⟨h.linked.head, htail, h.linked.path, hdummy, hcalls, hpcs, by simp [hlog]⟩

/-- `queue_create`, before `mempool_create` has laid out its only fragment and afterwards. -/
def BareMaking (cap : ℕ) (s : QueueState V) : Prop :=
  Bare s ∨ s.pcs = (raw (V := V) cap).pcs ∧ s.log = [] ∧ s.ends.head.ptr = none ∧
    Pool.Laying (sizeAdd cap 1) none s.mem

/-- `mempool_create` has returned, and `queue_create` asks for the dummy node. -/
lemma bare_of_laid (hone : Pool.fragments (sizeAdd cap 1) = 1)
    (hpcs : s.pcs = (raw (V := V) cap).pcs) (hlog : s.log = []) (hdummy : s.ends.head.ptr = none)
    (hlay : Pool.Laying (sizeAdd cap 1) none s.mem) (hout : (s.mem.calls 0).outside = true) :
    Bare (s.go 0 (.createAlloc .alloc)) := by
  obtain ⟨⟨-, -, -, hcall⟩, hidle, -⟩ := hlay
  have hret : ∃ c, s.mem.calls 0 = .returned c := by
    cases hc : s.mem.calls 0 <;> simp_all [Pool.Call.outside]
  obtain ⟨_ | f, hret⟩ := hret
  · rw [hret, hone] at hcall
    refine .start hcall.1 (fun x => ?_) (fun x => ?_) hdummy hlog
    · show BareCall (s.mem.calls x)
      by_cases hx : x = 0
      · rw [hx, hret]
        trivial
      · rw [hidle x hx]
        trivial
    · by_cases hx : x = 0
      · rw [hx, go_self]
        trivial
      · have hrest : (raw cap).pcs x = (Pc.idle : Pc V) := if_neg hx
        rw [go_ne hx, hpcs, hrest]
        trivial
  · rw [hret] at hcall
    exact hcall.elim

lemma bareMaking_step (hone : Pool.fragments (sizeAdd cap 1) = 1) (h : BareMaking cap s)
    (hs : next s (.step 0 weak) = some s') : BareMaking cap s' := by
  rcases h with h | ⟨hpcs, hlog, hdummy, hlay⟩
  · exact .inl (bare_step h hs)
  · simp only [next, threadStep] at hs
    cases hout : (s.mem.calls 0).outside with
    | false =>
      rw [hout] at hs
      obtain ⟨m, hm, rfl⟩ := Option.map_eq_some_iff.mp hs
      exact .inr ⟨hpcs, hlog, hdummy, Pool.laying_step hlay hm⟩
    | true =>
      have hpc : s.pcs 0 = .createPool := by rw [hpcs]; rfl
      obtain rfl := by simpa [hout, queueStep, hpc, queueCreateStep] using hs
      exact .inl ((bare_of_laid hone hpcs hlog hdummy hlay hout).setCall trivial)

lemma created_bare (hcap : cap ≤ sizeMax) (hmax : sizeMax < cap + 2) (h : Created cap s) :
    Bare s := by
  have hone : Pool.fragments (sizeAdd cap 1) = 1 := by
    unfold Pool.fragments sizeAdd sizeMax at *
    split <;> split <;> omega
  have hmaking : BareMaking cap s :=
    h.1.inv (.inr ⟨rfl, rfl, rfl, Pool.laying_start⟩) fun u a v hu ha hv => by
      cases a with
      | enqueue | dequeue => simp [Act.isStep] at ha
      | step t weak =>
        obtain rfl : t = 0 := by simpa [Act.isStep] using ha
        exact bareMaking_step hone hu hv
  rcases hmaking with hbare | ⟨hpcs, -⟩
  · exact hbare
  · have hret := h.2
    rw [hpcs] at hret
    cases hret

end CoopTasks.Queue
