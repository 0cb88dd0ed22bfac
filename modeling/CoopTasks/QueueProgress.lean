import CoopTasks.PoolProgress
import CoopTasks.QueueLinear

/-!
The queue is lock-free, the steps of its pool included.

A `queue_enqueue` wins when it has moved the head of the pool and when it has linked its node, a
`queue_dequeue` when it has moved the head and when it has linked its node to the pool again; and
each node linked leaves a tail to be moved.
-/

namespace CoopTasks.Queue

open CoopTasks.Chain CoopTasks.Append CoopTasks.Advance CoopTasks.Contention CoopTasks.Machine
open CoopTasks.Linearize CoopTasks.Progress CoopTasks.SizeT
open CoopTasks.Pool (PoolState Errno wins_outside left_outside)

variable {V : Type*} {s s' s₀ : QueueState V} {cap k t : ℕ} {c c' c₁ c₂ c₁' c₂' : List ℕ}
  {a : Act V} {weak : Bool} {ls : List (QueueState V × Act V)} {E : Ends ℕ}
  {C C' : Cells ℕ (Item V)} {m : PoolState (Item V)}

/-! ### What a call has left -/

/-- How often a call may still win, beside what the call of the pool may that it is in. -/
def Pc.wins : Pc V → ℕ
  | .enqueueAlloc _ _ _ => 2
  | .enqueueLoop _ _ pc => bif pc.linked then 0 else 2
  | .dequeueLoop _ _ _ => 3
  | _ => 0

/-- The steps outside the pool that a call has left if it is let alone. -/
noncomputable def Pc.left (E : Ends ℕ) (C : Cells ℕ (Item V)) : Pc V → ℕ
  | .enqueueAlloc _ _ .alloc => 8
  | .enqueueAlloc _ _ (.init _) => 7
  | .enqueueAlloc _ _ (.copy _) => 6
  | .enqueueLoop _ _ pc => putLeft E C pc
  | .dequeueLoop _ _ pc => takeLeft E C pc
  | .dequeueFree _ _ => 1
  | _ => 0

lemma Pc.left_le (pc : Pc V) : pc.left E C ≤ 11 := by
  cases pc with
  | enqueueAlloc a v pc => cases pc <;> simp [Pc.left]
  | enqueueLoop a n pc => exact (putLeft_le pc).trans (by decide)
  | dequeueLoop d val pc => exact takeLeft_le pc
  | _ => simp [Pc.left]

lemma Pc.left_congr (hL : Linked E C c) (hs : ∀ g ∈ c, Same C C' g) (pc : Pc V) :
    pc.left E C' = pc.left E C := by
  cases pc with
  | enqueueAlloc a v pc => cases pc <;> rfl
  | enqueueLoop a n pc => exact putLeft_congr hL hs pc
  | dequeueLoop d val pc => exact takeLeft_congr hL hs pc
  | _ => rfl

/-- How often the call of a thread may still win. -/
def QueueState.winsOf (s : QueueState V) (t : ℕ) : ℕ := (s.pcs t).wins + (s.mem.calls t).wins

/-- The steps that the call of a thread has left if it is let alone. -/
noncomputable def QueueState.left (s : QueueState V) (t : ℕ) : ℕ :=
  (s.pcs t).left s.ends s.mem.cells + (s.mem.calls t).left s.mem.pool.ends s.mem.cells

lemma left_le (t : ℕ) : s.left t ≤ 23 := by
  have h := (s.pcs t).left_le (E := s.ends) (C := s.mem.cells)
  have h' := (s.mem.calls t).left_le (E := s.mem.pool.ends) (C := s.mem.cells)
  unfold QueueState.left
  omega

/-- How far the tails are behind. -/
def lags (s : QueueState V) (c₁ c₂ : List ℕ) : ℕ :=
  behind s.mem.pool.ends c₁ + behind s.ends c₂

/-! ### One step -/

/-- A step of a call that leaves the chains and their ends as they were. -/
structure Plain (s s' : QueueState V) (c₁ c₂ : List ℕ) (t : ℕ) (weak : Bool) : Prop where
  poolEnds : s'.mem.pool.ends = s.mem.pool.ends
  ends : s'.ends = s.ends
  poolSame : ∀ g ∈ c₁, Same s.mem.cells s'.mem.cells g
  same : ∀ g ∈ c₂, Same s.mem.cells s'.mem.cells g
  wins : s'.winsOf t ≤ s.winsOf t
  left : weak = false → s'.left t < s.left t

/-- A step of a call goes on, or wins. -/
def Goes (s s' : QueueState V) (c₁ c₂ : List ℕ) (t : ℕ) (weak : Bool) : Prop :=
  Plain s s' c₁ c₂ t weak ∨ ∃ c₁' c₂', Linked s'.mem.pool.ends s'.mem.cells c₁' ∧
    Linked s'.ends s'.mem.cells c₂' ∧ lags s' c₁' c₂' + s'.winsOf t < lags s c₁ c₂ + s.winsOf t

lemma pool_goes (hI : Inv cap s c₁ c₂)
    (hfresh : Pool.CallFresh weak s.mem.pool.ends s.mem.cells c₁ (s.mem.calls t))
    (hm : Pool.threadStep s.mem t weak = some m) : Goes s { s with mem := m } c₁ c₂ t weak := by
  obtain ⟨-, -, -, hmv, -⟩ := Pool.threadStep_inv hI.pool hI.live hfresh hm
  have hsame : ∀ g ∈ c₂, Same s.mem.cells m.cells g := fun g hg =>
    hmv.same 0 g (hI.owned_of_mem hg)
  rcases Pool.threadStep_works hI.pool hI.live hfresh hm with hplain | ⟨c₁', hL', hb⟩
  · refine .inl ⟨hplain.ends, rfl, hplain.same, hsame, Nat.add_le_add_left hplain.wins _,
      fun hweak => ?_⟩
    have hleft := hplain.left hweak
    have hpc := (s.pcs t).left_congr hI.linked hsame
    show (s.pcs t).left s.ends m.cells + (m.calls t).left m.pool.ends m.cells < _
    rw [hpc]
    exact Nat.add_lt_add_left hleft _
  · refine .inr ⟨c₁', c₂, hL', hI.linked.of_same hsame, ?_⟩
    show behind m.pool.ends c₁' + behind s.ends c₂ + ((s.pcs t).wins + (m.calls t).wins) <
      behind s.mem.pool.ends c₁ + behind s.ends c₂ + ((s.pcs t).wins + (s.mem.calls t).wins)
    omega

lemma winsOf_outside (hout : (s.mem.calls t).outside = true) : s.winsOf t = (s.pcs t).wins := by
  unfold QueueState.winsOf
  rw [wins_outside hout, Nat.add_zero]

lemma left_of_outside (hout : (s.mem.calls t).outside = true) :
    s.left t = (s.pcs t).left s.ends s.mem.cells := by
  unfold QueueState.left
  rw [left_outside hout, Nat.add_zero]

lemma own_plain {pc pc' : Pc V} (hpc : s.pcs t = pc) (hpc' : s'.pcs t = pc')
    (hout : (s.mem.calls t).outside = true) (hcalls : s'.mem.calls t = s.mem.calls t)
    (hpool : s'.mem.pool = s.mem.pool) (hends : s'.ends = s.ends)
    (hs₁ : ∀ g ∈ c₁, Same s.mem.cells s'.mem.cells g)
    (hs₂ : ∀ g ∈ c₂, Same s.mem.cells s'.mem.cells g) (hw : pc'.wins ≤ pc.wins)
    (hl : weak = false → pc'.left s.ends s'.mem.cells < pc.left s.ends s.mem.cells) :
    Goes s s' c₁ c₂ t weak := by
  have hout' : (s'.mem.calls t).outside = true := by
    rw [hcalls]
    exact hout
  refine .inl ⟨by rw [hpool], hends, hs₁, hs₂, ?_, fun hweak => ?_⟩
  · rw [winsOf_outside hout, winsOf_outside hout', hpc, hpc']
    exact hw
  · rw [left_of_outside hout, left_of_outside hout', hpc, hpc', hends]
    exact hl hweak

lemma enqueueAlloc_goes (hI : Inv cap s c₁ c₂) {a : ℕ} {v : V} {pc : AllocPc}
    (hpc : s.pcs t = .enqueueAlloc a v pc) (hout : (s.mem.calls t).outside = true)
    (h : queueEnqueue s t weak (.enqueueAlloc a v pc) = some s') : Goes s s' c₁ c₂ t weak := by
  have hok := hI.threads t
  rw [hpc] at hok
  have hheld : ∀ {n : ℕ}, At s c₂ n (.call t) → (∀ g ∈ c₁, g ≠ n) ∧ ∀ g ∈ c₂, g ≠ n :=
    fun {n} hn => by
      constructor <;> rintro g hg rfl
      · exact hI.pool.not_owned_of_mem hg 0 (hI.owned_of_held hn)
      · exact hI.not_mem_of_held hn hg
  cases pc with
  | alloc =>
    rcases hok with ⟨pc, hcall⟩ | ⟨r, hcall⟩
    · simp [hcall, Pool.Call.outside] at hout
    · cases r with
      | none =>
        obtain rfl := by simpa [queueEnqueue, queueAllocValue, hcall] using h
        exact own_plain hpc go_self hout rfl rfl rfl (fun _ _ => .refl) (fun _ _ => .refl)
          (by simp [Pc.wins]) fun _ => by simp [Pc.left]
      | some n =>
        obtain rfl := by simpa [queueEnqueue, queueAllocValue, hcall] using h
        exact own_plain hpc go_self hout rfl rfl rfl (fun _ _ => .refl) (fun _ _ => .refl)
          (by simp [Pc.wins]) fun _ => by simp [Pc.left]
  | init n =>
    obtain rfl := by simpa [queueEnqueue, queueAllocValue] using h
    obtain ⟨h₁, h₂⟩ := hheld (n := n) (by simp [At, hpc, Pc.held, AllocPc.held])
    exact own_plain hpc go_self hout rfl rfl rfl (fun g hg => same_write (h₁ g hg))
      (fun g hg => same_write (h₂ g hg)) (by simp [Pc.wins]) fun _ => by simp [Pc.left]
  | copy n =>
    obtain rfl := by simpa [queueEnqueue, queueAllocValue] using h
    obtain ⟨h₁, h₂⟩ := hheld (n := n) (by simp [At, hpc, Pc.held, AllocPc.held])
    have hstart : putLeft s.ends (s.mem.cells.setData n (some (a, v))) .loadTail = 5 :=
      putLeft_alone trivial
    refine own_plain hpc go_self hout rfl rfl rfl (fun g hg => same_setData (h₁ g hg))
      (fun g hg => same_setData (h₂ g hg)) (by simp [Pc.wins, PutPc.linked]) fun _ => ?_
    exact hstart.trans_lt (by simp [Pc.left])

lemma own_wins (hI : Inv cap s c₁ c₂) (hI' : Inv cap s' c₁' c₂')
    (hout : (s.mem.calls t).outside = true) (hmv : Moved s s' t c₂ c₂')
    (hw : behind s'.ends c₂' + s'.winsOf t < behind s.ends c₂ + s.winsOf t) :
    Goes s s' c₁ c₂ t weak := by
  obtain ⟨hpool, hlinks⟩ := hmv.own hout
  have hL : Linked s'.mem.pool.ends s'.mem.cells c₁ := by
    rw [hpool]
    refine hI.pool.linked.congr fun n hn => ?_
    rw [hlinks n (hI.pool.not_owned_of_mem hn 0)]
  refine .inr ⟨c₁, c₂', hL, hI'.linked, ?_⟩
  unfold lags
  rw [hpool]
  omega

lemma enqueueLoop_goes (hI : Inv cap s c₁ c₂) {a n : ℕ} {pc : PutPc ℕ}
    (hpc : s.pcs t = .enqueueLoop a n pc) (hfresh : PutFresh weak s.ends s.mem.cells c₂ pc)
    (h : queueEnqueue s t weak (.enqueueLoop a n pc) = some s') : Goes s s' c₁ c₂ t weak := by
  obtain ⟨c₂', hI', hmv⟩ := enqueueLoop_step hI hpc hfresh h
  have hok := hI.threads t
  rw [hpc] at hok
  obtain ⟨hout, hput, hnull⟩ := hok
  obtain ⟨E', C', r, hstep, hs'⟩ := by simpa [queueEnqueue] using h
  have hn : pc.linked = false → n ∉ c₂ ∧ (s.mem.cells.link n).ptr = none := fun hlk =>
    ⟨hI.not_mem_of_held (t := t) (by simp [At, hpc, Pc.held, hlk]), hnull hlk⟩
  have hafter : s'.ends = E' ∧ s'.mem.cells = C' ∧ s'.mem.calls = s.mem.calls ∧
      s'.mem.pool = s.mem.pool ∧
      s'.pcs t = r.elim (.returned (.ok none)) (.enqueueLoop a n) := by
    cases r with
    | none =>
      obtain rfl := hs'
      exact ⟨rfl, rfl, rfl, rfl, go_self⟩
    | some pc' =>
      obtain rfl := hs'
      exact ⟨rfl, rfl, rfl, rfl, go_self⟩
  obtain ⟨hE, hC, hcalls, hpool, hpc'⟩ := hafter
  have hout' : (s'.mem.calls t).outside = true := by
    rw [hcalls]
    exact hout
  have hw := winsOf_outside hout
  have hw' := winsOf_outside hout'
  rw [hpc] at hw
  rw [hpc'] at hw'
  have hkeep : (r = none → pc.linked = true) → (∀ pc' ∈ r, pc'.linked = pc.linked) →
      (r.elim (Pc.returned (.ok none)) (Pc.enqueueLoop a n) : Pc V).wins =
        (Pc.enqueueLoop a n pc : Pc V).wins := fun hend hlk => by
    cases r with
    | none => simp [Pc.wins, hend rfl]
    | some pc' => simp [Pc.wins, hlk pc' rfl]
  rcases put_work hI.linked hput hfresh hn hstep with
    ⟨rfl, hL', hend, hlk, ⟨rfl, hleft⟩ | hb⟩ | ⟨rfl, hL', hlk, tail, rfl⟩
  · refine own_plain hpc hpc' hout (congrFun hcalls t) hpool hE (fun _ _ => by rw [hC]; exact .refl)
      (fun _ _ => by rw [hC]; exact .refl) (hkeep hend hlk).le fun hweak => ?_
    rw [hC]
    refine lt_of_eq_of_lt ?_ (hleft hweak)
    cases r <;> rfl
  · refine own_wins hI hI' hout hmv ?_
    rw [← hE, ← hC] at hL'
    rw [linked_unique hL' hI'.linked, hE, hw, hw', hkeep hend hlk]
    omega
  · refine own_wins hI hI' hout hmv ?_
    have hb := behind_link hI.linked (hn hlk).1
    have h₂ : (Pc.enqueueLoop a n pc : Pc V).wins = 2 := by simp [Pc.wins, hlk]
    have h₀ : (Pc.enqueueLoop a n (.swing tail) : Pc V).wins = 0 := rfl
    rw [← hE, ← hC] at hL'
    rw [linked_unique hL' hI'.linked, hE, hw, hw', h₂, Option.elim_some, h₀]
    omega

lemma dequeueLoop_goes (hI : Inv cap s c₁ c₂) {d : ℕ} {val : Bool} {pc : TakePc ℕ (Item V)}
    (hpc : s.pcs t = .dequeueLoop d val pc) (hfresh : TakeFresh weak s.ends pc)
    (h : queueDequeue s t weak (.dequeueLoop d val pc) = some s') : Goes s s' c₁ c₂ t weak := by
  obtain ⟨c₂', hI', hmv⟩ := dequeueLoop_step hI hpc hfresh h
  have hok := hI.threads t
  rw [hpc] at hok
  obtain ⟨hout, htake⟩ := hok
  obtain ⟨E', r, hstep, hs'⟩ := by simpa [queueDequeue] using h
  have hw := winsOf_outside hout
  rw [hpc] at hw
  rcases take_work hI.linked htake hfresh hstep with
    ⟨hL', hno, hcase⟩ | ⟨f, q, buf, rfl, rfl, hL', hb⟩
  · have hafter : s'.ends = E' ∧ s'.mem = s.mem ∧ (s'.pcs t).wins ≤ 3 ∧
        (E' = s.ends → weak = false →
          (s'.pcs t).left s.ends s.mem.cells < (s.pcs t).left s.ends s.mem.cells) := by
      cases r with
      | took f buf => exact absurd rfl (hno f buf)
      | more pc' =>
        obtain rfl := hs'
        refine ⟨rfl, rfl, by simp [Pc.wins], fun hE hweak => ?_⟩
        rw [go_self, hpc]
        refine (hcase.resolve_right fun hb => ?_).2 hweak pc' rfl
        rw [hE] at hb
        omega
      | empty =>
        obtain rfl := hs'
        refine ⟨rfl, rfl, by simp [Pc.wins], fun _ _ => ?_⟩
        have hle := takeSteps_le_left (E := s.ends) (C := s.mem.cells) pc
        have hpos : 0 < takeSteps pc := by cases pc <;> simp [takeSteps]
        rw [go_self, hpc]
        exact hpos.trans_le hle
    obtain ⟨hE, hmem, hle, hleft⟩ := hafter
    have hsame : ∀ c : List ℕ, ∀ g ∈ c, Same s.mem.cells s'.mem.cells g := fun _ _ _ => by
      rw [hmem]
      exact .refl
    rcases hcase with ⟨hEs, -⟩ | hb
    · refine own_plain rfl rfl hout (by rw [hmem]) (by rw [hmem]) (hE.trans hEs) (hsame c₁)
        (hsame c₂) ?_ fun hweak => ?_
      · rw [hpc]
        exact hle
      · rw [hmem]
        exact hleft hEs hweak
    · have hout' : (s'.mem.calls t).outside = true := by
        rw [hmem]
        exact hout
      have hw' := winsOf_outside hout'
      refine own_wins hI hI' hout hmv ?_
      have hw₃ : (Pc.dequeueLoop d val pc).wins = 3 := rfl
      rw [← hE, ← hmem] at hL'
      rw [linked_unique hL' hI'.linked, hE, hw, hw', hw₃]
      omega
  · -- the node goes back to the pool, where it will be linked
    obtain rfl := hs'
    have hw' : QueueState.winsOf (({ s with ends := E', mem := mempoolFree s.mem t f }.note
        (.take d (E'.head.ptr.bind s.mem.cells.data))).go t (.dequeueFree d buf)) t = 2 := by
      simp [QueueState.winsOf, QueueState.note, Pc.wins, mempoolFree, Pool.Call.wins,
        Pool.PutCall.wins]
    refine own_wins hI hI' hout hmv ?_
    have hw₃ : (Pc.dequeueLoop d val pc).wins = 3 := rfl
    rw [hw, hw', hw₃]
    have hc : c₂' = q := linked_unique hL' hI'.linked
    rw [hc]
    show behind E' q + 2 < _
    omega

lemma dequeueFree_goes {d : ℕ} {buf : Option (Item V)} (hpc : s.pcs t = .dequeueFree d buf)
    (hout : (s.mem.calls t).outside = true)
    (h : queueDequeue s t weak (.dequeueFree d buf) = some s') : Goes s s' c₁ c₂ t weak := by
  obtain rfl := by simpa [queueDequeue] using h
  exact own_plain hpc go_self hout rfl rfl rfl (fun _ _ => .refl) (fun _ _ => .refl)
    (by simp [Pc.wins]) fun _ => by simp [Pc.left]

/-- A step of a thread inside a call goes on, or wins. -/
theorem threadStep_goes (hI : Inv cap s c₁ c₂)
    (hfresh : Pool.CallFresh weak s.mem.pool.ends s.mem.cells c₁ (s.mem.calls t))
    (hfresh' : PcFresh weak s.ends s.mem.cells c₂ (s.pcs t))
    (h : threadStep s t weak = some s') : Goes s s' c₁ c₂ t weak := by
  unfold threadStep at h
  cases hout : (s.mem.calls t).outside with
  | false =>
    rw [hout] at h
    obtain ⟨m, hm, rfl⟩ := by simpa using h
    exact pool_goes hI hfresh hm
  | true =>
    rw [hout, cond_true, queueStep] at h
    have hok := hI.threads t
    cases hpc : s.pcs t with
    | idle | returned => simp [hpc] at h
    | createPool | createAlloc | createEnds => rw [hpc] at hok; exact hok.elim
    | enqueueAlloc a v pc => rw [hpc] at h; exact enqueueAlloc_goes hI hpc hout h
    | enqueueLoop a n pc =>
      rw [hpc] at h hfresh'
      exact enqueueLoop_goes hI hpc hfresh' h
    | dequeueLoop d val pc =>
      rw [hpc] at h hfresh'
      exact dequeueLoop_goes hI hpc hfresh' h
    | dequeueFree d buf => rw [hpc] at h; exact dequeueFree_goes hpc hout h

/-! ### One move -/

/-- Whether this is a step inside a call. -/
def Act.steps : Act V → Bool
  | .step _ _ => true
  | _ => false

/-- Whether this is a step whose compare-exchange, if it makes one, fails spuriously. -/
def Act.fails : Act V → Bool
  | .step _ weak => weak
  | _ => false

/-- How often the calls of the first `k` threads may still win. -/
def QueueState.wins (s : QueueState V) (k : ℕ) : ℕ :=
  ∑ t ∈ Finset.range k, s.winsOf t + lags s s.mem.chain s.chain

lemma outside_done (hI : Inv cap s c₁ c₂) (hout : (s.pcs t).outside = true) :
    (s.mem.calls t).outside = true ∧ s.winsOf t = 0 ∧ s.left t = 0 := by
  have hok := hI.threads t
  cases hpc : s.pcs t with
  | idle | returned =>
    rw [hpc] at hok
    have hok : (s.mem.calls t).outside = true := hok
    rw [winsOf_outside hok, left_of_outside hok, hpc]
    exact ⟨hok, rfl, rfl⟩
  | _ => simp [hpc, Pc.outside] at hout

lemma call_works (hI : Inv cap s c₁ c₂) (hin : a.within k = true)
    (ha : ∀ t weak, a ≠ .step t weak) (hs : next s a = some s') :
    Works (Finset.range k) 23 3 (s.wins k) (s'.wins k) s.left s'.left 0 1 := by
  obtain ⟨hends, hcells, hpool, -⟩ := call_frame ha hs
  have hlags : lags s' s'.mem.chain s'.chain = lags s s.mem.chain s.chain := by
    unfold lags QueueState.chain PoolState.chain
    rw [hends, hcells, hpool]
  have hcall : ∃ t < k, (s.pcs t).outside = true ∧ s'.winsOf t ≤ 3 ∧ ∀ q, q ≠ t →
      s'.pcs q = s.pcs q ∧ s'.mem.calls q = s.mem.calls q := by
    cases a with
    | step t weak => exact absurd rfl (ha t weak)
    | enqueue t val =>
      have ht : t < k := by simpa [Act.within] using hin
      simp only [next] at hs
      cases hout : (s.pcs t).outside with
      | false => simp [hout] at hs
      | true =>
        obtain ⟨hout', -, -⟩ := outside_done hI hout
        cases val with
        | none =>
          obtain rfl := by simpa [hout] using hs
          refine ⟨t, ht, hout, ?_, fun q hq => ⟨go_ne hq, rfl⟩⟩
          unfold QueueState.winsOf
          rw [go_self]
          show 0 + (s.mem.calls t).wins ≤ 3
          rw [wins_outside hout']
          decide
        | some v =>
          obtain rfl := by simpa [hout] using hs
          refine ⟨t, ht, hout, ?_, fun q hq => ⟨go_ne hq, Pool.setCall_ne hq⟩⟩
          simp [QueueState.winsOf, QueueState.note, mempoolAlloc, Pc.wins, Pool.Call.wins]
    | dequeue t val =>
      have ht : t < k := by simpa [Act.within] using hin
      simp only [next] at hs
      cases hout : (s.pcs t).outside with
      | false => simp [hout] at hs
      | true =>
        obtain ⟨hout', -, -⟩ := outside_done hI hout
        obtain rfl := by simpa [hout] using hs
        refine ⟨t, ht, hout, ?_, fun q hq => ⟨go_ne hq, rfl⟩⟩
        unfold QueueState.winsOf
        rw [go_self]
        show 3 + (s.mem.calls t).wins ≤ 3
        rw [wins_outside hout']
  obtain ⟨t, ht, hout, hle, hothers⟩ := hcall
  refine .call t ?_ (left_le t) fun q hq => ?_
  · have hsum := sum_one s.winsOf s'.winsOf (Finset.mem_range.mpr ht) fun q hq => by
      unfold QueueState.winsOf
      rw [(hothers q hq).1, (hothers q hq).2]
    rw [(outside_done hI hout).2.1] at hsum
    unfold QueueState.wins
    rw [hlags]
    omega
  · unfold QueueState.left
    rw [(hothers q hq).1, (hothers q hq).2, hends, hcells, hpool]

lemma step_works (hI : Inv cap s c₁ c₂) (hfresh : Fresh s (.step t weak)) (ht : t < k)
    (hs : threadStep s t weak = some s') :
    Works (Finset.range k) 23 3 (s.wins k) (s'.wins k) s.left s'.left 1 weak.toNat := by
  obtain ⟨hf₁, hf₂⟩ := hfresh
  have hc₁ := hI.pool.chain_eq hI.capacity
  have hc₂ := chain_eq hI
  rw [hc₁] at hf₁
  rw [hc₂] at hf₂
  obtain ⟨d₁, d₂, hI', hmv, -⟩ := threadStep_inv hI hf₁ hf₂ hs
  have hd₁ := hI'.pool.chain_eq hI'.capacity
  have hd₂ := chain_eq hI'
  have ht := Finset.mem_range.mpr ht
  have hsum := sum_one s.winsOf s'.winsOf ht fun q hq => by
    unfold QueueState.winsOf
    rw [hmv.others q hq, hmv.calls q hq]
  rcases threadStep_goes hI hf₁ hf₂ hs with hplain | ⟨c₁', c₂', hL₁, hL₂, hb⟩
  · have hL₁ := hI.pool.linked.of_same hplain.poolSame
    have hL₂ := hI.linked.of_same hplain.same
    rw [← hplain.poolEnds] at hL₁
    rw [← hplain.ends] at hL₂
    have hwins : s'.wins k ≤ s.wins k := by
      have hw := hplain.wins
      unfold QueueState.wins lags
      rw [hd₁, hd₂, linked_unique hL₁ hI'.pool.linked, linked_unique hL₂ hI'.linked,
        hplain.poolEnds, hplain.ends, hc₁, hc₂]
      omega
    have hothers : ∀ q, q ≠ t → s'.left q ≤ s.left q := fun q hq => by
      unfold QueueState.left
      rw [hmv.others q hq, hmv.calls q hq, hplain.poolEnds, hplain.ends]
      exact Nat.add_le_add ((s.pcs q).left_congr hI.linked hplain.same).le
        ((s.mem.calls q).left_congr hI.pool.linked hplain.poolSame).le
    cases weak with
    | false => exact .on t ht hwins (hplain.left rfl) hothers
    | true => exact .fail t hwins (left_le t) hothers
  · refine .win ?_ fun q => left_le q
    unfold QueueState.wins
    rw [hd₁, hd₂, linked_unique hL₁ hI'.pool.linked, linked_unique hL₂ hI'.linked, hc₁, hc₂]
    omega

/-! ### Runs -/

lemma called_within {op : Op V} (hin : a.within k = true)
    (hcall : Linearize.Event.call t op ∈ events s a) : t ∈ Finset.range k := by
  cases a with
  | enqueue u val =>
    obtain rfl : t = u := by cases val <;> simp_all [events]
    simpa [Act.within] using hin
  | dequeue u val =>
    obtain rfl : t = u := by simp_all [events]
    simpa [Act.within] using hin
  | step u weak =>
    simp only [events] at hcall
    cases hs : threadStep s u weak with
    | none => simp [hs] at hcall
    | some s' =>
      rw [hs, Option.elim_some] at hcall
      cases hc : s'.pcs u <;> simp [hc, Pc.shown] at hcall

lemma events_call (ha : ∀ t weak, a ≠ .step t weak) :
    (events s a).countP Event.isCall = 1 := by
  cases a with
  | step t weak => exact absurd rfl (ha t weak)
  | enqueue t val => cases val <;> rfl
  | dequeue => rfl

lemma events_step : (events s (.step t weak)).countP Event.isCall = 0 := by
  simp only [events]
  cases threadStep s t weak with
  | none => rfl
  | some s' =>
    rw [Option.elim_some]
    cases s'.pcs t <;> rfl

lemma toil_created (hmax : cap + 2 ≤ sizeMax) (h : Created cap s) :
    toil (Finset.range k) 23 (s.wins k) s.left ≤ 23 * k + 1 := by
  obtain ⟨⟨c₁, n, hI, hready, -⟩, -, -, hout⟩ := created_inv hmax h
  have hwins : s.wins k ≤ 1 := by
    have hb := behind_near hI.pool.linked hready.near
    have hn : behind s.ends [n] = 0 := by
      obtain ⟨m, hm, htail⟩ := hI.linked.tail
      obtain rfl := by simpa using hm
      exact behind_split (p := []) htail (by simp)
    unfold QueueState.wins lags
    rw [hI.pool.chain_eq hI.capacity, chain_eq hI, hn,
      Finset.sum_eq_zero fun t _ => (outside_done hI (hout t)).2.1]
    omega
  have hleft : ∑ t ∈ Finset.range k, s.left t = 0 :=
    Finset.sum_eq_zero fun t _ => (outside_done hI (hout t)).2.2
  have hmul := Nat.mul_le_mul_left (k * 23 + 1) hwins
  unfold toil
  rw [hleft, Finset.card_range]
  omega

/-- **Lock-freedom**: in every run of `k` threads in which no step is deceived by a word that was
replaced and looks the same again, the threads make at most `69 k + 27` steps in the queue and its
pool for each call that returns, for each step that fails spuriously, for each thread, and once
more, however they get in each other's way. -/
theorem queue_lock_free {memory : Bool} {valBytes : ℕ} {made : QueueState V}
    (hfit : SizesFit valBytes cap) (hmake : queueCreate memory valBytes cap = .ok made)
    (hrun : Reach next (fun _ a => a.isStep 0 = true) made s₀)
    (hret : s₀.pcs 0 = .returned (.ok none))
    (h : Trace next (fun s a => Fresh s a ∧ a.within k = true) s₀ ls s) :
    ls.countP (fun x => x.2.steps) ≤ (69 * k + 27) * ((serving.history ls).countP Event.isRet +
      ls.countP (fun x => x.2.fails) + k + 1) := by
  obtain ⟨rfl, -⟩ := queueCreate_ok hfit hmake
  have h₀ : Created cap s₀ := ⟨hrun, hret⟩
  have hsteps : ls.countP (fun x => x.2.steps) ≤ charge (Finset.range k) 23 3 *
      ((serving.history ls).countP Event.isRet + ls.countP (fun x => x.2.fails) +
        (Finset.range k).card) + toil (Finset.range k) 23 (s₀.wins k) s₀.left := by
    refine steps_le_returns (M := serving) (Answers cap k) _ _ (fun s => s.wins k)
      QueueState.left (fun ls s a s' htrace hok hs => ?_)
      (fun s a hok t op hcall => called_within hok.2 hcall)
      (fun ls s a s' htrace hok hs => ?_) h
    · obtain ⟨⟨c₁, c₂, L, hI, hH⟩, -, hoff⟩ := offers_of_trace hfit.2 h₀ htrace
      by_cases ha : ∃ u weak, a = .step u weak
      · obtain ⟨u, weak, rfl⟩ := ha
        exact step_turns hI hH hok.1 hoff hs
      · exact call_turns (fun u weak heq => ha ⟨u, weak, heq⟩) hs
    · obtain ⟨⟨c₁, c₂, L, hI, -⟩, -⟩ := offers_of_trace hfit.2 h₀ htrace
      by_cases ha : ∃ u weak, a = .step u weak
      · obtain ⟨u, weak, rfl⟩ := ha
        have hcalls : (serving.events s (.step u weak)).countP Event.isCall = 0 := events_step
        rw [hcalls, Nat.zero_add]
        exact step_works hI hok.1 (by simpa [Act.within] using hok.2) hs
      · have hne : ∀ u weak, a ≠ .step u weak := fun u weak heq => ha ⟨u, weak, heq⟩
        have hcalls : (serving.events s a).countP Event.isCall = 1 := events_call hne
        have hzero : a.steps.toNat = 0 ∧ a.fails.toNat = 0 := by
          cases a with
          | step t weak => exact absurd rfl (hne t weak)
          | _ => exact ⟨rfl, rfl⟩
        rw [hcalls, hzero.1, hzero.2]
        exact call_works hI hok.2 hne hs
  have htoil := toil_created hfit.2 h₀ (k := k)
  unfold charge at hsteps
  rw [Finset.card_range] at hsteps
  have hcharge : (k * 23 + 1) * 3 + 23 + 1 = 69 * k + 27 := by omega
  rw [hcharge] at hsteps
  rw [Nat.mul_succ]
  omega

/-- Two threads enqueue at the same time, and the one that comes too late begins again. -/
theorem queue_lock_free_two : ∃ s₀ ls, ∃ s : QueueState ℕ, Created 2 s₀ ∧
    Trace next (fun s a => Fresh s a ∧ a.within 2 = true) s₀ ls s ∧
    serving.history ls = [.call 0 (.enqueue (some 7)), .call 1 (.enqueue (some 8)),
      .ret 1 (.ok none), .ret 0 (.ok none)] ∧
    ls.countP (fun x => x.2.steps) = 32 ∧
    ls.countP (fun x => x.2.steps) ≤ (69 * 2 + 27) * ((serving.history ls).countP Event.isRet +
      ls.countP (fun x => x.2.fails) + 2 + 1) := by
  obtain ⟨s₀, hrun, hp⟩ := exists_reach next (fun _ a => a.isStep 0 = true)
    (raw 2 : QueueState ℕ)
    (fun s₀ => decide (s₀.pcs 0 = .returned (.ok none)) &&
      (movesIf next (fun s a => Fresh s a ∧ a.within 2 = true) [] s₀
        (List.flatten [.enqueue 0 (some 7) :: steps 0 12, .enqueue 1 (some 8) :: steps 1 14,
          steps 0 6])).any
      fun x : List (QueueState ℕ × Act ℕ) × QueueState ℕ =>
        decide (serving.history x.1 = [.call 0 (.enqueue (some 7)),
          .call 1 (.enqueue (some 8)), .ret 1 (.ok none), .ret 0 (.ok none)] ∧
            x.1.countP (fun x => x.2.steps) = 32))
    (steps 0 36) (by decide +kernel)
  simp only [Bool.and_eq_true, decide_eq_true_eq] at hp
  obtain ⟨ls, s, htrace, hhist⟩ := exists_moves next (fun s a => Fresh s a ∧ a.within 2 = true) s₀
    (fun ls _ => decide (serving.history ls = [.call 0 (.enqueue (some 7)),
      .call 1 (.enqueue (some 8)), .ret 1 (.ok none), .ret 0 (.ok none)] ∧
        ls.countP (fun x => x.2.steps) = 32)) _ hp.2
  obtain ⟨hhist, hcount⟩ := by simpa using hhist
  have hmake : queueCreate true 1 2 = .ok (raw 2 : QueueState ℕ) :=
    queueCreate_made (by decide) (by decide) ⟨by decide, by decide⟩ (by decide)
  exact ⟨s₀, ls, s, ⟨hrun, hp.1⟩, htrace, hhist, hcount,
    queue_lock_free ⟨by decide, by decide⟩ hmake hrun hp.1 htrace⟩

end CoopTasks.Queue
