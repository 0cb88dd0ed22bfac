import CoopTasks.QueueAlone

/-!
A queue whose calls run one at a time is a FIFO of bounded size.

Spurious failures of the weak compare-exchanges only delay a call, as a pattern of them is
finite.
-/

namespace CoopTasks.Queue

open CoopTasks.Chain CoopTasks.Append CoopTasks.Advance CoopTasks.Placement CoopTasks.Alone
open CoopTasks.Machine (runAlone runAlone_returns)
open CoopTasks.Pool (PoolState Errno)

variable {V : Type*} {s s' : QueueState V} {cap t : ℕ} {c₁ c₂ c₁' c₂' : List ℕ} {weak : Bool}

/-! ### The FIFO -/

/-- A call of `queue_enqueue`, with `none` for a null pointer, or of `queue_dequeue`, which
delivers the value or not. -/
inductive Op (V : Type*)
  | enqueue (val : Option V)
  | dequeue (val : Bool)

/-- A FIFO of at most `cap` values: the answer and what is queued afterwards. -/
def fifo (cap : ℕ) (q : List V) : Op V → Except Errno (Option V) × List V
  | .enqueue none => (.error .einval, q)
  | .enqueue (some v) => if q.length < cap then (.ok none, q ++ [v]) else (.error .enomem, q)
  | .dequeue val =>
    match q with
    | [] => (.error .enoent, q)
    | v :: q' => (.ok (if val then some v else none), q')

/-- The answers to a sequence of calls, and what is queued at the end. -/
def fifoRun (cap : ℕ) : List V → List (Op V) → List (Except Errno (Option V)) × List V
  | q, [] => ([], q)
  | q, op :: ops =>
    let (r, q') := fifo cap q op
    let (rs, q'') := fifoRun cap q' ops
    (r :: rs, q'')

/-- A call returned what the FIFO answers. -/
def Res.Is : Res V → Except Errno (Option V) → Prop
  | .ok none, .ok none => True
  | .ok (some item), .ok (some v) => item.map Prod.snd = some v
  | .fail e, .error e' => e = e'
  | _, _ => False

/-- The values that the nodes after the first hold. -/
def Holds (C : Cells ℕ (Item V)) (c : List ℕ) (q : List V) : Prop :=
  (c.tail.map C.data).map (Option.map Prod.snd) = q.map some

/-! ### Calls run one at a time -/

def Op.act (t : ℕ) : Op V → Act V
  | .enqueue val => .enqueue t val
  | .dequeue val => .dequeue t val

/-- A call, the thread that makes it, and which of its steps fail spuriously if they can. -/
structure Call (V : Type*) where
  thread : ℕ
  op : Op V
  weak : List Bool

/-- What a call has returned. -/
def Pc.result : Pc V → Option (Res V)
  | .returned r => some r
  | _ => none

/-- Run the thread `t` until its call returns, for at most `fuel` steps. -/
def runCall (t fuel : ℕ) (weak : List Bool) (s : QueueState V) :
    Option (QueueState V × Res V) :=
  runAlone (fun s weak => threadStep s t weak) (fun s => (s.pcs t).result) fuel weak s

/-- Run calls one after the other. -/
def runCalls (fuel : ℕ) : QueueState V → List (Call V) → Option (QueueState V × List (Res V))
  | s, [] => some (s, [])
  | s, k :: ks =>
    (next s (k.op.act k.thread)).bind fun s₁ =>
      (runCall k.thread fuel k.weak s₁).bind fun (s₂, r) =>
        (runCalls fuel s₂ ks).map fun (s₃, rs) => (s₃, r :: rs)

/-! ### The answer -/

/-- How far the thread has come with the call `op` on a queue that held `q`. -/
def Serves (cap : ℕ) (op : Op V) (q : List V) (C : Cells ℕ (Item V)) (c : List ℕ) : Pc V → Prop
  | .enqueueAlloc _ v _ => op = .enqueue (some v) ∧ Holds C c q
  | .enqueueLoop a n pc => ∃ v, op = .enqueue (some v) ∧ q.length < cap ∧
    (pc.linked = true → Holds C c (q ++ [v])) ∧
    (pc.linked = false → Holds C c q ∧ C.data n = some (a, v))
  | .dequeueLoop _ val _ => op = .dequeue val ∧ Holds C c q
  | .dequeueFree _ buf => ∃ val v q', op = .dequeue val ∧ q = v :: q' ∧ Holds C c q' ∧
    Res.Is (.ok buf) (.ok (if val then some v else none))
  | .returned r => r.Is (fifo cap q op).1 ∧ Holds C c (fifo cap q op).2
  | _ => False

variable {op : Op V} {q : List V} {C C' : Cells ℕ (Item V)} {c : List ℕ}

lemma Holds.congr (h : Holds C c q) (hd : ∀ n ∈ c, C'.data n = C.data n) : Holds C' c q := by
  unfold Holds at h ⊢
  rwa [List.map_congr_left fun n hn => hd n (List.mem_of_mem_tail hn)]

lemma Holds.length (h : Holds C c q) : c.length - 1 = q.length := by
  simpa using congrArg List.length h

lemma Linked.length_pos {E : Ends ℕ} (h : Linked E C c) : 0 < c.length :=
  List.length_pos_iff.mpr h.ne_nil

lemma serves_step (hR : Running cap t s c₁ c₂) (hst : Stepped cap t weak s s' c₁ c₂ c₁' c₂')
    (h : Serves cap op q s.mem.cells c₂ (s.pcs t)) :
    Serves cap op q s'.mem.cells c₂' (s'.pcs t) := by
  have hI := hR.inv
  have hmv := hst.moved
  have hdata : ∀ n ∈ c₂, s'.mem.cells.data n = s.mem.cells.data n := fun n hn =>
    hmv.data n (hI.owned_of_mem hn) fun hn' => hI.not_mem_of_held hn' hn
  obtain ⟨es, hm, -⟩ := hmv.moves
  generalize hp : s.pcs t = p at hm h
  generalize hp' : s'.pcs t = p' at hm ⊢
  cases hm with
  | alloc => exact ⟨h.1, h.2.congr hdata⟩
  | @nomem a v hcall =>
    obtain ⟨rfl, hq⟩ := h
    -- all the nodes but one fragment are queued
    have hlen := hR.nomem a v hp hcall
    have hadd := hI.length_add hR.others (by rw [hcall]; rfl)
    have hq' := hq.length
    rw [hp, hcall] at hadd
    simp only [Pc.held, AllocPc.held, Option.toList_none, List.length_nil] at hadd
    have hfull : ¬ q.length < cap := by omega
    simp only [Serves, fifo, if_neg hfull]
    exact ⟨rfl, hq.congr hdata⟩
  | @write a v pc n hdat =>
    obtain ⟨rfl, hq⟩ := h
    have hI' := hst.running.inv
    have hok := hI'.threads t
    rw [hp'] at hok
    have hadd := hI'.length_add hst.running.others (call_held hok.1)
    have hpos := Linked.length_pos hI'.pool.linked
    have hpos' := Linked.length_pos hI'.linked
    have hq' := hq.length
    rw [hp'] at hadd
    simp only [Pc.held, PutPc.linked, cond_false, Option.toList_some, List.length_singleton] at hadd
    exact ⟨v, rfl, by omega, by simp [PutPc.linked], fun _ => ⟨hq.congr hdata, hdat⟩⟩
  | loop hdat hlk =>
    obtain ⟨v, rfl, hlt, h1, h2⟩ := h
    exact ⟨v, rfl, hlt, fun hl => (h1 (hlk ▸ hl)).congr hdata, fun hl =>
      ⟨(h2 (hlk ▸ hl)).1.congr hdata, by rw [hdat]; exact (h2 (hlk ▸ hl)).2⟩⟩
  | @link a n pc pc' hdat hlk hlk' =>
    obtain ⟨v, rfl, hlt, -, h2⟩ := h
    obtain ⟨hq, hn⟩ := h2 hlk
    refine ⟨v, rfl, hlt, fun _ => ?_, by simp [hlk']⟩
    unfold Holds at hq ⊢
    rw [List.tail_append_of_ne_nil hI.linked.ne_nil, hdat]
    simpa [hn] using hq
  | done hlk =>
    obtain ⟨v, rfl, hlt, h1, -⟩ := h
    simp only [Serves, fifo, if_pos hlt]
    exact ⟨trivial, (h1 hlk).congr hdata⟩
  | look => exact ⟨h.1, h.2.congr hdata⟩
  | @empty d val pc =>
    obtain ⟨rfl, hq⟩ := h
    have hlen := hst.empty d val pc _ hp hp'
    have hq' := hq.length
    obtain rfl : q = [] := List.length_eq_zero_iff.mp (by omega)
    exact ⟨rfl, hq.congr hdata⟩
  | @take d val pc n m r hc =>
    obtain ⟨rfl, hq⟩ := h
    unfold Holds at hq
    rw [hc] at hq hdata
    cases q with
    | nil => simp at hq
    | cons v q' =>
      simp only [List.tail_cons, List.map_cons, List.cons.injEq] at hq
      refine ⟨val, v, q', rfl, rfl, ?_, ?_⟩
      · exact Holds.congr (C := s.mem.cells) hq.2 fun k hk => hdata k (List.mem_cons_of_mem _ hk)
      · cases val
        · trivial
        · exact hq.1
  | free =>
    obtain ⟨val, v, q', h1, h2, h3, h4⟩ := h
    exact ⟨val, v, q', h1, h2, h3.congr hdata, h4⟩
  | ret =>
    obtain ⟨val, v, q', rfl, rfl, h3, h4⟩ := h
    exact ⟨h4, h3.congr hdata⟩

lemma Pc.result_eq_none {pc : Pc V} (h : pc.result = none) (hidle : pc ≠ .idle) :
    pc.outside = false := by
  cases pc with
  | idle => exact absurd rfl hidle
  | returned r => simp [result] at h
  | _ => rfl

lemma Pc.result_eq_some {pc : Pc V} {r : Res V} (h : pc.result = some r) : pc = .returned r := by
  cases pc with
  | returned r' => rw [Option.some.inj h]
  | _ => simp [result] at h

/-- **Termination**: a call that runs alone returns, whatever finite pattern of spurious
failures it meets. -/
theorem runCall_returns (w : List Bool) (hR : Running cap t s c₁ c₂)
    (hserves : Serves cap op q s.mem.cells c₂ (s.pcs t)) :
    ∃ N s' r c₁' c₂', (∀ fuel ≥ N, runCall t fuel w s = some (s', r)) ∧
      Running cap t s' c₁' c₂' ∧ s'.pcs t = .returned r ∧
      Serves cap op q s'.mem.cells c₂' (.returned r) := by
  have hstep : ∀ s weak,
      (∃ c₁ c₂, Running cap t s c₁ c₂ ∧ Serves cap op q s.mem.cells c₂ (s.pcs t)) →
      (s.pcs t).result = none → ∃ s', threadStep s t weak = some s' ∧
        (∃ c₁ c₂, Running cap t s' c₁ c₂ ∧ Serves cap op q s'.mem.cells c₂ (s'.pcs t)) ∧
        (weak = false → rank s' t < rank s t) := by
    rintro s weak ⟨c₁, c₂, hR, hserves⟩ hnone
    have hout := Pc.result_eq_none hnone fun hidle => by
      rw [hidle] at hserves
      exact hserves
    obtain ⟨s', d₁, d₂, hst⟩ := threadStep_alone weak hR hout
    exact ⟨s', hst.step, ⟨d₁, d₂, hst.running, serves_step hR hst hserves⟩, fun hw => hst.rank hw⟩
  obtain ⟨N, s', r, hrun, ⟨d₁, d₂, hR', hserves'⟩, hret⟩ :=
    runAlone_returns (rank · t) hstep w ⟨c₁, c₂, hR, hserves⟩
  have hpc := Pc.result_eq_some hret
  rw [hpc] at hserves'
  exact ⟨N, s', r, d₁, d₂, hrun, hR', hpc, hserves'⟩

/-! ### Sequences of calls -/

/-- No thread is inside a call, and the queue holds `q`. -/
structure Quiet (cap : ℕ) (s : QueueState V) (c₁ c₂ : List ℕ) (q : List V) : Prop where
  inv : Inv cap s c₁ c₂
  outside : ∀ t, (s.pcs t).outside = true
  poolNear : TailNear s.mem.pool.ends s.mem.cells
  near : TailNear s.ends s.mem.cells
  holds : Holds s.mem.cells c₂ q

lemma call_begin (h : Quiet cap s c₁ c₂ q) (t : ℕ) (op : Op V) :
    ∃ s', next s (op.act t) = some s' ∧ Running cap t s' c₁ c₂ ∧
      Serves cap op q s'.mem.cells c₂ (s'.pcs t) := by
  have hI := h.inv
  have hout := h.outside t
  have hcall := h.inv.call_outside hout
  have hothers : ∀ (u : QueueState V) (pc : Pc V), u.pcs = s.pcs →
      ∀ v, v ≠ t → ((u.go t pc).pcs v).outside = true := fun u pc hu v hv => by
    rw [go_ne hv, hu]; exact h.outside v
  cases op with
  | enqueue val =>
    cases val with
    | none =>
      have hs : next s (.enqueue t none) = some (({ s with count := s.count + 1 }.note
          (.failed s.count .einval)).go t (.returned (.fail .einval))) := by simp [next, hout]
      refine ⟨_, hs, ⟨((hI.setCount _).note _).goOutside hout rfl id, hothers _ _ rfl, h.poolNear,
        h.near, (outside_alone hcall).1, by rw [go_self]; trivial, by simp⟩, ?_⟩
      rw [go_self]
      exact ⟨rfl, h.holds⟩
    | some v =>
      have hs : next s (.enqueue t (some v)) = some
          (({ s with mem := mempoolAlloc s.mem t, count := s.count + 1 }.note
            (.enqueue s.count v)).go t (.enqueueAlloc s.count v .alloc)) := by simp [next, hout]
      have hmem : (mempoolAlloc s.mem t).calls t = .alloc 0 (.loop .loadHead) := Pool.setCall_self
      refine ⟨_, hs, ⟨((hI.mempoolAlloc hout).setCount (s.count + 1)).note (.enqueue s.count v),
        hothers _ _ rfl, h.poolNear, h.near, ?_, by rw [go_self]; trivial, ?_⟩, ?_⟩
      · show ((mempoolAlloc s.mem t).calls t).Alone _ _
        rw [hmem]; trivial
      · intro a w _ hret
        have hret' : (mempoolAlloc s.mem t).calls t = .returned none := hret
        simp [hmem] at hret'
      · rw [go_self]
        exact ⟨rfl, h.holds⟩
  | dequeue val =>
    have hs : next s (.dequeue t val) = some (({ s with count := s.count + 1 }.note
        (.dequeue s.count val)).go t (.dequeueLoop s.count val .loadHead)) := by simp [next, hout]
    refine ⟨_, hs, ⟨((hI.setCount _).note _).goOutside hout rfl fun hc => ⟨hc, trivial⟩,
      hothers _ _ rfl, h.poolNear, h.near, (outside_alone hcall).1, by rw [go_self]; trivial,
      by simp⟩, ?_⟩
    rw [go_self]
    exact ⟨rfl, h.holds⟩

theorem runCalls_fifo (ks : List (Call V)) (h : Quiet cap s c₁ c₂ q) :
    ∃ N s' rs c₁' c₂', (∀ fuel ≥ N, runCalls fuel s ks = some (s', rs)) ∧
      List.Forall₂ Res.Is rs (fifoRun cap q (ks.map Call.op)).1 ∧
      Quiet cap s' c₁' c₂' (fifoRun cap q (ks.map Call.op)).2 := by
  induction ks generalizing s c₁ c₂ q with
  | nil => exact ⟨0, s, [], c₁, c₂, fun _ _ => rfl, .nil, h⟩
  | cons k ks ih =>
    obtain ⟨s₁, hs₁, hR, hserves⟩ := call_begin h k.thread k.op
    obtain ⟨N, s₂, r, d₁, d₂, hrun, hR₂, hret, hanswer⟩ := runCall_returns k.weak hR hserves
    have hquiet : Quiet cap s₂ d₁ d₂ (fifo cap q k.op).2 := by
      refine ⟨hR₂.inv, fun t => ?_, hR₂.poolNear, hR₂.near, hanswer.2⟩
      by_cases ht : t = k.thread
      · subst ht; rw [hret]; rfl
      · exact hR₂.others t ht
    obtain ⟨N', s₃, rs, e₁, e₂, hruns, hanswers, hquiet'⟩ := ih hquiet
    refine ⟨max N N', s₃, r :: rs, e₁, e₂, fun fuel hfuel => ?_, .cons hanswer.1 hanswers, hquiet'⟩
    simp only [runCalls, hs₁, hrun fuel (le_of_max_le_left hfuel),
      hruns fuel (le_of_max_le_right hfuel), Option.bind_some, Option.map_some]

/-- What is seen of a queue between calls: the values it holds, and a tail that points to the
last node of the chain from the head or to the one before. -/
structure Between (s : QueueState V) (q : List V) : Prop where
  queued : s.queued.map (Option.map Prod.snd) = q.map some
  tail : ∃ p t l, s.chain = p ++ t :: l ∧ s.ends.tail.ptr = some t ∧ l.length ≤ 1

lemma Quiet.between (h : Quiet cap s c₁ c₂ q) : Between s q := by
  have hchain := chain_eq h.inv
  refine ⟨by rw [QueueState.queued, hchain]; exact h.holds, ?_⟩
  rw [hchain]
  obtain ⟨p, t, ht, hc | ⟨l, hc⟩⟩ := h.near.split h.inv.linked
  · exact ⟨p, t, [], hc, ht, by simp⟩
  · exact ⟨p, t, [l], hc, ht, by simp⟩

/-- The values of a queue made for `valBytes` bytes. -/
abbrev Bytes (valBytes : ℕ) := Vector UInt8 valBytes

/-- **Refinement**: calls run one at a time on a queue that `queue_create` made return, answer
as a FIFO of at most `cap` values does, and leave the queue as the FIFO is left. -/
theorem queue_refines_fifo {memory : Bool} {valBytes : ℕ} {made s₀ : QueueState (Bytes valBytes)}
    (hfit : SizesFit valBytes cap) (hmake : queueCreate memory valBytes cap = .ok made)
    (hrun : Machine.Reach next (fun _ a => a.isStep 0 = true) made s₀)
    (hret : s₀.pcs 0 = .returned (.ok none)) (ks : List (Call (Bytes valBytes))) :
    ∃ N s rs, (∀ fuel ≥ N, runCalls fuel s₀ ks = some (s, rs)) ∧
      List.Forall₂ Res.Is rs (fifoRun cap [] (ks.map Call.op)).1 ∧
      Between s (fifoRun cap [] (ks.map Call.op)).2 := by
  obtain ⟨rfl, -⟩ := queueCreate_ok hfit hmake
  obtain ⟨⟨c₁, n, hI, hready, hnear⟩, -, -, hout⟩ := created_inv hfit.2 ⟨hrun, hret⟩
  have hquiet : Quiet cap s₀ c₁ [n] [] := ⟨hI, hout, hready.near, hnear, rfl⟩
  obtain ⟨N, s, rs, d₁, d₂, h1, h2, h3⟩ := runCalls_fifo ks hquiet
  exact ⟨N, s, rs, h1, h2, h3.between⟩

/-- A queue of two takes two values and no third, then gives the first; in the first and the last
call, what can fail spuriously in the first nine steps does. -/
theorem queue_refines_fifo_two : ∃ s₀ : QueueState (Bytes 1), ∃ N s rs,
    (∀ fuel ≥ N, runCalls fuel s₀ [⟨1, .enqueue (some #v[7]), List.replicate 9 true⟩,
      ⟨2, .enqueue (some #v[8]), []⟩, ⟨1, .enqueue (some #v[9]), []⟩,
      ⟨3, .dequeue true, List.replicate 9 true⟩] = some (s, rs)) ∧
    List.Forall₂ Res.Is rs [.ok none, .ok none, .error .enomem, .ok (some #v[7])] ∧
    Between s [#v[8]] := by
  have hmake : queueCreate true 1 2 = .ok (raw 2 : QueueState (Bytes 1)) :=
    queueCreate_made (by decide) (by decide) ⟨by decide, by decide⟩ (by decide)
  obtain ⟨s₀, hrun, hret⟩ := Machine.exists_reach next (fun _ a => a.isStep 0 = true)
    (raw 2 : QueueState (Bytes 1)) (fun s => decide (s.pcs 0 = .returned (.ok none)))
    (steps 0 36) (by decide +kernel)
  exact ⟨s₀, queue_refines_fifo ⟨by decide, by decide⟩ hmake hrun (by simpa using hret) _⟩

end CoopTasks.Queue
