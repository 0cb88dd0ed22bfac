import CoopTasks.PoolLinear
import CoopTasks.QueueFifo
import CoopTasks.QueueLossless

/-!
A queue whose calls overlap cannot be told from a bounded FIFO that answers each call at one
moment, but for enqueues that find no node.

A value enters the FIFO when its node is linked and leaves it when the head moves to its node.
A `queue_dequeue` that fails answers for the moment at which it read the null link of the dummy,
and a `queue_enqueue` that fails for the moment at which its `mempool_alloc` read the null link of
the last fragment. Then the nodes of the values and those in the hands of the other threads, one
for each at most, are all that there are.
-/

namespace CoopTasks.Queue

open CoopTasks.Chain CoopTasks.Append CoopTasks.Advance CoopTasks.Machine CoopTasks.Linearize
open CoopTasks.SizeT
open CoopTasks.Pool (PoolState Errno)

variable {V : Type*} {s s' s₀ : QueueState V} {cap k t : ℕ} {c c' c₁ c₂ : List ℕ} {a : Act V}
  {weak : Bool} {ls : List (QueueState V × Act V)} {L : List (ℕ × V)}

deriving instance DecidableEq for Op

/-- The answers of a FIFO of at most `cap` values that may find no room for a value when fewer
than `k` more would fit. -/
inductive Answers (cap k : ℕ) : List V → Op V → Except Errno (Option V) → List V → Prop
  | null {q : List V} : Answers cap k q (.enqueue none) (.error .einval) q
  | put {q : List V} {v : V} (h : q.length < cap) :
    Answers cap k q (.enqueue (some v)) (.ok none) (q ++ [v])
  | full {q : List V} {v : V} (h : cap < q.length + k) :
    Answers cap k q (.enqueue (some v)) (.error .enomem) q
  | take {q : List V} {v : V} {val : Bool} :
    Answers cap k (v :: q) (.dequeue val) (.ok (if val then some v else none)) q
  | empty {val : Bool} : Answers cap k [] (.dequeue val) (.error .enoent) []

/-- Whether one of the first `k` threads moves. -/
def Act.within (k : ℕ) : Act V → Bool
  | .enqueue t _ | .dequeue t _ | .step t _ => decide (t < k)

/-- The value of an item, without the number of the call that brought it. -/
def valueOf (item : Item V) : Option V := item.map Prod.snd

/-- The values that are queued. -/
def QueueState.values (s : QueueState V) : List V := s.queued.filterMap valueOf

def Res.answer : Res V → Except Errno (Option V)
  | .ok buf => .ok (buf.bind valueOf)
  | .fail e => .error e

/-- How far a thread's call has come; the value of an enqueue in its loop lies in its node. -/
def Pc.phase (data : ℕ → Item V) : Pc V → Phase (Op V) (Except Errno (Option V))
  | .enqueueAlloc _ v _ => .called (.enqueue (some v))
  | .enqueueLoop _ n pc =>
    if pc.linked then .answered (.ok none) else .called (.enqueue (valueOf (data n)))
  | .dequeueLoop _ val _ => .called (.dequeue val)
  | .dequeueFree _ buf => .answered (.ok (buf.bind valueOf))
  | .idle | .returned _ | .createPool | .createAlloc _ | .createEnds _ => .idle

/-- What a thread shows that has come to this point. -/
def Pc.shown (t : ℕ) : Pc V → List (Linearize.Event ℕ (Op V) (Except Errno (Option V)))
  | .returned r => [.ret t r.answer]
  | _ => []

/-- The calls and returns that a move shows. -/
def events (s : QueueState V) :
    Act V → List (Linearize.Event ℕ (Op V) (Except Errno (Option V)))
  | .enqueue t none => [.call t (.enqueue none), .ret t (.error .einval)]
  | .enqueue t (some v) => [.call t (.enqueue (some v))]
  | .dequeue t val => [.call t (.dequeue val)]
  | .step t weak => (threadStep s t weak).elim [] fun s' => (s'.pcs t).shown t

/-- The queue as a machine whose threads call a FIFO. -/
def serving :
    Serving (QueueState V) (Act V) ℕ (Op V) (Except Errno (Option V)) (List V) where
  next := next
  obj := QueueState.values
  phase _ s t := (s.pcs t).phase s.mem.cells.data
  events := events

/-! ### The values -/

/-- The pool keeps one fragment, so that at most `cap` values are queued. -/
lemma Inv.length_le (hI : Inv cap s c₁ c₂) : c₂.length ≤ cap + 1 := by
  obtain ⟨f, q, rfl, -⟩ := hI.pool.linked.exists_cons
  have hnd : (f :: c₂).Nodup := by
    refine List.nodup_cons.mpr ⟨fun hf => ?_, hI.linked.nodup⟩
    exact hI.pool.not_owned_of_mem (f := f) (by simp) 0 (hI.owned_of_mem hf)
  have hsub : f :: c₂ ⊆ List.range (cap + 2) := by
    intro g hg
    refine List.mem_range.mpr ?_
    rcases List.mem_cons.mp hg with rfl | hg
    · exact hI.pool.placed.mem g .chain (by simp [Pool.At])
    · exact hI.pool.placed.mem g (.client 0) (hI.owned_of_mem hg)
  have hlen := hnd.length_le_of_subset hsub
  simp only [List.length_cons, List.length_range] at hlen
  omega

lemma values_eq (hI : Inv cap s c₁ c₂) :
    s.values = c₂.tail.filterMap fun n => valueOf (s.mem.cells.data n) := by
  rw [QueueState.values, QueueState.queued, chain_eq hI, List.filterMap_map]
  rfl

lemma values_congr (hI : Inv cap s c₁ c₂) (hI' : Inv cap s' c' c₂)
    (hdata : ∀ n ∈ c₂, s'.mem.cells.data n = s.mem.cells.data n) : s'.values = s.values := by
  rw [values_eq hI, values_eq hI']
  refine List.filterMap_congr fun n hn => ?_
  rw [hdata n (List.mem_of_mem_tail hn)]

lemma values_length (hI : Inv cap s c₁ c₂) (hH : Hist s c₂ L) :
    s.values.length + 1 = c₂.length := by
  have hsome : ∀ item ∈ c₂.tail.map s.mem.cells.data, (valueOf item).isSome = true := by
    intro item hitem
    have hmem : item ∈ L.map some := by
      rw [← hH.order]
      exact List.mem_append_right _ hitem
    obtain ⟨p, -, rfl⟩ := List.mem_map.mp hmem
    rfl
  have hlen : s.values.length = c₂.tail.length := by
    rw [QueueState.values, QueueState.queued, chain_eq hI,
      List.length_filterMap_eq_countP, List.countP_eq_length.mpr hsome, List.length_map]
  have hpos := List.length_pos_of_ne_nil hI.linked.ne_nil
  rw [hlen, List.length_tail]
  omega

/-! ### The room -/

/-- The node in the hands of a thread, in the queue or in its pool. -/
def QueueState.hand (s : QueueState V) (t : ℕ) : Option ℕ :=
  ((s.pcs t).held (s.mem.calls t)).or (s.mem.calls t).held

lemma hand_of_call (hI : Inv cap s c₁ c₂) {n : ℕ} (h : (s.mem.calls t).held = some n) :
    s.hand t = some n := by
  have hok := hI.threads t
  have hnone : (s.pcs t).held (s.mem.calls t) = none := by
    cases hc : s.mem.calls t with
    | idle | returned | setup => simp_all [Pool.Call.held, hI.live t]
    | alloc o pc =>
      cases hpc : s.pcs t with
      | enqueueAlloc a v pc' =>
        cases pc' <;> simp_all [ThreadOk, AllocOk, Pool.Call.outside, Pc.held, AllocPc.held]
      | _ => simp_all [ThreadOk, Pool.Call.outside]
    | free f pc =>
      cases hpc : s.pcs t with
      | enqueueAlloc a v pc' => cases pc' <;> simp_all [ThreadOk, AllocOk, Pool.Call.outside]
      | _ => simp_all [ThreadOk, Pool.Call.outside, Pc.held]
  rw [QueueState.hand, hnone, Option.none_or, h]

lemma hand_outside (hI : Inv cap s c₁ c₂) (hout : (s.pcs t).outside = true) :
    s.hand t = none := by
  have hok := hI.threads t
  cases hpc : s.pcs t with
  | idle | returned =>
    rw [hpc] at hok
    cases hc : s.mem.calls t <;>
      simp_all [ThreadOk, QueueState.hand, Pc.held, Pool.Call.held, Pool.Call.outside]
  | _ => simp [hpc, Pc.outside] at hout

/-- Where only one fragment is left in the pool, and the thread that finds it has no node, the
values that are queued and the other threads have the others. -/
lemma room_lt (hI : Inv cap s c₁ c₂) (hH : Hist s c₂ L) (hlen : c₁.length = 1)
    (hk : ∀ u, k ≤ u → (s.pcs u).outside = true) (ht : t < k) (hnone : s.hand t = none) :
    cap < s.values.length + k := by
  have hwho : ∀ u n, s.hand u = some n → u ∈ (Finset.range k).erase t := fun u n hu => by
    refine Finset.mem_erase.mpr ⟨?_, Finset.mem_range.mpr (Nat.lt_of_not_le fun hku => ?_)⟩
    · rintro rfl
      simp [hnone] at hu
    · simp [hand_outside hI (hk u hku)] at hu
  have hcover : Finset.range (cap + 2) ⊆
      (c₁.toFinset ∪ c₂.toFinset) ∪ ((Finset.range k).erase t).image fun u =>
        (s.hand u).getD 0 := fun n hn => by
    have himage : ∀ u, s.hand u = some n →
        n ∈ ((Finset.range k).erase t).image fun u => (s.hand u).getD 0 := fun u hu =>
      Finset.mem_image.mpr ⟨u, hwho u n hu, by rw [hu]; rfl⟩
    obtain ⟨p, hp⟩ := hI.pool.placed.one n (Finset.mem_range.mp hn)
    rw [Finset.mem_union, Finset.mem_union, List.mem_toFinset, List.mem_toFinset]
    cases p with
    | chain => exact .inl (.inl hp)
    | call u => exact .inr (himage u (hand_of_call hI hp))
    | client o =>
      obtain rfl : o = 0 := by
        by_contra ho
        have hmem : n ∈ s.mem.owns o := hp
        simp [hI.owner o ho] at hmem
      obtain ⟨p', hp'⟩ := hI.placed.one n hp
      cases p' with
      | chain => exact .inl (.inr hp')
      | call u =>
        have hheld : (s.pcs u).held (s.mem.calls u) = some n := hp'
        exact .inr (himage u (by rw [QueueState.hand, hheld, Option.some_or]))
  have hcard := Finset.card_le_card hcover
  have hunion := Finset.card_union_le (c₁.toFinset ∪ c₂.toFinset)
    (((Finset.range k).erase t).image fun u => (s.hand u).getD 0)
  have hchains := Finset.card_union_le c₁.toFinset c₂.toFinset
  have himage : (((Finset.range k).erase t).image fun u => (s.hand u).getD 0).card ≤ k - 1 := by
    refine Finset.card_image_le.trans ?_
    rw [Finset.card_erase_of_mem (Finset.mem_range.mpr ht), Finset.card_range]
  have h₁ := c₁.toFinset_card_le
  have h₂ := c₂.toFinset_card_le
  have hvalues := values_length hI hH
  rw [Finset.card_range] at hcard
  omega

/-! ### A queue found empty, and a pool -/

/-- What a call of the pool has seen if it finds no fragment. -/
def NoneSeen (P : Prop) (E : Ends ℕ) : Pool.Call (Item V) → Prop
  | .alloc _ (.loop pc) => pc.EmptySeen P E
  | .returned none => P
  | _ => True

/-- A `queue_dequeue` that has read a null link was offered `ENOENT`, and a `queue_enqueue` whose
`mempool_alloc` has read one was offered `ENOMEM`. -/
structure Offers (cap k : ℕ) (ls : List (QueueState V × Act V)) (s : QueueState V) : Prop where
  empty : ∀ t d val pc, s.pcs t = .dequeueLoop d val pc → pc.EmptySeen
    (serving.Offered (Answers cap k) t (.dequeue val) (.error .enoent) ls s) s.ends
  full : ∀ t a v, s.pcs t = .enqueueAlloc a v .alloc → NoneSeen
    (serving.Offered (Answers cap k) t (.enqueue (some v)) (.error .enomem) ls s)
    s.mem.pool.ends (s.mem.calls t)

lemma dequeue_step (hI : Inv cap s c₁ c₂) (hs : threadStep s t weak = some s') {d : ℕ} {val : Bool}
    {pc : TakePc ℕ (Item V)} (hpc : s.pcs t = .dequeueLoop d val pc) :
    ∃ r, takeStep weak val s.ends s.mem.cells pc = some (s'.ends, r) ∧
      (∀ pc', s'.pcs t = .dequeueLoop d val pc' → r = .more pc') ∧
      (s'.pcs t = .returned (.fail .enoent) → r = .empty) := by
  have hok := hI.threads t
  rw [hpc] at hok
  obtain ⟨hout, -⟩ := hok
  obtain ⟨E', r, htake, rfl⟩ := by
    simpa [threadStep, hout, queueStep, hpc, queueDequeue] using hs
  cases r with
  | more pc' => exact ⟨_, htake, by simp, by simp⟩
  | empty => exact ⟨_, htake, by simp, by simp⟩
  | took n buf => exact ⟨_, htake, by simp, by simp⟩

lemma step_head (hI : Inv cap s c₁ c₂) (hfresh : PcFresh weak s.ends s.mem.cells c₂ (s.pcs t))
    (hs : threadStep s t weak = some s') : Seen s.ends.head s'.ends.head := by
  have hs₀ := hs
  unfold threadStep at hs
  cases hout : (s.mem.calls t).outside with
  | false =>
    rw [hout] at hs
    obtain ⟨m, -, rfl⟩ := by simpa using hs
    exact .rfl
  | true =>
    have hok := hI.threads t
    rw [hout, cond_true, queueStep] at hs
    cases hpc : s.pcs t with
    | idle | returned => simp [hpc] at hs
    | createPool | createAlloc | createEnds => rw [hpc] at hok; exact hok.elim
    | enqueueAlloc a v pc =>
      rw [hpc] at hs
      obtain ⟨C, r, -, hs'⟩ := by simpa [queueEnqueue] using hs
      rcases r with pc' | - | n <;> (obtain rfl := hs'; exact .rfl)
    | enqueueLoop a n pc =>
      rw [hpc] at hs
      obtain ⟨E', C', r, hput, hs'⟩ := by simpa [queueEnqueue] using hs
      have hhead : s'.ends = E' := by
        cases r <;> (obtain rfl := hs'; rfl)
      rw [hhead, putStep_head hput]
      exact .rfl
    | dequeueLoop d val pc =>
      rw [hpc] at hfresh
      obtain ⟨r, htake, -, -⟩ := dequeue_step hI hs₀ hpc
      exact take_head hfresh htake
    | dequeueFree d buf =>
      rw [hpc] at hs
      obtain rfl := by simpa [queueDequeue] using hs
      exact .rfl

lemma call_frame (ha : ∀ t weak, a ≠ .step t weak) (hs : next s a = some s') :
    s'.ends = s.ends ∧ s'.mem.cells = s.mem.cells ∧ s'.mem.pool = s.mem.pool ∧
      ∃ t, (s.pcs t).outside = true ∧ (∀ u, u ≠ t → s'.pcs u = s.pcs u) ∧
        ∀ d val pc, s'.pcs t = .dequeueLoop d val pc → pc = .loadHead := by
  cases a with
  | step t weak => exact absurd rfl (ha t weak)
  | enqueue t val =>
    simp only [next] at hs
    cases hout : (s.pcs t).outside with
    | false => simp [hout] at hs
    | true =>
      cases val with
      | none =>
        obtain rfl := by simpa [hout] using hs
        exact ⟨rfl, rfl, rfl, t, hout, fun _ => go_ne, by simp⟩
      | some v =>
        obtain rfl := by simpa [hout] using hs
        exact ⟨rfl, rfl, rfl, t, hout, fun _ => go_ne, by simp⟩
  | dequeue t val =>
    simp only [next] at hs
    cases hout : (s.pcs t).outside with
    | false => simp [hout] at hs
    | true =>
      obtain rfl := by simpa [hout] using hs
      refine ⟨rfl, rfl, rfl, t, hout, fun _ => go_ne, fun d val' pc h => ?_⟩
      simp_all

lemma empty_step (hI : Inv cap s c₁ c₂) (hfresh : Fresh s a) (h : Offers cap k ls s)
    (hs : next s a = some s') {d : ℕ} {val : Bool} {pc : TakePc ℕ (Item V)}
    (hpc' : s'.pcs t = .dequeueLoop d val pc) : pc.EmptySeen
      (serving.Offered (Answers cap k) t (.dequeue val) (.error .enoent) ((s, a) :: ls) s')
      s'.ends := by
  have hphase : serving.phase ((s, a) :: ls) s' t = .called (.dequeue val) := by
    simp [serving, hpc', Pc.phase]
  -- a thread that stands where it stood
  have hkeep : s.pcs t = .dequeueLoop d val pc → Seen s.ends.head s'.ends.head →
      pc.EmptySeen (serving.Offered (Answers cap k) t (.dequeue val) (.error .enoent)
        ((s, a) :: ls) s') s'.ends := by
    intro hpc hhead
    have hok := hI.threads t
    rw [hpc] at hok
    exact (h.empty t d val pc hpc).keep hok.2 hhead fun hoff => hoff.keep hphase
  by_cases ha : ∃ u weak, a = .step u weak
  · obtain ⟨u, weak, rfl⟩ := ha
    obtain ⟨hf1, hf2⟩ := hfresh
    rw [hI.pool.chain_eq hI.capacity] at hf1
    rw [chain_eq hI] at hf2
    obtain ⟨c₁', c₂', hI', hmv, -⟩ := threadStep_inv hI hf1 hf2 hs
    by_cases hpc : s.pcs t = .dequeueLoop d val pc
    · exact hkeep hpc (step_head hI hf2 hs)
    · have htu : t = u := by
        by_contra htu
        exact hpc ((hmv.others t htu).symm.trans hpc')
      subst htu
      obtain ⟨es, hm, -⟩ := hmv.moves
      generalize hp : s.pcs t = p at hm
      rw [hpc'] at hm
      cases hm with
      | look =>
        obtain ⟨r, htake, hmore, -⟩ := dequeue_step hI hs hp
        obtain rfl := hmore pc hpc'
        have hsees := take_sees hI.linked htake
        cases pc with
        | check head tail next =>
          intro hnull hcur
          obtain ⟨n, rfl⟩ := List.length_eq_one_iff.mp (hsees hnull hcur)
          have hobj : serving.obj s' = [] := (values_eq hI').trans rfl
          refine .now hphase ?_
          rw [hobj]
          exact .empty
        | _ => trivial
  · obtain ⟨hends, -, -, u, -, hothers, hbegin⟩ :=
      call_frame (fun u weak heq => ha ⟨u, weak, heq⟩) hs
    by_cases htu : t = u
    · subst htu
      rw [hbegin d val pc hpc']
      trivial
    · exact hkeep ((hothers t htu).symm.trans hpc') (by rw [hends]; exact .rfl)

lemma own_not_alloc (hout : (s.mem.calls t).outside = true) (hs : threadStep s t weak = some s')
    {x : ℕ} {v : V} : s'.pcs t ≠ .enqueueAlloc x v .alloc := by
  rw [threadStep, hout, cond_true, queueStep] at hs
  cases hpc : s.pcs t with
  | idle | returned => simp [hpc] at hs
  | createPool =>
    obtain rfl := by simpa [hpc, queueCreateStep] using hs
    simp
  | createAlloc pc =>
    rw [hpc] at hs
    obtain ⟨C, r, -, hs'⟩ := by simpa [queueCreateStep] using hs
    rcases r with pc' | n <;> (obtain rfl := hs'; simp)
  | createEnds n =>
    obtain rfl := by simpa [hpc, queueCreateStep] using hs
    simp
  | enqueueAlloc y w pc =>
    rw [hpc] at hs
    obtain ⟨C, r, halloc, hs'⟩ := by simpa [queueEnqueue] using hs
    rcases r with pc' | - | n
    · obtain rfl := hs'
      have hne : pc' ≠ .alloc := by
        rintro rfl
        cases pc with
        | alloc => cases hc : s.mem.calls t with
          | returned r => cases r <;> simp [queueAllocValue, hc] at halloc
          | _ => simp [queueAllocValue, hc] at halloc
        | init | copy => simp [queueAllocValue] at halloc
      simp [hne]
    · obtain rfl := hs'
      simp
    · obtain rfl := hs'
      simp
  | enqueueLoop y n pc =>
    rw [hpc] at hs
    obtain ⟨E', C', r, -, hs'⟩ := by simpa [queueEnqueue] using hs
    cases r <;> (obtain rfl := hs'; simp)
  | dequeueLoop d val pc =>
    rw [hpc] at hs
    obtain ⟨E', r, -, hs'⟩ := by simpa [queueDequeue] using hs
    cases r <;> (obtain rfl := hs'; simp)
  | dequeueFree d buf =>
    rw [hpc] at hs
    obtain rfl := by simpa [queueDequeue] using hs
    simp

lemma full_inside (hI : Inv cap s c₁ c₂) (hH : Hist s c₂ L)
    (hk : ∀ u, k ≤ u → (s.pcs u).outside = true)
    (hfresh : Pool.CallFresh weak s.mem.pool.ends s.mem.cells c₁ (s.mem.calls t))
    (h : Offers cap k ls s) {m : PoolState (Item V)}
    (hm : Pool.threadStep s.mem t weak = some m) {x : ℕ} {v : V}
    (hpc : s.pcs t = .enqueueAlloc x v .alloc) : NoneSeen (serving.Offered (Answers cap k) t
      (.enqueue (some v)) (.error .enomem) ((s, .step t weak) :: ls) { s with mem := m })
      m.pool.ends (m.calls t) := by
  have hphase : serving.phase ((s, .step t weak) :: ls) { s with mem := m } t =
      .called (.enqueue (some v)) := by simp [serving, hpc, Pc.phase]
  have hold := h.full t x v hpc
  have hok := hI.threads t
  rw [hpc] at hok
  rcases hok with ⟨pc, hcall⟩ | ⟨r, hcall⟩
  · rw [hcall] at hold hfresh
    cases pc with
    | count f =>
      obtain rfl := by simpa [Pool.threadStep, hcall, Pool.internalMempoolPick] using hm
      simp [NoneSeen]
    | loop pc =>
      obtain ⟨P, r, hpick, rfl⟩ := by simpa [Pool.threadStep, hcall] using hm
      obtain ⟨E', r', htake, rfl, rfl⟩ := by simpa [Pool.internalMempoolPick] using hpick
      cases r' with
      | took f buf => simp [NoneSeen]
      | empty =>
        have hoff := take_seen_empty hfresh hold htake
        simpa [NoneSeen] using hoff.keep hphase
      | more pc' =>
        have hsees := take_sees hI.pool.linked htake
        rw [Pool.setCall_self]
        cases pc' with
        | check head tail next =>
          intro hnull hcur
          have ht : t < k := by
            by_contra hkt
            have hout := hk t (Nat.not_lt.mp hkt)
            simp [hpc, Pc.outside] at hout
          have hnone : s.hand t = none := by
            simp [QueueState.hand, hpc, hcall, Pc.held, AllocPc.held, Pool.Call.held]
          have hroom : cap < s.values.length + k := room_lt hI hH (hsees hnull hcur) hk ht hnone
          exact .now hphase (.full hroom)
        | _ => trivial
  · simp [Pool.threadStep, hcall] at hm

lemma full_step (hI : Inv cap s c₁ c₂) (hH : Hist s c₂ L)
    (hk : ∀ u, k ≤ u → (s.pcs u).outside = true) (hfresh : Fresh s a) (h : Offers cap k ls s)
    (hs : next s a = some s') {x : ℕ} {v : V} (hpc' : s'.pcs t = .enqueueAlloc x v .alloc) :
    NoneSeen (serving.Offered (Answers cap k) t (.enqueue (some v)) (.error .enomem)
      ((s, a) :: ls) s') s'.mem.pool.ends (s'.mem.calls t) := by
  have hphase : serving.phase ((s, a) :: ls) s' t = .called (.enqueue (some v)) := by
    simp [serving, hpc', Pc.phase]
  -- a thread that stands where it stood
  have hkeep : s'.pcs t = s.pcs t → s'.mem.calls t = s.mem.calls t →
      Seen s.mem.pool.ends.head s'.mem.pool.ends.head →
      NoneSeen (serving.Offered (Answers cap k) t (.enqueue (some v)) (.error .enomem)
        ((s, a) :: ls) s') s'.mem.pool.ends (s'.mem.calls t) := fun hpcs hcalls hhead => by
    have hold := h.full t x v (hpcs.symm.trans hpc')
    have hok := hI.pool.calls t
    rw [hcalls]
    cases hc : s.mem.calls t with
    | idle | free | setup => trivial
    | returned r =>
      rw [hc] at hold
      cases r with
      | none => exact Serving.Offered.keep hold hphase
      | some n => trivial
    | alloc o pc =>
      rw [hc] at hold hok
      cases pc with
      | loop pc => exact TakePc.EmptySeen.keep hok hhead (fun hoff => hoff.keep hphase) hold
      | count => trivial
  cases a with
  | enqueue u val =>
    simp only [next] at hs
    cases hout : (s.pcs u).outside with
    | false => simp [hout] at hs
    | true =>
      cases val with
      | none =>
        obtain rfl := by simpa [hout] using hs
        by_cases htu : t = u
        · subst htu
          simp at hpc'
        · exact hkeep (go_ne htu) rfl .rfl
      | some v' =>
        obtain rfl := by simpa [hout] using hs
        by_cases htu : t = u
        · subst htu
          simp [QueueState.note, mempoolAlloc, NoneSeen, TakePc.EmptySeen]
        · exact hkeep (go_ne htu) (Pool.setCall_ne htu) .rfl
  | dequeue u val =>
    simp only [next] at hs
    cases hout : (s.pcs u).outside with
    | false => simp [hout] at hs
    | true =>
      obtain rfl := by simpa [hout] using hs
      by_cases htu : t = u
      · subst htu
        simp at hpc'
      · exact hkeep (go_ne htu) rfl .rfl
  | step u weak =>
    have hs : threadStep s u weak = some s' := hs
    obtain ⟨hf1, hf2⟩ := hfresh
    have hf := hf1
    rw [hI.pool.chain_eq hI.capacity] at hf1
    rw [chain_eq hI] at hf2
    obtain ⟨c₁', c₂', hI', hmv, -⟩ := threadStep_inv hI hf1 hf2 hs
    cases hout : (s.mem.calls u).outside with
    | true =>
      by_cases htu : t = u
      · subst htu
        exact absurd hpc' (own_not_alloc hout hs)
      · refine hkeep (hmv.others t htu) (hmv.calls t htu) ?_
        rw [(hmv.own hout).1]
        exact .rfl
    | false =>
      rw [threadStep, hout] at hs
      obtain ⟨m, hm, rfl⟩ := by simpa using hs
      by_cases htu : t = u
      · subst htu
        exact full_inside hI hH hk hf1 h hm hpc'
      · exact hkeep rfl (hmv.calls t htu) (Pool.next_head (a := .step u weak) hf hm hI.live)

/-! ### Turns -/

lemma phase_outside {data : ℕ → Item V} {pc : Pc V} (h : pc.outside = true) :
    pc.phase data = .idle := by
  cases pc <;> simp_all [Pc.outside, Pc.phase]

lemma call_turns (ha : ∀ t weak, a ≠ .step t weak) (hs : next s a = some s') :
    serving.Turns (Answers cap k) ls s a s' := by
  cases a with
  | step t weak => exact absurd rfl (ha t weak)
  | enqueue t val =>
    simp only [next] at hs
    cases hout : (s.pcs t).outside with
    | false => simp [hout] at hs
    | true =>
      have hidle : serving.phase ls s t = .idle := phase_outside hout
      cases val with
      | none =>
        obtain rfl := by simpa [hout] using hs
        refine ⟨t, .once _ _ hidle (by simp [serving, Pc.phase]) .null, fun q hq => ?_⟩
        simp only [serving, go_ne hq, go_mem]
        rfl
      | some v =>
        obtain rfl := by simpa [hout] using hs
        refine ⟨t, .call _ hidle (by simp [serving, Pc.phase]) rfl, fun q hq => ?_⟩
        simp only [serving, go_ne hq, go_mem]
        rfl
  | dequeue t val =>
    simp only [next] at hs
    cases hout : (s.pcs t).outside with
    | false => simp [hout] at hs
    | true =>
      have hidle : serving.phase ls s t = .idle := phase_outside hout
      obtain rfl := by simpa [hout] using hs
      refine ⟨t, .call _ hidle (by simp [serving, Pc.phase]) rfl, fun q hq => ?_⟩
      simp only [serving, go_ne hq, go_mem]
      rfl

lemma step_turns (hI : Inv cap s c₁ c₂) (hH : Hist s c₂ L) (hfresh : Fresh s (.step t weak))
    (h : Offers cap k ls s) (hs : next s (.step t weak) = some s') :
    serving.Turns (Answers cap k) ls s (.step t weak) s' := by
  obtain ⟨hf1, hf2⟩ := hfresh
  rw [hI.pool.chain_eq hI.capacity] at hf1
  rw [chain_eq hI] at hf2
  have hs : threadStep s t weak = some s' := hs
  obtain ⟨c₁', c₂', hI', hmv, -⟩ := threadStep_inv hI hf1 hf2 hs
  have hdata : ∀ n ∈ c₂, s'.mem.cells.data n = s.mem.cells.data n := fun n hn =>
    hmv.data n (hI.owned_of_mem hn) fun hn' => hI.not_mem_of_held hn' hn
  have hsame : c₂' = c₂ → serving.obj s' = serving.obj s := by
    rintro rfl
    exact values_congr hI hI' hdata
  have hothers : ∀ q, q ≠ t →
      serving.phase ((s, .step t weak) :: ls) s' q = serving.phase ls s q := by
    intro q hq
    simp only [serving, hmv.others q hq]
    cases hpc : s.pcs q with
    | enqueueLoop a n pc =>
      cases hlk : pc.linked with
      | true => simp [Pc.phase, hlk]
      | false =>
        have hn : At s c₂ n (.call q) := by simp [At, hpc, Pc.held, hlk]
        have hkept : s'.mem.cells.data n = s.mem.cells.data n :=
          hmv.data n (hI.owned_of_held hn) fun hn' => hq (hI.held_inj hn' hn)
        simp [Pc.phase, hlk, hkept]
    | _ => rfl
  refine ⟨t, ?_, hothers⟩
  have hshown : serving.events s (.step t weak) = (s'.pcs t).shown t := by
    simp [serving, events, hs]
  have hphase : ∀ ls (x : QueueState V),
      serving.phase ls x t = (x.pcs t).phase x.mem.cells.data := fun _ _ => rfl
  rw [hshown]
  obtain ⟨es, hm, -⟩ := hmv.moves
  have hthread := hH.threads t
  generalize hp : s.pcs t = p at hm hthread
  generalize hp' : s'.pcs t = p' at hm ⊢
  cases hm with
  | alloc => exact .stay (by simp [hphase, hp, hp', Pc.phase]) (hsame rfl)
  | @nomem a v hcall =>
    have hoff : serving.Offered (Answers cap k) t (.enqueue (some v)) (.error .enomem) ls s := by
      have hseen := h.full t a v hp
      rwa [hcall] at hseen
    refine .look (.enqueue (some v)) _ ?_ ?_ (hsame rfl) hoff
    · simp [hphase, hp, Pc.phase]
    · simp [hphase, hp', Pc.phase]
  | write hdat =>
    exact .stay (by simp [hphase, hp, hp', Pc.phase, PutPc.linked, hdat, valueOf]) (hsame rfl)
  | loop hdat hlk => exact .stay (by simp [hphase, hp, hp', Pc.phase, hdat, hlk]) (hsame rfl)
  | @link a n pc pc' hdat hlk hlk' =>
    obtain ⟨v, hv, -, -⟩ := hthread.2 hlk
    have hobj : serving.obj s' = serving.obj s ++ [v] := by
      have htail : (c₂ ++ [n]).tail = c₂.tail ++ [n] :=
        List.tail_append_of_ne_nil hI.linked.ne_nil
      rw [show serving.obj s' = s'.values from rfl, show serving.obj s = s.values from rfl,
        values_eq hI, values_eq hI', htail, hdat, List.filterMap_append]
      simp [hv, valueOf]
    refine .answer (.enqueue (some v)) (.ok none) ?_ ?_ ?_
    · simp [hphase, hp, Pc.phase, hlk, hv, valueOf]
    · simp [hphase, hp', Pc.phase, hlk']
    · rw [hobj]
      refine .put ?_
      -- the chain has room for one more node
      have hlen := hI'.length_le
      have hle : s.values.length ≤ c₂.tail.length := by
        rw [values_eq hI]
        exact List.length_filterMap_le _ _
      have hpos := List.length_pos_of_ne_nil hI.linked.ne_nil
      rw [List.length_append, List.length_singleton] at hlen
      rw [List.length_tail] at hle
      show s.values.length < cap
      omega
  | done hlk =>
    refine .ret _ ?_ ?_ (hsame rfl)
    · simp [hphase, hp, Pc.phase, hlk, Res.answer]
    · simp [hphase, hp', Pc.phase]
  | look => exact .stay (by simp [hphase, hp, hp', Pc.phase]) (hsame rfl)
  | @empty d val pc =>
    rw [hp] at hf2
    obtain ⟨r, htake, -, hempty⟩ := dequeue_step hI hs hp
    obtain rfl := hempty hp'
    refine .look (.dequeue val) _ ?_ ?_ (hsame rfl)
      (take_seen_empty hf2 (h.empty t d val pc hp) htake)
    · simp [hphase, hp, Pc.phase]
    · simp [hphase, hp', Pc.phase]
  | @take d val pc n m q hc =>
    have horder := hH.order
    rw [hc, List.tail_cons, List.map_cons] at horder
    obtain ⟨⟨a, v⟩, -, hav⟩ : ∃ p ∈ L, some p = s.mem.cells.data m :=
      List.mem_map.mp (by rw [← horder]; simp)
    have hrest : s'.values = q.filterMap fun n => valueOf (s.mem.cells.data n) := by
      rw [values_eq hI', List.tail_cons]
      refine List.filterMap_congr fun g hg => ?_
      rw [hdata g (by rw [hc]; simp [hg])]
    have hobj : serving.obj s = v :: serving.obj s' := by
      rw [show serving.obj s' = s'.values from rfl, show serving.obj s = s.values from rfl,
        hrest, values_eq hI, hc, List.tail_cons, List.filterMap_cons_some (b := v)]
      rw [← hav]
      rfl
    refine .answer (.dequeue val) (.ok (if val then some v else none)) ?_ ?_ ?_
    · simp [hphase, hp, Pc.phase]
    · cases val <;> simp [hphase, hp', Pc.phase, ← hav, valueOf]
    · rw [hobj]
      exact .take
  | free => exact .stay (by simp [hphase, hp, hp', Pc.phase]) (hsame rfl)
  | ret =>
    refine .ret _ ?_ ?_ (hsame rfl)
    · simp [hphase, hp, Pc.phase, Res.answer]
    · simp [hphase, hp', Pc.phase]

/-! ### Runs -/

lemma outside_stays (hI : Inv cap s c₁ c₂) (hfresh : Fresh s a) (hin : a.within k = true)
    (hs : next s a = some s') (ht : k ≤ t) (h : (s.pcs t).outside = true) :
    (s'.pcs t).outside = true := by
  by_cases ha : ∃ u weak, a = .step u weak
  · obtain ⟨u, weak, rfl⟩ := ha
    obtain ⟨hf1, hf2⟩ := hfresh
    rw [hI.pool.chain_eq hI.capacity] at hf1
    rw [chain_eq hI] at hf2
    obtain ⟨c₁', c₂', -, hmv, -⟩ := threadStep_inv hI hf1 hf2 hs
    have hu : u < k := by simpa [Act.within] using hin
    rw [hmv.others t (by omega)]
    exact h
  · have hne : ∀ u, k ≤ u → s'.pcs u = s.pcs u := fun u hku => by
      cases a with
      | step u weak => exact absurd ⟨u, weak, rfl⟩ ha
      | enqueue v val =>
        have hv : v < k := by simpa [Act.within] using hin
        simp only [next] at hs
        cases hout : (s.pcs v).outside with
        | false => simp [hout] at hs
        | true =>
          cases val with
          | none =>
            obtain rfl := by simpa [hout] using hs
            exact go_ne (by omega)
          | some x =>
            obtain rfl := by simpa [hout] using hs
            exact go_ne (by omega)
      | dequeue v val =>
        have hv : v < k := by simpa [Act.within] using hin
        simp only [next] at hs
        cases hout : (s.pcs v).outside with
        | false => simp [hout] at hs
        | true =>
          obtain rfl := by simpa [hout] using hs
          exact go_ne (by omega)
    rw [hne t ht]
    exact h

lemma offers_of_trace (hmax : cap + 2 ≤ sizeMax) (h₀ : Created cap s₀)
    (h : Trace next (fun s a => Fresh s a ∧ a.within k = true) s₀ ls s) :
    Sound cap s ∧ (∀ t, k ≤ t → (s.pcs t).outside = true) ∧ Offers cap k ls s := by
  refine h.inv (I := fun ls s => Sound cap s ∧ (∀ t, k ≤ t → (s.pcs t).outside = true) ∧
    Offers cap k ls s) ?_ ?_
  · have hout := (created_inv hmax h₀).2.2.2
    refine ⟨sound_of_reach hmax h₀ .refl, fun t _ => hout t, fun t d val pc hpc => ?_,
      fun t x v hpc => ?_⟩
    · simpa [hpc, Pc.outside] using hout t
    · simpa [hpc, Pc.outside] using hout t
  · rintro ls s a s' ⟨⟨c₁, c₂, L, hI, hH⟩, hk, hoff⟩ ⟨hfresh, hin⟩ hs
    exact ⟨sound_step ⟨c₁, c₂, L, hI, hH⟩ hfresh hs,
      fun t ht => outside_stays hI hfresh hin hs ht (hk t ht),
      fun t d val pc => empty_step hI hfresh hoff hs,
      fun t x v => full_step hI hH hk hfresh hoff hs⟩

/-- **Linearizability**: in every run of `k` threads in which no step is deceived by a word that
was replaced and looks the same again, the calls of `queue_enqueue` and `queue_dequeue`, however
they overlap, return what a FIFO of at most `cap` values answers that serves each of them at one
moment between its call and its return, and that finds no room for a value only if fewer than `k`
more would fit. -/
theorem queue_linearizable {memory : Bool} {valBytes : ℕ} {made : QueueState V}
    (hfit : SizesFit valBytes cap) (hmake : queueCreate memory valBytes cap = .ok made)
    (hrun : Reach next (fun _ a => a.isStep 0 = true) made s₀)
    (hret : s₀.pcs 0 = .returned (.ok none))
    (h : Trace next (fun s a => Fresh s a ∧ a.within k = true) s₀ ls s) :
    Linearizable (Answers cap k) [] (serving.history ls) := by
  obtain ⟨rfl, -⟩ := queueCreate_ok hfit hmake
  have h₀ : Created cap s₀ := ⟨hrun, hret⟩
  obtain ⟨⟨c₁, n, hI, -, -⟩, -, -, hout⟩ := created_inv hfit.2 h₀
  have hobj : serving.obj s₀ = [] := values_eq hI
  rw [← hobj]
  refine Serving.linearizable (M := serving) (fun t => phase_outside (hout t))
    (fun ls s a s' htrace hok hs => ?_) h
  obtain ⟨⟨c₁, c₂, L, hI, hH⟩, -, hoff⟩ := offers_of_trace hfit.2 h₀ htrace
  by_cases ha : ∃ u weak, a = .step u weak
  · obtain ⟨u, weak, rfl⟩ := ha
    exact step_turns hI hH hok.1 hoff hs
  · exact call_turns (fun u weak heq => ha ⟨u, weak, heq⟩) hs

/-- A dequeue sees an empty queue, and fails when an enqueue has returned in the meantime: it was
served before that. Then an enqueue fails with one value queued, as another has the second node. -/
theorem queue_linearizable_two : ∃ s₀ ls, ∃ s : QueueState ℕ, Created 2 s₀ ∧
    Trace next (fun s a => Fresh s a ∧ a.within 4 = true) s₀ ls s ∧
    serving.history ls = [.call 1 (.enqueue (some 7)), .call 3 (.dequeue true),
      .call 2 (.enqueue (some 8)), .ret 2 (.ok none), .ret 3 (.error .enoent),
      .call 3 (.enqueue (some 9)), .ret 3 (.error .enomem), .ret 1 (.ok none),
      .call 3 (.dequeue true), .ret 3 (.ok (some 8))] ∧
    Linearizable (Answers 2 4) [] (serving.history ls) := by
  obtain ⟨s₀, hrun, hp⟩ := exists_reach next (fun _ a => a.isStep 0 = true)
    (raw 2 : QueueState ℕ)
    (fun s₀ => decide (s₀.pcs 0 = .returned (.ok none)) &&
      (movesIf next (fun s a => Fresh s a ∧ a.within 4 = true) [] s₀
      (List.flatten [.enqueue 1 (some 7) :: steps 1 7, .dequeue 3 true :: steps 3 3,
        .enqueue 2 (some 8) :: steps 2 14, steps 3 1, .enqueue 3 (some 9) :: steps 3 5,
        steps 1 7, .dequeue 3 true :: steps 3 14])).any
      fun x : List (QueueState ℕ × Act ℕ) × QueueState ℕ =>
        decide (serving.history x.1 = [.call 1 (.enqueue (some 7)), .call 3 (.dequeue true),
          .call 2 (.enqueue (some 8)), .ret 2 (.ok none), .ret 3 (.error .enoent),
          .call 3 (.enqueue (some 9)), .ret 3 (.error .enomem), .ret 1 (.ok none),
          .call 3 (.dequeue true), .ret 3 (.ok (some 8))]))
    (steps 0 36) (by decide +kernel)
  simp only [Bool.and_eq_true, decide_eq_true_eq] at hp
  obtain ⟨ls, s, htrace, hhist⟩ := exists_moves next
    (fun s a => Fresh s a ∧ a.within 4 = true) s₀
    (fun ls _ => decide (serving.history ls = [.call 1 (.enqueue (some 7)), .call 3 (.dequeue true),
      .call 2 (.enqueue (some 8)), .ret 2 (.ok none), .ret 3 (.error .enoent),
      .call 3 (.enqueue (some 9)), .ret 3 (.error .enomem), .ret 1 (.ok none),
      .call 3 (.dequeue true), .ret 3 (.ok (some 8))])) _ hp.2
  have hmake : queueCreate true 1 2 = .ok (raw 2 : QueueState ℕ) :=
    queueCreate_made (by decide) (by decide) ⟨by decide, by decide⟩ (by decide)
  exact ⟨s₀, ls, s, ⟨hrun, hp.1⟩, htrace, by simpa using hhist,
    queue_linearizable ⟨by decide, by decide⟩ hmake hrun hp.1 htrace⟩

end CoopTasks.Queue
