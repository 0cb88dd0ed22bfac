import CoopTasks.PoolOwnership
import CoopTasks.Queue

/-!
What every step of the queue keeps: each node taken from the pool is on the chain or in the
hands of one thread, and the chain from the head to the tail is whole.
-/

namespace CoopTasks.Queue

open CoopTasks.Chain CoopTasks.Append CoopTasks.Advance CoopTasks.Placement
open CoopTasks.Pool (PoolState)

variable {V : Type*}

/-- What `queue_alloc_value` knows about the pool's call and its node. -/
def AllocOk (C : Cells ℕ (Item V)) (call : Pool.Call (Item V)) : AllocPc → Prop
  | .alloc => (∃ pc, call = .alloc 0 pc) ∨ ∃ r, call = .returned r
  | .init _ => call.outside = true
  | .copy n => call.outside = true ∧ (C.link n).ptr = none

/-- What a thread knows about the chain and its node. -/
def ThreadOk (E : Ends ℕ) (C : Cells ℕ (Item V)) (c : List ℕ) (call : Pool.Call (Item V)) :
    Pc V → Prop
  | .idle | .returned _ => call.outside = true
  | .createPool | .createAlloc _ | .createEnds _ => False
  | .enqueueAlloc _ _ pc => AllocOk C call pc
  | .enqueueLoop _ n pc => call.outside = true ∧ PutOk E C c n pc ∧
    (pc.linked = false → (C.link n).ptr = none)
  | .dequeueLoop _ val pc => call.outside = true ∧ TakeOk val E C pc
  | .dequeueFree _ _ => (∃ f pc, call = .free f pc) ∨ ∃ r, call = .returned r

/-- The queue is sound: `c₁` is the chain of its pool, and `c₂` its own. -/
structure Inv (cap : ℕ) (s : QueueState V) (c₁ c₂ : List ℕ) : Prop where
  pool : Pool.Inv s.mem (cap + 2) c₁
  live : Pool.Live s.mem
  capacity : s.mem.pool.capacity = cap + 1
  owner : ∀ o, o ≠ 0 → s.mem.owns o = []
  linked : Linked s.ends s.mem.cells c₂
  placed : Placed (· ∈ s.mem.owns 0) (At s c₂)
  threads : ∀ t, ThreadOk s.ends s.mem.cells c₂ (s.mem.calls t) (s.pcs t)

variable {s s' : QueueState V} {cap : ℕ} {c₁ c₂ c' : List ℕ} {E E' : Ends ℕ}
  {C C' : Cells ℕ (Item V)} {t n : ℕ} {pc pc' : Pc V} {call : Pool.Call (Item V)} {weak : Bool}
  {m : PoolState (Item V)}

@[simp] lemma go_self : (s.go t pc).pcs t = pc := by simp [QueueState.go]
lemma go_ne {u : ℕ} (h : u ≠ t) : (s.go t pc).pcs u = s.pcs u := by simp [QueueState.go, h]
@[simp] lemma go_mem : (s.go t pc).mem = s.mem := rfl
@[simp] lemma go_ends : (s.go t pc).ends = s.ends := rfl
@[simp] lemma go_log : (s.go t pc).log = s.log := rfl
@[simp] lemma go_count : (s.go t pc).count = s.count := rfl

lemma threadOk_evolves (hL : Linked E C c₂) (hev : Evolves E C c₂ E' C' c')
    (hheld : ∀ n, pc.held call = some n → C'.link n = C.link n) (h : ThreadOk E C c₂ call pc) :
    ThreadOk E' C' c' call pc := by
  cases pc with
  | idle | returned | dequeueFree => exact h
  | createPool | createAlloc | createEnds => exact h.elim
  | enqueueAlloc a v pc =>
    cases pc with
    | alloc | init => exact h
    | copy n => exact ⟨h.1, by rw [hheld n rfl]; exact h.2⟩
  | enqueueLoop a n pc =>
    refine ⟨h.1, putOk_evolves hL hev h.2.1, fun hlk => ?_⟩
    rw [hheld n (by simp [Pc.held, hlk])]
    exact h.2.2 hlk
  | dequeueLoop d val pc => exact ⟨h.1, takeOk_evolves hL hev h.2⟩

lemma threads_step (s' : QueueState V) (hI : Inv cap s c₁ c₂)
    (hev : Evolves s.ends s.mem.cells c₂ s'.ends s'.mem.cells c')
    (hcalls : ∀ u, u ≠ t → s'.mem.calls u = s.mem.calls u)
    (hpcs : ∀ u, u ≠ t → s'.pcs u = s.pcs u)
    (hheld : ∀ u n, u ≠ t → At s c₂ n (.call u) → s'.mem.cells.link n = s.mem.cells.link n)
    (ht : ThreadOk s'.ends s'.mem.cells c' (s'.mem.calls t) (s'.pcs t)) (u : ℕ) :
    ThreadOk s'.ends s'.mem.cells c' (s'.mem.calls u) (s'.pcs u) := by
  by_cases hu : u = t
  · subst hu; exact ht
  · rw [hcalls u hu, hpcs u hu]
    exact threadOk_evolves hI.linked hev (fun n hn => hheld u n hu hn) (hI.threads u)

lemma Inv.owned_of_mem (hI : Inv cap s c₁ c₂) (h : n ∈ c₂) : n ∈ s.mem.owns 0 :=
  hI.placed.mem n .chain h

lemma Inv.owned_of_held (hI : Inv cap s c₁ c₂) (h : At s c₂ n (.call t)) : n ∈ s.mem.owns 0 :=
  hI.placed.mem n (.call t) h

lemma Inv.not_mem_of_held (hI : Inv cap s c₁ c₂) (h : At s c₂ n (.call t)) : n ∉ c₂ := fun hc =>
  absurd (hI.placed.uniq n .chain (.call t) hc h) (by simp)

lemma Inv.held_inj (hI : Inv cap s c₁ c₂) {u : ℕ} (h : At s c₂ n (.call t))
    (h' : At s c₂ n (.call u)) : u = t := by
  simpa using hI.placed.uniq n (.call u) (.call t) h' h

lemma Inv.poolSetCells (hI : Inv cap s c₁ c₂) (hm : Mild s.mem.cells C)
    (hs : ∀ g, g ∉ s.mem.owns 0 → Same s.mem.cells C g) :
    Pool.Inv { s.mem with cells := C } (cap + 2) c₁ :=
  hI.pool.setCells hm (fun g hg => hs g (hI.pool.not_owned_of_mem hg 0))
    fun _ g hg => (hs g (hI.pool.not_owned_of_held hg 0)).1

/-! ### What a step does -/

/-- What a step of a thread inside a call does to the chain `c` and the log, by where it stands
before and after. -/
inductive Moves (call : Pool.Call (Item V)) (C C' : Cells ℕ (Item V)) (c : List ℕ) :
    Pc V → Pc V → List (Event V) → List ℕ → Prop
  | alloc {a v pc pc'} : Moves call C C' c (.enqueueAlloc a v pc) (.enqueueAlloc a v pc') [] c
  | nomem {a v} : call = .returned none → Moves call C C' c (.enqueueAlloc a v .alloc)
      (.returned (.fail .enomem)) [.failed a .enomem] c
  | write {a v pc n} : C'.data n = some (a, v) →
      Moves call C C' c (.enqueueAlloc a v pc) (.enqueueLoop a n .loadTail) [] c
  | loop {a n pc pc'} : C'.data = C.data → pc'.linked = pc.linked →
      Moves call C C' c (.enqueueLoop a n pc) (.enqueueLoop a n pc') [] c
  | link {a n pc pc'} : C'.data = C.data → pc.linked = false → pc'.linked = true →
      Moves call C C' c (.enqueueLoop a n pc) (.enqueueLoop a n pc') [] (c ++ [n])
  | done {a n pc} : pc.linked = true →
      Moves call C C' c (.enqueueLoop a n pc) (.returned (.ok none)) [.enqueued a] c
  | look {d val pc pc'} : Moves call C C' c (.dequeueLoop d val pc) (.dequeueLoop d val pc') [] c
  | empty {d val pc} : Moves call C C' c (.dequeueLoop d val pc) (.returned (.fail .enoent))
      [.failed d .enoent] c
  | take {d val pc n m q} : c = n :: m :: q → Moves call C C' c (.dequeueLoop d val pc)
      (.dequeueFree d (if val then some (C.data m) else none)) [.take d (C.data m)] (m :: q)
  | free {d buf} : Moves call C C' c (.dequeueFree d buf) (.dequeueFree d buf) [] c
  | ret {d buf} : Moves call C C' c (.dequeueFree d buf) (.returned (.ok buf)) [.dequeued d buf] c

/-- What a step of the thread `t` does, and what it leaves alone. -/
structure Moved (s s' : QueueState V) (t : ℕ) (c c' : List ℕ) : Prop where
  moves : ∃ es, Moves (s.mem.calls t) s.mem.cells s'.mem.cells c (s.pcs t) (s'.pcs t) es c' ∧
    s'.log = s.log ++ es
  others : ∀ u, u ≠ t → s'.pcs u = s.pcs u
  calls : ∀ u, u ≠ t → s'.mem.calls u = s.mem.calls u
  count : s'.count = s.count
  data : ∀ n ∈ s.mem.owns 0, ¬ At s c n (.call t) → s'.mem.cells.data n = s.mem.cells.data n
  inside : (s.mem.calls t).outside = false → s'.ends = s.ends ∧
    ∀ n ∈ s.mem.owns 0, s'.mem.cells.link n = s.mem.cells.link n
  own : (s.mem.calls t).outside = true → s'.mem.pool = s.mem.pool ∧
    ∀ n, n ∉ s.mem.owns 0 → s'.mem.cells.link n = s.mem.cells.link n

lemma pool_step (hI : Inv cap s c₁ c₂) (hout : (s.mem.calls t).outside = false)
    (hfresh : Pool.CallFresh weak s.mem.pool.ends s.mem.cells c₁ (s.mem.calls t))
    (h : Pool.threadStep s.mem t weak = some m) :
    ∃ c', Inv cap { s with mem := m } c' c₂ ∧ Moved s { s with mem := m } t c₂ c₂ := by
  obtain ⟨c', hI', hlive, hmv, -⟩ := Pool.threadStep_inv hI.pool hI.live hfresh h
  have hev : Evolves s.ends s.mem.cells c₂ s.ends m.cells c₂ :=
    .of_same hmv.mild fun g hg => hmv.same 0 g (hI.owned_of_mem hg)
  have hlinked := hI.linked.of_same fun g hg => hmv.same 0 g (hI.owned_of_mem hg)
  have hok := hI.threads t
  -- the thread is in `mempool_alloc` or in `mempool_free`, and holds nothing
  have hcase : (∃ a v pc, s.pcs t = .enqueueAlloc a v .alloc ∧ s.mem.calls t = .alloc 0 pc) ∨
      ∃ d buf f pc, s.pcs t = .dequeueFree d buf ∧ s.mem.calls t = .free f pc := by
    cases hpc : s.pcs t with
    | idle | returned | createPool | createAlloc | createEnds | enqueueLoop | dequeueLoop =>
      simp [hpc, ThreadOk, hout] at hok
    | enqueueAlloc a v pc =>
      cases pc with
      | init | copy => simp [hpc, ThreadOk, AllocOk, hout] at hok
      | alloc =>
        simp only [hpc, ThreadOk, AllocOk] at hok
        rcases hok with ⟨pc, hcall⟩ | ⟨r, hcall⟩
        · exact .inl ⟨a, v, pc, rfl, hcall⟩
        · simp [hcall, Pool.Call.outside] at hout
    | dequeueFree d buf =>
      simp only [hpc, ThreadOk] at hok
      rcases hok with ⟨f, pc, hcall⟩ | ⟨r, hcall⟩
      · exact .inr ⟨d, buf, f, pc, rfl, hcall⟩
      · simp [hcall, Pool.Call.outside] at hout
  have hnone : ∀ g, ¬ At s c₂ g (.call t) := by
    rcases hcase with ⟨a, v, pc, hpc, hcall⟩ | ⟨d, buf, f, pc, hpc, hcall⟩ <;>
      simp [At, hpc, hcall, Pc.held, AllocPc.held]
  have hthread : ThreadOk s.ends m.cells c₂ (m.calls t) (s.pcs t) := by
    rcases hcase with ⟨a, v, pc, hpc, hcall⟩ | ⟨d, buf, f, pc, hpc, hcall⟩
    · rw [hpc]; exact hmv.alloc 0 pc hcall
    · rw [hpc]
      rcases hmv.free f pc hcall with ⟨pc', h⟩ | h
      · exact .inl ⟨f, pc', h⟩
      · exact .inr ⟨none, h⟩
  have hown : ∀ o, o ≠ 0 → m.owns o = [] := by
    intro o ho
    rcases hmv.owns with ⟨howns, -⟩ | ⟨o', f, hcur, -, howns⟩
    · rw [howns]; exact hI.owner o ho
    · obtain rfl : 0 = o' := by
        rcases hcase with ⟨a, v, pc, hpc, hcall⟩ | ⟨d, buf, f, pc, hpc, hcall⟩ <;>
          simp_all
      rw [howns, Function.update_of_ne ho]; exact hI.owner o ho
  refine ⟨c', ⟨hI', hlive, hmv.capacity.trans hI.capacity, hown, hlinked, ?_,
    threads_step ({ s with mem := m }) hI hev hmv.others (fun _ _ => rfl)
      (fun u g _ hg => (hmv.same 0 g (hI.owned_of_held hg)).1) hthread⟩, ?_⟩
  · rcases hmv.owns with ⟨howns, hret⟩ | ⟨o, f, hcur, hret, howns⟩
    · refine hI.placed.congr (fun g => by rw [howns]) fun g p => ?_
      cases p with
      | chain => rfl
      | call u =>
        by_cases hu : u = t
        · subst hu
          refine iff_of_false ?_ (hnone g)
          rcases hcase with ⟨a, v, pc, hpc, hcall⟩ | ⟨d, buf, f, pc, hpc, hcall⟩
          · rcases hmv.alloc 0 pc hcall with ⟨pc', h'⟩ | ⟨r, h'⟩
            · simp [At, hpc, h', Pc.held, AllocPc.held]
            · cases r with
              | none => simp [At, hpc, h', Pc.held, AllocPc.held]
              | some f => exact absurd h' (hret f)
          · simp [At, hpc, Pc.held]
        · simp only [At, hmv.others u hu]
    · obtain ⟨a, v, pc, hpc, hcall⟩ | ⟨d, buf, f', pc, hpc, hcall⟩ := hcase
      · obtain ⟨rfl, rfl⟩ : 0 = o ∧ pc = .count f := by simpa [hcall] using hcur
        have hf : f ∉ s.mem.owns 0 := hI.pool.not_owned_of_held (t := t) (by rw [hcall]; rfl) 0
        refine hI.placed.change (i := f) (q := .call t) (fun g hg => by simp [howns, hg])
          (fun g hg p => ?_) (by simp [howns]) fun p => ?_
        · cases p with
          | chain => rfl
          | call u =>
            by_cases hu : u = t
            · subst hu
              refine iff_of_false ?_ (hnone g)
              simpa [At, hpc, hret, Pc.held, AllocPc.held] using Ne.symm hg
            · simp only [At, hmv.others u hu]
        · cases p with
          | chain => simpa [At] using fun hc => hf (hI.owned_of_mem hc)
          | call u =>
            by_cases hu : u = t
            · subst hu; simp [At, hpc, hret, Pc.held, AllocPc.held]
            · simp only [At, hmv.others u hu, Place.call.injEq, hu, iff_false]
              exact fun hg => hf (hI.owned_of_held hg)
      · simp [hcall] at hcur
  · refine ⟨⟨[], ?_, by simp⟩, fun _ _ => rfl, hmv.others, rfl,
      fun g hg _ => (hmv.same 0 g hg).2.1, fun _ => ⟨rfl, fun g hg => (hmv.same 0 g hg).1⟩,
      fun h => by simp [hout] at h⟩
    rcases hcase with ⟨a, v, pc, hpc, hcall⟩ | ⟨d, buf, f, pc, hpc, hcall⟩
    · show Moves _ _ _ _ (s.pcs t) (s.pcs t) _ _
      rw [hpc]; exact .alloc
    · show Moves _ _ _ _ (s.pcs t) (s.pcs t) _ _
      rw [hpc]; exact .free

lemma Inv.go (hI : Inv cap s c₁ c₂)
    (hheld : ∀ g, pc.held (s.mem.calls t) = some g ↔ At s c₂ g (.call t))
    (hok : ThreadOk s.ends s.mem.cells c₂ (s.mem.calls t) pc) : Inv cap (s.go t pc) c₁ c₂ where
  pool := hI.pool
  live := hI.live
  capacity := hI.capacity
  owner := hI.owner
  linked := hI.linked
  placed := hI.placed.congr (fun _ => Iff.rfl) fun g p => by
    cases p with
    | chain => rfl
    | call u =>
      by_cases hu : u = t
      · subst hu
        simpa only [At, go_self, go_mem] using hheld g
      · simp only [At, go_ne hu, go_mem]
  threads := threads_step (s.go t pc) hI .refl (fun _ _ => rfl) (fun _ hu => go_ne hu)
    (fun _ _ _ _ => rfl) (by rw [go_self]; exact hok)

lemma Inv.note (hI : Inv cap s c₁ c₂) (e : Event V) : Inv cap (s.note e) c₁ c₂ :=
  ⟨hI.pool, hI.live, hI.capacity, hI.owner, hI.linked,
    hI.placed.congr (fun _ => Iff.rfl) fun g p => by cases p <;> rfl, hI.threads⟩

lemma Inv.setCount (hI : Inv cap s c₁ c₂) (k : ℕ) : Inv cap { s with count := k } c₁ c₂ :=
  ⟨hI.pool, hI.live, hI.capacity, hI.owner, hI.linked,
    hI.placed.congr (fun _ => Iff.rfl) fun g p => by cases p <;> rfl, hI.threads⟩

lemma Inv.writeHeld (hI : Inv cap s c₁ c₂) (hn : At s c₂ n (.call t)) (hm : Mild s.mem.cells C)
    (hs : ∀ g, g ≠ n → Same s.mem.cells C g)
    (hok : ThreadOk s.ends C c₂ (s.mem.calls t) (s.pcs t)) :
    Inv cap (s.setCells C) c₁ c₂ := by
  have hchain : ∀ g ∈ c₂, Same s.mem.cells C g := fun g hg =>
    hs g (by rintro rfl; exact hI.not_mem_of_held hn hg)
  refine ⟨hI.poolSetCells hm fun g hg => hs g (by rintro rfl; exact hg (hI.owned_of_held hn)),
    hI.live, hI.capacity, hI.owner, hI.linked.of_same hchain,
    hI.placed.congr (fun _ => Iff.rfl) fun g p => by cases p <;> rfl,
    threads_step (s.setCells C) (t := t) hI (.of_same hm hchain) (fun _ _ => rfl)
      (fun _ _ => rfl) (fun u g hu hg => (hs g ?_).1) hok⟩
  rintro rfl
  exact hu (hI.held_inj hn hg)

lemma enqueueAlloc_step (hI : Inv cap s c₁ c₂) {a : ℕ} {v : V} {pc : AllocPc}
    (hpc : s.pcs t = .enqueueAlloc a v pc) (hout : (s.mem.calls t).outside = true)
    (h : queueEnqueue s t weak (.enqueueAlloc a v pc) = some s') :
    Inv cap s' c₁ c₂ ∧ Moved s s' t c₂ c₂ := by
  have hok := hI.threads t
  rw [hpc] at hok
  cases pc with
  | alloc =>
    -- the pool has answered
    rcases hok with ⟨pc, hcall⟩ | ⟨r, hcall⟩
    · simp [hcall, Pool.Call.outside] at hout
    · cases r with
      | none =>
        obtain rfl := by simpa [queueEnqueue, queueAllocValue, hcall] using h
        refine ⟨(hI.note (.failed a .enomem)).go ?_ hout, ⟨_, ?_, rfl⟩, fun _ => go_ne,
          fun _ _ => rfl, rfl, fun _ _ _ => rfl, fun h => by simp [hout] at h,
        fun _ => ⟨rfl, fun _ _ => rfl⟩⟩
        · simp [At, QueueState.note, hpc, hcall, Pc.held, AllocPc.held]
        · rw [go_self, hpc]; exact .nomem hcall
      | some n =>
        obtain rfl := by simpa [queueEnqueue, queueAllocValue, hcall] using h
        refine ⟨hI.go ?_ hout, ⟨[], ?_, by simp [QueueState.setCells]⟩, fun _ => go_ne,
          fun _ _ => rfl, rfl, fun _ _ _ => rfl, fun h => by simp [hout] at h,
        fun _ => ⟨rfl, fun _ _ => rfl⟩⟩
        · simp [At, hpc, hcall, Pc.held, AllocPc.held]
        · rw [go_self, hpc]; exact .alloc
  | init n =>
    obtain rfl := by simpa [queueEnqueue, queueAllocValue] using h
    have hn : At s c₂ n (.call t) := by simp [At, hpc, Pc.held, AllocPc.held]
    have hI' := hI.writeHeld (C := s.mem.cells.write n queueValueMaker) hn mild_write
      (fun g hg => same_write hg) (by rw [hpc]; exact hout)
    refine ⟨hI'.go ?_ ⟨hout, by simp [QueueState.setCells, queueValueMaker]⟩,
      ⟨[], ?_, by simp [QueueState.setCells]⟩, fun _ => go_ne, fun _ _ => rfl, rfl,
      fun _ _ _ => rfl, fun h => by simp [hout] at h, fun _ => ⟨rfl, fun g hg => write_ne _ _ ?_⟩⟩
    · simp [At, QueueState.setCells, hpc, Pc.held, AllocPc.held]
    · rw [go_self, hpc]; exact .alloc
    · rintro rfl
      exact hg (hI.owned_of_held hn)
  | copy n =>
    obtain rfl := by simpa [queueEnqueue, queueAllocValue] using h
    have hn : At s c₂ n (.call t) := by simp [At, hpc, Pc.held, AllocPc.held]
    have hI' := hI.writeHeld (C := s.mem.cells.setData n (some (a, v))) hn mild_setData
      (fun g hg => same_setData hg) (by rw [hpc]; exact hok)
    refine ⟨hI'.go ?_ ⟨hout, trivial, fun _ => hok.2⟩, ⟨[], ?_, by simp [QueueState.setCells]⟩,
      fun _ => go_ne, fun _ _ => rfl, rfl, fun g _ hg => setData_ne _ _ ?_,
      fun h => by simp [hout] at h, fun _ => ⟨rfl, fun _ _ => rfl⟩⟩
    · simp [At, QueueState.setCells, hpc, Pc.held, AllocPc.held, PutPc.linked]
    · rw [go_self, hpc]; exact .write (by simp [QueueState.setCells])
    · rintro rfl
      exact hg hn

lemma enqueueLoop_step (hI : Inv cap s c₁ c₂) {a : ℕ} {pc : PutPc ℕ}
    (hpc : s.pcs t = .enqueueLoop a n pc) (hfresh : PutFresh weak s.ends s.mem.cells c₂ pc)
    (h : queueEnqueue s t weak (.enqueueLoop a n pc) = some s') :
    ∃ c', Inv cap s' c₁ c' ∧ Moved s s' t c₂ c' := by
  have hok := hI.threads t
  rw [hpc] at hok
  obtain ⟨hout, hput, hnull⟩ := hok
  obtain ⟨E', C', r, hstep, hs'⟩ := by simpa [queueEnqueue] using h
  have hdata := putStep_data hstep
  have hn : pc.linked = false → At s c₂ n (.call t) := fun hlk => by simp [At, hpc, Pc.held, hlk]
  obtain ⟨c', hL', hev, hok', hcase⟩ := put_step hI.linked hput hfresh
    (fun hlk => ⟨hI.not_mem_of_held (hn hlk), hnull hlk⟩) hstep
  rcases hcase with ⟨rfl, rfl, hend, hlk⟩ | ⟨hlk, rfl, ⟨tl, rfl⟩, p, k, j, hc, hk, rfl⟩
  · have hI' : ∀ pc' : Pc V, pc'.held (s.mem.calls t) = (s.pcs t).held (s.mem.calls t) →
        ThreadOk E' s.mem.cells c' (s.mem.calls t) pc' →
        Inv cap ({ s with ends := E' }.go t pc') c₁ c' := by
      intro pc' hheld hthread
      refine ⟨hI.pool, hI.live, hI.capacity, hI.owner, hL',
        hI.placed.congr (fun _ => Iff.rfl) fun g p => ?_,
        threads_step ({ s with ends := E' }.go t pc') hI hev (fun _ _ => rfl)
          (fun _ => go_ne) (fun _ _ _ _ => rfl) (by rw [go_self]; exact hthread)⟩
      cases p with
      | chain => rfl
      | call u =>
        by_cases hu : u = t
        · subst hu; simp only [At, go_self, go_mem, hheld]
        · simp only [At, go_ne hu, go_mem]
    cases r with
    | none =>
      obtain rfl := hs'
      have hlinked := hend rfl
      refine ⟨c', (hI' (.returned (.ok none)) ?_ hout).note (.enqueued a), ⟨_, ?_, rfl⟩,
        fun _ => go_ne, fun _ _ => rfl, rfl, fun _ _ _ => rfl, fun h => by simp [hout] at h,
        fun _ => ⟨rfl, fun _ _ => rfl⟩⟩
      · simp [hpc, Pc.held, hlinked]
      · rw [go_self, hpc]; exact .done hlinked
    | some pc' =>
      obtain rfl := hs'
      have hlinked := hlk pc' rfl
      refine ⟨c', hI' (.enqueueLoop a n pc') ?_ ⟨hout, hok' pc' rfl, fun hl => ?_⟩,
        ⟨[], ?_, by simp [QueueState.setCells]⟩, fun _ => go_ne, fun _ _ => rfl, rfl,
        fun _ _ _ => rfl, fun h => by simp [hout] at h, fun _ => ⟨rfl, fun _ _ => rfl⟩⟩
      · simp [hpc, Pc.held, hlinked]
      · exact hnull (hlinked ▸ hl)
      · rw [go_self, hpc]; exact .loop rfl hlinked
  · -- the node becomes the last of the chain
    obtain rfl := hs'
    have hkc : k ∈ c₂ := by rw [hc]; simp
    have hnt := hn hlk
    have hkn : ∀ u g, At s c₂ g (.call u) → g ≠ k := by
      rintro u g hg rfl
      exact hI.not_mem_of_held hg hkc
    refine ⟨c₂ ++ [n], ⟨?_, hI.live, hI.capacity, hI.owner, hL', ?_,
      threads_step _ hI hev (fun _ _ => rfl) (fun _ => go_ne)
        (fun u g _ hg => setLink_ne _ _ (hkn u g hg)) ?_⟩, ⟨[], ?_, by simp [QueueState.setCells]⟩,
      fun _ => go_ne, fun _ _ => rfl, rfl, fun _ _ _ => rfl,
      fun h => by simp [hout] at h, fun _ => ⟨rfl, fun g hg => setLink_ne _ _ ?_⟩⟩
    · refine hI.poolSetCells (mild_setLink hk) fun g hg => same_setLink ?_
      rintro rfl
      exact hg (hI.owned_of_mem hkc)
    · refine hI.placed.change (i := n) (q := .chain) (fun _ _ => Iff.rfl) (fun g hg p => ?_)
        (hI.owned_of_held hnt) fun p => ?_
      · cases p with
        | chain => simp [At, hg]
        | call u =>
          by_cases hu : u = t
          · subst hu
            refine iff_of_false (by simp [At, Pc.held, PutPc.linked]) ?_
            simpa [At, hpc, Pc.held, hlk] using Ne.symm hg
          · simp only [At, go_ne hu]; rfl
      · cases p with
        | chain => simp [At]
        | call u =>
          by_cases hu : u = t
          · subst hu; simp [At, Pc.held, PutPc.linked]
          · simp only [At, go_ne hu, reduceCtorEq, iff_false]
            exact fun hg => hu (hI.held_inj hnt hg)
    · rw [go_self]
      exact ⟨hout, hok' _ rfl, by simp [PutPc.linked]⟩
    · rw [go_self, hpc]; exact .link rfl hlk rfl
    · rintro rfl
      exact hg (hI.owned_of_mem hkc)

lemma bind_data {D : Type*} (C : Cells ℕ (Option D)) {w : Option ℕ} {k : ℕ} (h : w = some k) :
    w.bind C.data = C.data k := by rw [h]; rfl

lemma dequeueLoop_step (hI : Inv cap s c₁ c₂) {d : ℕ} {val : Bool} {pc : TakePc ℕ (Item V)}
    (hpc : s.pcs t = .dequeueLoop d val pc) (hfresh : TakeFresh weak s.ends pc)
    (h : queueDequeue s t weak (.dequeueLoop d val pc) = some s') :
    ∃ c', Inv cap s' c₁ c' ∧ Moved s s' t c₂ c' := by
  have hok := hI.threads t
  rw [hpc] at hok
  obtain ⟨hout, htake⟩ := hok
  obtain ⟨E', r, hstep, hs'⟩ := by simpa [queueDequeue] using h
  have hnone : ∀ g, ¬ At s c₂ g (.call t) := by simp [At, hpc, Pc.held]
  obtain ⟨c', hL', hev, hcase⟩ := take_step hI.linked htake hfresh hstep
  rcases hcase with ⟨rfl, hnt, hmore⟩ | ⟨k, l, q, buf, rfl, rfl, rfl, hl, rfl⟩
  · have hI' : ∀ pc' : Pc V, pc'.held (s.mem.calls t) = none →
        ThreadOk E' s.mem.cells c' (s.mem.calls t) pc' →
        Inv cap ({ s with ends := E' }.go t pc') c₁ c' := by
      intro pc' hheld hthread
      refine ⟨hI.pool, hI.live, hI.capacity, hI.owner, hL',
        hI.placed.congr (fun _ => Iff.rfl) fun g p => ?_,
        threads_step ({ s with ends := E' }.go t pc') hI hev (fun _ _ => rfl)
          (fun _ => go_ne) (fun _ _ _ _ => rfl) (by rw [go_self]; exact hthread)⟩
      cases p with
      | chain => rfl
      | call u =>
        by_cases hu : u = t
        · subst hu
          exact iff_of_false (by simp [At, hheld]) (hnone g)
        · simp only [At, go_ne hu, go_mem]
    cases r with
    | took k buf => exact absurd rfl (hnt k buf)
    | empty =>
      obtain rfl := hs'
      refine ⟨c', (hI' (.returned (.fail .enoent)) rfl hout).note (.failed d .enoent),
        ⟨_, ?_, rfl⟩, fun _ => go_ne, fun _ _ => rfl, rfl, fun _ _ _ => rfl,
        fun h => by simp [hout] at h,
        fun _ => ⟨rfl, fun _ _ => rfl⟩⟩
      rw [go_self, hpc]; exact .empty
    | more pc' =>
      obtain rfl := hs'
      refine ⟨c', hI' (.dequeueLoop d val pc') rfl ⟨hout, hmore pc' rfl⟩, ⟨[], ?_, by simp⟩,
        fun _ => go_ne, fun _ _ => rfl, rfl, fun _ _ _ => rfl, fun h => by simp [hout] at h,
        fun _ => ⟨rfl, fun _ _ => rfl⟩⟩
      rw [go_self, hpc]; exact .look
  · -- the first node leaves the chain and goes back to the pool
    obtain rfl := hs'
    have hk : k ∈ s.mem.owns 0 := hI.owned_of_mem (n := k) (by simp)
    have hitem : E'.head.ptr.bind s.mem.cells.data = s.mem.cells.data l :=
      bind_data s.mem.cells (by rw [hL'.head]; rfl)
    have hnd := hI.pool.nodup 0
    have hkl : k ∉ l :: q := (List.nodup_cons.mp hI.linked.nodup).1
    refine ⟨l :: q, ⟨Pool.callFree_inv hI.pool hout hk,
      Pool.Live.setCall (fun u _ => hI.live u) (by simp), hI.capacity,
      fun o ho => (Function.update_of_ne ho _ _).trans (hI.owner o ho), hL', ?_,
      threads_step _ hI hev (fun _ hu => Pool.setCall_ne hu) (fun _ => go_ne)
        (fun _ _ _ _ => rfl) ?_⟩, ⟨[.take d (s.mem.cells.data l)], ?_, ?_⟩, fun _ => go_ne,
      fun _ hu => Pool.setCall_ne hu, rfl, fun _ _ _ => rfl, fun h => by simp [hout] at h,
        fun _ => ⟨rfl, fun _ _ => rfl⟩⟩
    · refine hI.placed.remove (i := k) (fun g hg => ?_) (fun g hg p => ?_) ?_ fun p => ?_
      · simp [QueueState.note, mempoolFree, List.mem_erase_of_ne hg]
      · cases p with
        | chain => simp [At, hg]
        | call u =>
          by_cases hu : u = t
          · subst hu
            exact iff_of_false (by simp [At, Pc.held]) (hnone g)
          · simp only [At, go_ne hu, go_mem]
            simp only [QueueState.note, mempoolFree, Pool.setCall_ne hu]
      · simp [QueueState.note, mempoolFree, hnd.mem_erase_iff]
      · cases p with
        | chain => simpa [At] using hkl
        | call u =>
          by_cases hu : u = t
          · subst hu; simp [At, Pc.held]
          · simp only [At, go_ne hu, go_mem]
            simp only [QueueState.note, mempoolFree, Pool.setCall_ne hu]
            exact fun hg => hI.not_mem_of_held (t := u) hg (by simp)
    · rw [go_self]
      exact .inl ⟨k, .init, by simp [QueueState.note, mempoolFree]⟩
    · rw [go_self, hpc]; exact .take rfl
    · rw [← hitem]; rfl

lemma dequeueFree_step (hI : Inv cap s c₁ c₂) {d : ℕ} {buf : Option (Item V)}
    (hpc : s.pcs t = .dequeueFree d buf) (hout : (s.mem.calls t).outside = true)
    (h : queueDequeue s t weak (.dequeueFree d buf) = some s') :
    Inv cap s' c₁ c₂ ∧ Moved s s' t c₂ c₂ := by
  obtain rfl := by simpa [queueDequeue] using h
  refine ⟨(hI.note (.dequeued d buf)).go (by simp [At, QueueState.note, hpc, Pc.held]) hout,
    ⟨_, ?_, rfl⟩, fun _ => go_ne, fun _ _ => rfl, rfl, fun _ _ _ => rfl,
    fun h => by simp [hout] at h,
        fun _ => ⟨rfl, fun _ _ => rfl⟩⟩
  rw [go_self, hpc]; exact .ret

/-- **One step**: a step of a thread inside a call keeps the queue sound, and does one of the
things listed in `Moves`. -/
theorem threadStep_inv (hI : Inv cap s c₁ c₂)
    (hfresh : Pool.CallFresh weak s.mem.pool.ends s.mem.cells c₁ (s.mem.calls t))
    (hfresh' : PcFresh weak s.ends s.mem.cells c₂ (s.pcs t))
    (h : threadStep s t weak = some s') :
    ∃ c₁' c₂', Inv cap s' c₁' c₂' ∧ Moved s s' t c₂ c₂' ∧
      ((s.mem.calls t).outside = true → c₁' = c₁) := by
  unfold threadStep at h
  cases hout : (s.mem.calls t).outside with
  | false =>
    rw [hout] at h
    obtain ⟨m, hm, rfl⟩ := by simpa using h
    obtain ⟨c', hI', hmv⟩ := pool_step hI hout hfresh hm
    exact ⟨c', c₂, hI', hmv, by simp⟩
  | true =>
    rw [hout, cond_true, queueStep] at h
    have hok := hI.threads t
    cases hpc : s.pcs t with
    | idle | returned => simp [hpc] at h
    | createPool | createAlloc | createEnds => rw [hpc] at hok; exact hok.elim
    | enqueueAlloc a v pc =>
      rw [hpc] at h
      obtain ⟨hI', hmv⟩ := enqueueAlloc_step hI hpc hout h
      exact ⟨c₁, c₂, hI', hmv, fun _ => rfl⟩
    | enqueueLoop a n pc =>
      rw [hpc] at h hfresh'
      obtain ⟨c', hI', hmv⟩ := enqueueLoop_step hI hpc hfresh' h
      exact ⟨c₁, c', hI', hmv, fun _ => rfl⟩
    | dequeueLoop d val pc =>
      rw [hpc] at h hfresh'
      obtain ⟨c', hI', hmv⟩ := dequeueLoop_step hI hpc hfresh' h
      exact ⟨c₁, c', hI', hmv, fun _ => rfl⟩
    | dequeueFree d buf =>
      rw [hpc] at h
      obtain ⟨hI', hmv⟩ := dequeueFree_step hI hpc hout h
      exact ⟨c₁, c₂, hI', hmv, fun _ => rfl⟩

/-! ### Calls -/

lemma Inv.mempoolAlloc (hI : Inv cap s c₁ c₂) (hout : (s.pcs t).outside = true) {a : ℕ} {v : V} :
    Inv cap ({ s with mem := mempoolAlloc s.mem t }.go t (.enqueueAlloc a v .alloc)) c₁ c₂ := by
  have hok := hI.threads t
  have hout' : (s.mem.calls t).outside = true := by
    cases hpc : s.pcs t <;> simp_all [ThreadOk, Pc.outside]
  have hnone : (s.pcs t).held (s.mem.calls t) = none := by
    cases hpc : s.pcs t <;> simp_all [Pc.outside, Pc.held]
  refine ⟨hI.pool.setCall ?_ trivial, Pool.Live.setCall (fun u _ => hI.live u) (by simp),
    hI.capacity, hI.owner, hI.linked, hI.placed.congr (fun _ => Iff.rfl) fun g p => ?_,
    threads_step _ hI .refl (fun _ hu => Pool.setCall_ne hu) (fun _ => go_ne)
      (fun _ _ _ _ => rfl) ?_⟩
  · cases hc : s.mem.calls t <;> simp_all [Pool.Call.outside, Pool.Call.held]
  · cases p with
    | chain => rfl
    | call u =>
      by_cases hu : u = t
      · subst hu
        refine iff_of_false ?_ (by simp [At, hnone])
        simp [At, Pc.held, AllocPc.held, Queue.mempoolAlloc]
      · simp only [At, go_ne hu, go_mem, Queue.mempoolAlloc, Pool.setCall_ne hu]
  · rw [go_self]
    exact .inl ⟨_, by simp [Queue.mempoolAlloc]; rfl⟩

lemma Inv.goOutside (hI : Inv cap s c₁ c₂) (hout : (s.pcs t).outside = true)
    (hpc : pc.held (s.mem.calls t) = none)
    (hok : (s.mem.calls t).outside = true →
      ThreadOk s.ends s.mem.cells c₂ (s.mem.calls t) pc) : Inv cap (s.go t pc) c₁ c₂ := by
  have hok' := hI.threads t
  refine hI.go (fun g => ?_) (hok ?_)
  · cases h : s.pcs t <;> simp_all [Pc.outside, Pc.held, At]
  · cases h : s.pcs t <;> simp_all [ThreadOk, Pc.outside]

end CoopTasks.Queue
