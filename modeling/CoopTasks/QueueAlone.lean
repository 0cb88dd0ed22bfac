import CoopTasks.QueueLossless

/-!
A thread that is the only one inside a call of the queue: it can always take its next step, and
`rank` falls with every step unless a compare-exchange fails spuriously.
-/

namespace CoopTasks.Queue

open CoopTasks.Chain CoopTasks.Append CoopTasks.Advance CoopTasks.Placement CoopTasks.Alone
open CoopTasks.Pool (PoolState Errno)

variable {V : Type*}

def Pc.Alone (E : Ends ℕ) (C : Cells ℕ (Item V)) : Pc V → Prop
  | .enqueueLoop _ _ pc => PutAlone E C pc
  | .dequeueLoop _ _ pc => TakeAlone E C pc
  | _ => True

def Pc.rank : Pc V → ℕ
  | .enqueueAlloc _ _ .alloc => 40
  | .enqueueAlloc _ _ (.init _) => 30
  | .enqueueAlloc _ _ (.copy _) => 20
  | .enqueueLoop _ _ pc => putRank pc
  | .dequeueLoop _ _ pc => takeRank pc + 20
  | .dequeueFree _ _ => 1
  | _ => 0

/-- How far the thread `t` is from the end of its call. -/
def rank (s : QueueState V) (t : ℕ) : ℕ :=
  6 * lag s.mem.pool.ends s.mem.cells + 6 * lag s.ends s.mem.cells +
    (s.mem.calls t).rank + (s.pcs t).rank

/-- The thread `t` is the only one inside a call. -/
structure Running (cap t : ℕ) (s : QueueState V) (c₁ c₂ : List ℕ) : Prop where
  inv : Inv cap s c₁ c₂
  others : ∀ u, u ≠ t → (s.pcs u).outside = true
  poolNear : TailNear s.mem.pool.ends s.mem.cells
  near : TailNear s.ends s.mem.cells
  call : (s.mem.calls t).Alone s.mem.pool.ends s.mem.cells
  alone : (s.pcs t).Alone s.ends s.mem.cells
  nomem : ∀ a v, s.pcs t = .enqueueAlloc a v .alloc → s.mem.calls t = .returned none →
    c₁.length = 1

variable {s s' : QueueState V} {cap t : ℕ} {c₁ c₂ c₁' c₂' : List ℕ} {weak : Bool}
  {pc : Pc V}

lemma Inv.call_outside (hI : Inv cap s c₁ c₂) (h : (s.pcs t).outside = true) :
    (s.mem.calls t).outside = true := by
  have hok := hI.threads t
  cases hpc : s.pcs t <;> simp_all [Pc.outside, ThreadOk]

lemma call_held {D : Type*} {call : Pool.Call D} (h : call.outside = true) : call.held = none := by
  cases call <;> simp_all [Pool.Call.outside, Pool.Call.held]

/-- With one thread inside a call and not inside the pool, the chains and the node it may hold
are all the nodes. -/
lemma Inv.length_add (hI : Inv cap s c₁ c₂) (hothers : ∀ u, u ≠ t → (s.pcs u).outside = true)
    (hcall : (s.mem.calls t).held = none) :
    c₁.length + (c₂.length + ((s.pcs t).held (s.mem.calls t)).toList.length) = cap + 2 := by
  have hnone : ∀ u, u ≠ t → ∀ g, ¬ At s c₂ g (.call u) := by
    intro u hu g
    have := hothers u hu
    cases hpc : s.pcs u <;> simp_all [Pc.outside, At, Pc.held]
  have hperm : (c₂ ++ ((s.pcs t).held (s.mem.calls t)).toList).Perm (s.mem.owns 0) := by
    refine (List.perm_ext_iff_of_nodup ?_ (hI.pool.nodup 0)).mpr fun g => ?_
    · refine List.nodup_append.mpr ⟨hI.linked.nodup, ?_, fun g hg k hk hgk => ?_⟩
      · cases (s.pcs t).held (s.mem.calls t) <;> simp
      · subst hgk
        exact hI.not_mem_of_held (t := t) (by simpa [At, Option.mem_toList] using hk) hg
    · rw [List.mem_append, Option.mem_toList]
      constructor
      · rintro (hg | hg)
        · exact hI.owned_of_mem hg
        · exact hI.owned_of_held (t := t) hg
      · intro hg
        obtain ⟨p, hp⟩ := hI.placed.one g hg
        cases p with
        | chain => exact .inl hp
        | call u =>
          by_cases hu : u = t
          · subst hu; exact .inr hp
          · exact absurd hp (hnone u hu g)
  have hlen := hperm.length_eq
  rw [List.length_append] at hlen
  rw [hlen]
  refine hI.pool.length_add (fun u => ?_) hI.owner
  by_cases hu : u = t
  · subst hu; exact hcall
  · exact call_held (hI.call_outside (hothers u hu))

lemma outside_alone {D : Type*} {call : Pool.Call D} {E : Ends ℕ} {C : Cells ℕ D}
    (h : call.outside = true) : call.Alone E C ∧ call.rank = 0 := by
  cases call <;> simp_all [Pool.Call.outside, Pool.Call.Alone, Pool.Call.rank]

lemma pool_kept (hR : Running cap t s c₁ c₂) (hmv : Moved s s' t c₂ c₂')
    (hout : (s.mem.calls t).outside = true) :
    TailNear s'.mem.pool.ends s'.mem.cells ∧
      lag s'.mem.pool.ends s'.mem.cells = lag s.mem.pool.ends s.mem.cells := by
  obtain ⟨hpool, hlink⟩ := hmv.own hout
  have hsame : ∀ g ∈ c₁, s'.mem.cells.link g = s.mem.cells.link g := fun g hg =>
    hlink g (hR.inv.pool.not_owned_of_mem hg 0)
  rw [hpool]
  exact ⟨hR.poolNear.congr hR.inv.pool.linked hsame, lag_congr hR.inv.pool.linked hsame⟩

lemma queue_kept (hR : Running cap t s c₁ c₂) (hmv : Moved s s' t c₂ c₂')
    (hout : (s.mem.calls t).outside = false) :
    TailNear s'.ends s'.mem.cells ∧ lag s'.ends s'.mem.cells = lag s.ends s.mem.cells := by
  obtain ⟨hends, hlink⟩ := hmv.inside hout
  have hsame : ∀ g ∈ c₂, s'.mem.cells.link g = s.mem.cells.link g := fun g hg =>
    hlink g (hR.inv.owned_of_mem hg)
  rw [hends]
  exact ⟨hR.near.congr hR.inv.linked hsame, lag_congr hR.inv.linked hsame⟩

/-- What a step of a thread that runs alone does. -/
structure Stepped (cap t : ℕ) (weak : Bool) (s s' : QueueState V) (c₁ c₂ c₁' c₂' : List ℕ) :
    Prop where
  step : threadStep s t weak = some s'
  running : Running cap t s' c₁' c₂'
  moved : Moved s s' t c₂ c₂'
  rank : weak = false → rank s' t < rank s t
  empty : ∀ d val pc r, s.pcs t = .dequeueLoop d val pc → s'.pcs t = .returned r → c₂.length = 1

lemma pool_alone (weak : Bool) (hR : Running cap t s c₁ c₂)
    (hout : (s.mem.calls t).outside = false) :
    ∃ s' c₁', Stepped cap t weak s s' c₁ c₂ c₁' c₂ := by
  have hI := hR.inv
  obtain ⟨m, hm, ha', hnear', hrank, hnone⟩ :=
    Pool.threadStep_alone weak hI.pool hI.live hout hR.call hR.poolNear
  obtain ⟨c', hI', hmv⟩ := pool_step hI hout (Pool.callAlone_fresh hR.call (hI.live t)) hm
  obtain ⟨hn, hlag⟩ := queue_kept hR hmv hout
  have hok := hI.threads t
  have hloop : (∀ a n pc, s.pcs t ≠ .enqueueLoop a n pc) ∧
      ∀ d val pc, s.pcs t ≠ .dequeueLoop d val pc := by
    constructor <;> intro _ _ _ hpc <;> simp [hpc, ThreadOk, hout] at hok
  refine ⟨_, c', by simp [threadStep, hout, hm], ⟨hI', hR.others, hnear', hn, ha', ?_, ?_⟩, hmv,
    fun hw => ?_, fun d val pc r hpc => absurd hpc (hloop.2 d val pc)⟩
  · cases hpc : s.pcs t with
    | enqueueLoop a n pc => exact absurd hpc (hloop.1 a n pc)
    | dequeueLoop d val pc => exact absurd hpc (hloop.2 d val pc)
    | _ => trivial
  · -- the pool's chain has not changed, as the other nodes have not
    intro a v hpc hret
    rw [hpc] at hok
    obtain ⟨pc, hcall⟩ : ∃ pc, s.mem.calls t = .alloc 0 pc := by
      rcases hok with h | ⟨r, h⟩
      · exact h
      · simp [h, Pool.Call.outside] at hout
    obtain ⟨hlen, hheld⟩ := hnone 0 pc hcall hret
    have h1 := hI.length_add hR.others hheld
    have h2 := hI'.length_add (t := t) hR.others (by rw [hret]; rfl)
    have hpc' : s.pcs t = .enqueueAlloc a v .alloc := hpc
    rw [hpc', hcall] at h1
    rw [hret] at h2
    simp only [hpc', Pc.held, AllocPc.held, Option.toList_none, List.length_nil] at h1 h2
    omega
  · have := hrank hw
    simp only [Queue.rank] at hlag ⊢
    omega

lemma own_alone (hR : Running cap t s c₁ c₂) (hout : (s.mem.calls t).outside = true)
    (hs : queueStep s t weak = some s') (hI : Inv cap s' c₁ c₂') (hmv : Moved s s' t c₂ c₂')
    (hnear : TailNear s'.ends s'.mem.cells)
    (hcall : (s'.mem.calls t).Alone s'.mem.pool.ends s'.mem.cells)
    (halone : (s'.pcs t).Alone s'.ends s'.mem.cells)
    (hnext : ∀ a v, s'.pcs t ≠ .enqueueAlloc a v .alloc)
    (hrank : weak = false →
      6 * lag s'.ends s'.mem.cells + (s'.mem.calls t).rank + (s'.pcs t).rank <
        6 * lag s.ends s.mem.cells + (s.pcs t).rank)
    (hempty : ∀ d val pc r, s.pcs t = .dequeueLoop d val pc → s'.pcs t = .returned r →
      c₂.length = 1) : Stepped cap t weak s s' c₁ c₂ c₁ c₂' := by
  obtain ⟨hn, hlag⟩ := pool_kept hR hmv hout
  refine ⟨by rw [threadStep, hout]; exact hs,
    ⟨hI, fun u hu => by rw [hmv.others u hu]; exact hR.others u hu, hn, hnear, hcall, halone,
      fun a v h => absurd h (hnext a v)⟩, hmv, fun hw => ?_, hempty⟩
  have := hrank hw
  rw [Queue.rank, Queue.rank, hlag, (outside_alone (E := s.ends) (C := s.mem.cells) hout).2]
  omega

lemma enqueueAlloc_alone (weak : Bool) (hR : Running cap t s c₁ c₂)
    (hout : (s.mem.calls t).outside = true) {a : ℕ} {v : V} {pc : AllocPc}
    (hpc : s.pcs t = .enqueueAlloc a v pc) : ∃ s', Stepped cap t weak s s' c₁ c₂ c₁ c₂ := by
  have hI := hR.inv
  have hok := hI.threads t
  rw [hpc] at hok
  -- whatever the step is, it touches no link of the chain
  have hclose : ∀ (C : Cells ℕ (Item V)) (u : QueueState V) (pc' : Pc V), u.ends = s.ends →
      u.mem = { s.mem with cells := C } → queueEnqueue s t weak (s.pcs t) = some (u.go t pc') →
      (∀ g ∈ c₂, C.link g = s.mem.cells.link g) → pc'.Alone s.ends C →
      (∀ a v, pc' ≠ .enqueueAlloc a v .alloc) → pc'.rank < (s.pcs t).rank →
      Stepped cap t weak s (u.go t pc') c₁ c₂ c₁ c₂ := by
    intro C u pc' hends hmem hs hlink halone hnext hrank
    rw [hpc] at hs
    obtain ⟨hI', hmv⟩ := enqueueAlloc_step hI hpc hout hs
    have hlag := lag_congr hI.linked hlink
    refine own_alone hR hout (by simp only [queueStep, hpc, hs]) hI' hmv ?_ ?_ ?_ ?_ (fun _ => ?_)
      (by simp [hpc])
    · rw [go_ends, go_mem, hends, hmem]
      exact hR.near.congr hI.linked hlink
    · rw [go_mem, hmem]
      exact (outside_alone hout).1
    · rw [go_self, go_ends, go_mem, hends, hmem]
      exact halone
    · rw [go_self]; exact hnext
    · rw [go_self, go_ends, go_mem, hends, hmem]
      simp only [hlag, (outside_alone (E := s.ends) (C := C) hout).2]
      omega
  cases pc with
  | alloc =>
    rcases hok with ⟨pc, hcall⟩ | ⟨r, hcall⟩
    · simp [hcall, Pool.Call.outside] at hout
    · cases r with
      | none =>
        exact ⟨_, hclose s.mem.cells ((s.setCells s.mem.cells).note (.failed a .enomem))
          (.returned (.fail .enomem)) rfl rfl (by simp [queueEnqueue, queueAllocValue, hpc, hcall])
          (fun _ _ => rfl) trivial (by simp) (by simp [hpc, Pc.rank])⟩
      | some n =>
        exact ⟨_, hclose s.mem.cells (s.setCells s.mem.cells) (.enqueueAlloc a v (.init n)) rfl rfl
          (by simp [queueEnqueue, queueAllocValue, hpc, hcall]) (fun _ _ => rfl) trivial (by simp)
          (by simp [hpc, Pc.rank])⟩
  | init n =>
    have hn : At s c₂ n (.call t) := by simp [At, hpc, Pc.held, AllocPc.held]
    refine ⟨_, hclose _ (s.setCells (s.mem.cells.write n queueValueMaker))
      (.enqueueAlloc a v (.copy n)) rfl rfl (by simp [queueEnqueue, queueAllocValue, hpc])
      (fun g hg => write_ne _ _ ?_) trivial (by simp) (by simp [hpc, Pc.rank])⟩
    rintro rfl
    exact hI.not_mem_of_held hn hg
  | copy n =>
    exact ⟨_, hclose _ (s.setCells (s.mem.cells.setData n (some (a, v))))
      (.enqueueLoop a n .loadTail) rfl rfl (by simp [queueEnqueue, queueAllocValue, hpc])
      (fun _ _ => rfl) trivial (by simp) (by simp [hpc, Pc.rank, putRank])⟩

lemma enqueueLoop_alone (weak : Bool) (hR : Running cap t s c₁ c₂)
    (hout : (s.mem.calls t).outside = true) {a n : ℕ} {pc : PutPc ℕ}
    (hpc : s.pcs t = .enqueueLoop a n pc) : ∃ s' c₂', Stepped cap t weak s s' c₁ c₂ c₁ c₂' := by
  have hI := hR.inv
  have hok := hI.threads t
  have ha := hR.alone
  rw [hpc] at hok ha
  obtain ⟨-, hput, hnull⟩ := hok
  have htail : s.ends.tail.ptr ≠ some n ∨ pc.linked = true := by
    cases hlk : pc.linked with
    | true => exact .inr rfl
    | false =>
      have hn : At s c₂ n (.call t) := by simp [At, hpc, Pc.held, hlk]
      exact .inl fun h => hI.not_mem_of_held hn (hI.linked.tail_mem h)
  obtain ⟨E', C', r, hstep, hnear', ha', hrank⟩ := put_alone weak hput ha hR.near hnull htail
  have hcall := (outside_alone (E := s.mem.pool.ends) (C := C') hout)
  cases r with
  | none =>
    have hs' : queueEnqueue s t weak (.enqueueLoop a n pc) = some
        ((({ s with ends := E' }.setCells C').note (.enqueued a)).go t (.returned (.ok none))) := by
      simp [queueEnqueue, hstep]
    obtain ⟨c₂', hI', hmv⟩ := enqueueLoop_step hI hpc (putAlone_fresh ha) hs'
    refine ⟨_, c₂', own_alone hR hout (by simp only [queueStep, hpc, hs']) hI' hmv hnear' hcall.1
      (by rw [go_self]; trivial) (by simp) (fun hw => ?_) (by simp [hpc])⟩
    have := hrank hw
    rw [go_self, hpc]
    show 6 * lag E' C' + (s.mem.calls t).rank + 0 < _ + putRank pc
    simp only [hcall.2, Option.elim_none] at this ⊢
    exact this
  | some pc' =>
    have hs' : queueEnqueue s t weak (.enqueueLoop a n pc) = some
        (({ s with ends := E' }.setCells C').go t (.enqueueLoop a n pc')) := by
      simp [queueEnqueue, hstep]
    obtain ⟨c₂', hI', hmv⟩ := enqueueLoop_step hI hpc (putAlone_fresh ha) hs'
    refine ⟨_, c₂', own_alone hR hout (by simp only [queueStep, hpc, hs']) hI' hmv hnear' hcall.1
      (by rw [go_self]; exact ha' pc' rfl) (by simp) (fun hw => ?_) (by simp [hpc])⟩
    have := hrank hw
    rw [go_self, hpc]
    show 6 * lag E' C' + (s.mem.calls t).rank + putRank pc' < _ + putRank pc
    simp only [hcall.2, Option.elim_some] at this ⊢
    exact this

lemma dequeueLoop_alone (weak : Bool) (hR : Running cap t s c₁ c₂)
    (hout : (s.mem.calls t).outside = true) {d : ℕ} {val : Bool} {pc : TakePc ℕ (Item V)}
    (hpc : s.pcs t = .dequeueLoop d val pc) : ∃ s' c₂', Stepped cap t weak s s' c₁ c₂ c₁ c₂' := by
  have hI := hR.inv
  have hok := hI.threads t
  have ha := hR.alone
  rw [hpc] at hok ha
  obtain ⟨-, htake⟩ := hok
  obtain ⟨E', r, hstep, hnear', ha', hempty, hrank, hlag⟩ :=
    take_alone weak hI.linked htake ha hR.near
  have hcall := (outside_alone (E := s.mem.pool.ends) (C := s.mem.cells) hout)
  cases r with
  | more pc' =>
    have hs' : queueDequeue s t weak (.dequeueLoop d val pc) = some
        ({ s with ends := E' }.go t (.dequeueLoop d val pc')) := by
      simp [queueDequeue, hstep]
    obtain ⟨c₂', hI', hmv⟩ := dequeueLoop_step hI hpc (takeAlone_fresh ha) hs'
    refine ⟨_, c₂', own_alone hR hout (by simp only [queueStep, hpc, hs']) hI' hmv hnear' hcall.1
      (by rw [go_self]; exact ha' pc' rfl) (by simp) (fun hw => ?_) (by simp)⟩
    have := hrank pc' rfl hw
    rw [go_self, hpc]
    show 6 * lag E' s.mem.cells + (s.mem.calls t).rank + (takeRank pc' + 20) <
      _ + (takeRank pc + 20)
    rw [hcall.2]
    omega
  | empty =>
    have hs' : queueDequeue s t weak (.dequeueLoop d val pc) = some
        (({ s with ends := E' }.note (.failed d .enoent)).go t (.returned (.fail .enoent))) := by
      simp [queueDequeue, hstep]
    obtain ⟨c₂', hI', hmv⟩ := dequeueLoop_step hI hpc (takeAlone_fresh ha) hs'
    refine ⟨_, c₂', own_alone hR hout (by simp only [queueStep, hpc, hs']) hI' hmv hnear' hcall.1
      (by rw [go_self]; trivial) (by simp) (fun hw => ?_) fun _ _ _ _ _ _ => hempty rfl⟩
    have := hlag (by simp)
    rw [go_self, hpc]
    show 6 * lag E' s.mem.cells + (s.mem.calls t).rank + 0 < _ + (takeRank pc + 20)
    rw [hcall.2]
    omega
  | took n buf =>
    have hs' : queueDequeue s t weak (.dequeueLoop d val pc) = some
        (({ s with ends := E', mem := mempoolFree s.mem t n }.note
          (.take d (E'.head.ptr.bind s.mem.cells.data))).go t (.dequeueFree d buf)) := by
      simp [queueDequeue, hstep]
    obtain ⟨c₂', hI', hmv⟩ := dequeueLoop_step hI hpc (takeAlone_fresh ha) hs'
    have hfree : (mempoolFree s.mem t n).calls t = .free n .init := Pool.setCall_self
    refine ⟨_, c₂', own_alone hR hout (by simp only [queueStep, hpc, hs']) hI' hmv hnear' ?_
      (by rw [go_self]; trivial) (by simp) (fun hw => ?_) (by simp)⟩
    · show ((mempoolFree s.mem t n).calls t).Alone _ _
      rw [hfree]; trivial
    · have := hlag (by simp)
      rw [go_self, hpc]
      show 6 * lag E' s.mem.cells + ((mempoolFree s.mem t n).calls t).rank + 1 <
        _ + (takeRank pc + 20)
      rw [hfree]
      simp only [Pool.Call.rank, Pool.PutCall.rank]
      omega

/-- **Progress**: a thread that runs alone can always take its next step, and is closer to its
end after it unless a compare-exchange failed spuriously. -/
theorem threadStep_alone (weak : Bool) (hR : Running cap t s c₁ c₂)
    (hin : (s.pcs t).outside = false) : ∃ s' c₁' c₂', Stepped cap t weak s s' c₁ c₂ c₁' c₂' := by
  cases hout : (s.mem.calls t).outside with
  | false =>
    obtain ⟨s', c₁', h⟩ := pool_alone weak hR hout
    exact ⟨s', c₁', c₂, h⟩
  | true =>
    have hok := hR.inv.threads t
    cases hpc : s.pcs t with
    | idle | returned => simp [hpc, Pc.outside] at hin
    | createPool | createAlloc | createEnds => rw [hpc] at hok; exact hok.elim
    | enqueueAlloc a v pc =>
      obtain ⟨s', h⟩ := enqueueAlloc_alone weak hR hout hpc
      exact ⟨s', c₁, c₂, h⟩
    | enqueueLoop a n pc =>
      obtain ⟨s', c₂', h⟩ := enqueueLoop_alone weak hR hout hpc
      exact ⟨s', c₁, c₂', h⟩
    | dequeueLoop d val pc =>
      obtain ⟨s', c₂', h⟩ := dequeueLoop_alone weak hR hout hpc
      exact ⟨s', c₁, c₂', h⟩
    | dequeueFree d buf =>
      have hs' : queueDequeue s t weak (.dequeueFree d buf) = some
          ((s.note (.dequeued d buf)).go t (.returned (.ok buf))) := rfl
      obtain ⟨hI', hmv⟩ := dequeueFree_step hR.inv hpc hout hs'
      have hcall := outside_alone (E := s.mem.pool.ends) (C := s.mem.cells) hout
      refine ⟨_, c₁, c₂, own_alone hR hout (by simp only [queueStep, hpc, hs']) hI' hmv hR.near
        hcall.1 (by rw [go_self]; trivial) (by simp) (fun _ => ?_) (by simp [hpc])⟩
      rw [go_self, hpc]
      show 6 * lag s.ends s.mem.cells + (s.mem.calls t).rank + 0 < _ + 1
      rw [hcall.2]
      omega

end CoopTasks.Queue
