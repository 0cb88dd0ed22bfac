import CoopTasks.PoolAlone
import CoopTasks.PoolLayout

/-!
A memory pool whose calls run one at a time is a FIFO of fragments.

The client may overwrite all of a fragment between calls, its link included: a fragment gets
its link back when it is freed. Spurious failures of the weak compare-exchanges only delay a
call, as a pattern of them is finite.
-/

namespace CoopTasks.Pool

open CoopTasks.Chain CoopTasks.Append CoopTasks.Advance CoopTasks.Alone CoopTasks.SizeT
open CoopTasks.Machine

variable {D : Type*} {s s' : PoolState D} {n t : ℕ} {c c' : List ℕ} {weak : Bool}

/-! ### The FIFO -/

/-- What a client does: it calls the pool, or overwrites a fragment it was given. -/
inductive Op (D : Type*)
  | alloc
  | free (frag : ℕ)
  | clear
  | write (frag : ℕ) (link : Tagged ℕ) (data : D)

def Op.isClear : Op D → Bool
  | .clear => true
  | _ => false

/-- The free fragments in the order of their turn, and the outstanding ones. -/
structure Fifo where
  free : List ℕ
  out : List ℕ

/-- All fragments of a pool of capacity `n`, in address order. -/
def Fifo.full (n : ℕ) : Fifo := ⟨List.range (n + 1), []⟩

/-- The answer and what is left; `none` where the client gives back or overwrites a fragment
that is not outstanding. -/
def fifo (n : ℕ) (F : Fifo) : Op D → Option (Except Errno (Option ℕ) × Fifo)
  | .alloc =>
    match F.free with
    | f :: g :: q => some (.ok (some f), ⟨g :: q, f :: F.out⟩)
    | _ => some (.error .enomem, F)
  | .free f => if f ∈ F.out then some (.ok none, ⟨F.free ++ [f], F.out.erase f⟩) else none
  | .clear => some (.ok none, .full n)
  | .write f _ _ => if f ∈ F.out then some (.ok none, F) else none

/-- The answers to a sequence of operations, and what is left at the end. -/
def fifoRun (n : ℕ) : Fifo → List (Op D) → Option (List (Except Errno (Option ℕ)) × Fifo)
  | F, [] => some ([], F)
  | F, op :: ops =>
    (fifo n F op).bind fun (r, F') => (fifoRun n F' ops).map fun (rs, F'') => (r :: rs, F'')

/-- No fragment is lost or given out twice. -/
structure Fifo.Whole (n : ℕ) (F : Fifo) : Prop where
  perm : (F.free ++ F.out).Perm (List.range (n + 1))
  ne_nil : F.free ≠ []

variable {F F' F₁ : Fifo} {op : Op D} {ops : List (Op D)} {f : ℕ} {r : Except Errno (Option ℕ)}
  {rs : List (Except Errno (Option ℕ))}

lemma fifo_alloc (hs : fifo n F (.alloc : Op D) = some (r, F')) :
    (∃ f g q, F.free = f :: g :: q ∧ r = .ok (some f) ∧ F' = ⟨g :: q, f :: F.out⟩) ∨
      F.free.length ≤ 1 ∧ r = .error .enomem ∧ F' = F := by
  simp only [fifo] at hs
  split at hs
  · rename_i f g q hfree
    obtain ⟨rfl, rfl⟩ := by simpa using hs
    exact .inl ⟨f, g, q, hfree, rfl, rfl⟩
  · rename_i hshort
    obtain ⟨rfl, rfl⟩ := by simpa using hs
    refine .inr ⟨?_, rfl, rfl⟩
    by_contra hlen
    obtain ⟨f, g, q, hfree⟩ : ∃ f g q, F.free = f :: g :: q := by
      match hq : F.free with
      | [] | [_] => simp [hq] at hlen
      | f :: g :: q => exact ⟨f, g, q, rfl⟩
    exact hshort f g q hfree

lemma Fifo.full_whole (n : ℕ) : (Fifo.full n).Whole n := ⟨by simp [full], by simp [full]⟩

lemma Fifo.Whole.next (h : F.Whole n) (hs : fifo n F op = some (r, F')) : F'.Whole n := by
  cases op with
  | alloc =>
    obtain ⟨f, g, q, hfree, -, rfl⟩ | ⟨-, -, rfl⟩ := fifo_alloc hs
    · have hp := h.perm
      rw [hfree] at hp
      exact ⟨List.perm_middle.trans hp, by simp⟩
    · exact h
  | free f =>
    obtain ⟨hf, -, rfl⟩ := by simpa [fifo] using hs
    refine ⟨?_, by simp⟩
    refine List.Perm.trans ?_ h.perm
    rw [List.append_assoc]
    exact (List.perm_cons_erase hf).symm.append_left _
  | clear =>
    obtain ⟨-, rfl⟩ := by simpa [fifo] using hs
    exact Fifo.full_whole n
  | write f v d =>
    obtain ⟨-, -, rfl⟩ := by simpa [fifo] using hs
    exact h

lemma Fifo.Whole.run (h : F.Whole n) (hs : fifoRun n F ops = some (rs, F')) : F'.Whole n := by
  induction ops generalizing F rs with
  | nil =>
    obtain ⟨-, rfl⟩ := by simpa [fifoRun] using hs
    exact h
  | cons op ops ih =>
    obtain ⟨r, F₁, hop, rs', hrest, rfl⟩ := by simpa [fifoRun, Option.bind_eq_some_iff] using hs
    exact ih (h.next hop) hrest

/-- The fragments that a sequence of answers gives out. -/
def issued (rs : List (Except Errno (Option ℕ))) : List ℕ :=
  rs.filterMap fun
    | .ok r => r
    | .error _ => none

/-- The fragments that a sequence of operations gives back. -/
def returned (ops : List (Op D)) : List ℕ :=
  ops.filterMap fun
    | .free f => some f
    | _ => none

/-- **First in, first out**: between two clears, the fragments come out in the order in which
they were free and then given back. -/
lemma issued_append_free (hs : fifoRun n F ops = some (rs, F'))
    (hc : ∀ op ∈ ops, op.isClear = false) : issued rs ++ F'.free = F.free ++ returned ops := by
  induction ops generalizing F rs with
  | nil =>
    obtain ⟨rfl, rfl⟩ := by simpa [fifoRun] using hs
    simp [issued, returned]
  | cons op ops ih =>
    obtain ⟨r, F₁, hop, rs', hrest, rfl⟩ := by simpa [fifoRun, Option.bind_eq_some_iff] using hs
    have hrun := ih hrest fun op hop => hc op (List.mem_cons_of_mem _ hop)
    unfold issued returned at hrun ⊢
    cases op with
    | alloc =>
      obtain ⟨f, g, q, hfree, rfl, rfl⟩ | ⟨-, rfl, rfl⟩ := fifo_alloc hop
      · simpa [hfree] using hrun
      · simpa using hrun
    | free f =>
      obtain ⟨-, rfl, rfl⟩ := by simpa [fifo] using hop
      simpa using hrun
    | clear => simp [Op.isClear] at hc
    | write f v d =>
      obtain ⟨-, rfl, rfl⟩ := by simpa [fifo] using hop
      simpa using hrun

/-! ### Calls run one at a time -/

/-- An operation, the thread that makes the call, and which of its steps fail spuriously if
they can. -/
structure Request (D : Type*) where
  thread : ℕ
  op : Op D
  weak : List Bool

/-- `mempool_clear`: what was outstanding is the pool's again. -/
def mempoolClear (s : PoolState D) (t : ℕ) : Option (PoolState D) :=
  if (s.calls t).outside then
    some ({ s with owns := fun _ => [] }.setCall t (.setup .start))
  else none

/-- `mempool_freeable`. -/
def mempoolFreeable (s : PoolState D) : ℤ := toSsize s.pool.freeable

/-- What a call has returned, if it has. -/
def Call.result : Call D → Option (Option ℕ)
  | .returned r => some r
  | _ => none

/-- Run the thread `t` until its call returns, for at most `fuel` steps. -/
def runCall (fuel : ℕ) (t : ℕ) (weak : List Bool) (s : PoolState D) :
    Option (PoolState D × Option ℕ) :=
  runAlone (fun s weak => threadStep s t weak) (fun s => (s.calls t).result) fuel weak s

/-- A null pointer from `mempool_alloc` comes with `ENOMEM`. -/
def Op.answer : Op D → Option ℕ → Except Errno (Option ℕ)
  | .alloc, none => .error .enomem
  | _, r => .ok r

/-- Carry a request out, on behalf of client 0. -/
def runRequest (fuel : ℕ) (s : PoolState D) (k : Request D) :
    Option (PoolState D × Except Errno (Option ℕ)) :=
  match k.op with
  | .alloc => finish (next s (.callAlloc k.thread 0))
  | .free f => finish (next s (.callFree k.thread 0 f))
  | .clear => finish (mempoolClear s k.thread)
  | .write f v d => (next s (.write 0 f v d)).map fun s' => (s', .ok none)
where
  finish (begun : Option (PoolState D)) : Option (PoolState D × Except Errno (Option ℕ)) :=
    begun.bind fun s' =>
      (runCall fuel k.thread k.weak s').map fun (s'', r) => (s'', k.op.answer r)

/-- Carry requests out one after the other. -/
def runRequests (fuel : ℕ) :
    PoolState D → List (Request D) → Option (PoolState D × List (Except Errno (Option ℕ)))
  | s, [] => some (s, [])
  | s, k :: ks =>
    (runRequest fuel s k).bind fun (s', r) =>
      (runRequests fuel s' ks).map fun (s'', rs) => (s'', r :: rs)

/-! ### One call -/

/-- How far a call of `op` has come on a pool that held `F`: what the chain, the client and the
counter hold. -/
def Serves (n : ℕ) (F : Fifo) (op : Op D) (c out : List ℕ) (k : ℕ) : Call D → Prop
  | .alloc o pc => op = .alloc ∧ o = 0 ∧ out = F.out ∧ k + 1 = F.free.length ∧
    match pc with
    | .loop _ => c = F.free
    | .count f => F.free = f :: c
  | .free f pc => op = .free f ∧ f ∈ F.out ∧ out = F.out.erase f ∧ k + 1 = F.free.length ∧
    c = if pc.held f = none then F.free ++ [f] else F.free
  | .returned r => ∃ F', fifo n F op = some (op.answer r, F') ∧ c = F'.free ∧ out = F'.out ∧
    k + 1 = F'.free.length
  | _ => False

/-- The thread `t` is the only one that may be inside a call of `op`. -/
structure Running (n t : ℕ) (F : Fifo) (op : Op D) (c : List ℕ) (s : PoolState D) : Prop where
  inv : Inv s (n + 1) c
  live : Live s
  outside : ∀ u, u ≠ t → (s.calls u).outside = true
  capacity : s.pool.capacity = n
  near : TailNear s.pool.ends s.cells
  alone : (s.calls t).Alone s.pool.ends s.cells
  others : ∀ o, o ≠ 0 → s.owns o = []
  serves : Serves n F op c (s.owns 0) s.pool.freeable (s.calls t)

lemma Running.result (h : Running n t F op c s) (hr : (s.calls t).result = none) :
    (s.calls t).outside = false := by
  have hserves := h.serves
  cases hc : s.calls t <;> simp_all [Call.result, Call.outside, Serves]

lemma running_step (hn : n ≤ sizeMax) (h : Running n t F op c s) (weak : Bool)
    (hr : (s.calls t).result = none) :
    ∃ s', threadStep s t weak = some s' ∧ (∃ c', Running n t F op c' s') ∧
      (weak = false → 6 * lag s'.pool.ends s'.cells + (s'.calls t).rank <
        6 * lag s.pool.ends s.cells + (s.calls t).rank) := by
  obtain ⟨s', hs, halone, hnear, hrank, hempty⟩ :=
    threadStep_alone weak h.inv h.live (h.result hr) h.alone h.near
  obtain ⟨c', hinv, hlive, hmv, hshift⟩ :=
    threadStep_inv h.inv h.live (callAlone_fresh h.alone (h.live t)) hs
  have howns : (s'.owns = s.owns ∧ ∀ f, s'.calls t ≠ .returned (some f)) ∨
      ∃ f, s.calls t = .alloc 0 (.count f) ∧ s'.calls t = .returned (some f) ∧
        s'.owns = Function.update s.owns 0 (f :: s.owns 0) := by
    refine hmv.owns.imp id fun ⟨o, f, hcall, hret, he⟩ => ?_
    have hserves := h.serves
    rw [hcall] at hserves
    obtain ⟨-, rfl, -⟩ := hserves
    exact ⟨f, hcall, hret, he⟩
  have hothers : ∀ o, o ≠ 0 → s'.owns o = [] := fun o ho => by
    rcases howns with ⟨he, -⟩ | ⟨f, -, -, he⟩
    · rw [he]; exact h.others o ho
    · rw [he, Function.update_of_ne ho]; exact h.others o ho
  refine ⟨s', hs, ⟨c', hinv, hlive, fun u hu => ?_, hmv.capacity.trans h.capacity, hnear, halone,
    hothers, ?_⟩, hrank⟩
  · rw [hmv.others u hu]; exact h.outside u hu
  · have hserves := h.serves
    generalize hp : s.calls t = p at hserves hshift howns
    generalize hp' : s'.calls t = p' at hshift howns ⊢
    generalize hk' : s'.pool.freeable = k' at hshift ⊢
    have hkept : (∀ f, p' ≠ .returned (some f)) → s'.owns 0 = s.owns 0 := fun hne => by
      rcases howns with ⟨he, -⟩ | ⟨f, -, hret, -⟩
      · rw [he]
      · exact absurd hret (hne f)
    -- the cases are the ways in which a call moves
    cases hshift with
    | look => rw [hkept (by simp)]; exact hserves
    | @empty o pc =>
      rw [hkept (by simp)]
      obtain ⟨rfl, rfl, hout, hk, hc⟩ := hserves
      obtain ⟨hone, -⟩ := hempty 0 (.loop pc) hp hp'
      refine ⟨F, ?_, hc, hout, hk⟩
      match hq : F.free with
      | [] | [_] => simp [fifo, hq, Op.answer]
      | f :: g :: q => simp [hc, hq] at hone
    | take hcf =>
      rw [hkept (by simp)]
      obtain ⟨rfl, rfl, hout, hk, hc⟩ := hserves
      exact ⟨rfl, rfl, hout, hk, by rw [← hc, hcf]⟩
    | @give o f =>
      obtain ⟨rfl, rfl, hout, hk, hc⟩ := hserves
      obtain ⟨g, q, rfl, -⟩ := hinv.linked.exists_cons
      refine ⟨⟨g :: q, f :: F.out⟩, by simp [fifo, hc, Op.answer], rfl, ?_, ?_⟩
      · rcases howns with ⟨-, hne⟩ | ⟨f', hcall, -, he⟩
        · exact absurd rfl (hne f)
        · obtain rfl : f = f' := by simpa using hcall
          rw [he, Function.update_self, hout]
      · rw [hc, List.length_cons, List.length_cons] at hk
        rw [sizeSub_eq (by omega), List.length_cons]
        omega
    | put hh =>
      rw [hkept (by simp)]
      obtain ⟨rfl, hf, hout, hk, hc⟩ := hserves
      exact ⟨rfl, hf, hout, hk, by rw [hh]; exact hc⟩
    | link hh hh' =>
      rw [hkept (by simp)]
      obtain ⟨rfl, hf, hout, hk, hc⟩ := hserves
      rw [if_neg (by simp [hh])] at hc
      exact ⟨rfl, hf, hout, hk, by rw [if_pos hh', hc]⟩
    | @done f =>
      rw [hkept (by simp)]
      obtain ⟨rfl, hf, hout, hk, hc⟩ := hserves
      rw [show PutCall.held f .count = none from rfl, if_pos rfl] at hc
      refine ⟨⟨F.free ++ [f], F.out.erase f⟩, by simp [fifo, hf, Op.answer], hc, hout, ?_⟩
      have hle := hinv.length_le
      rw [hc, List.length_append, List.length_singleton] at hle
      rw [sizeAdd_eq (by omega), List.length_append, List.length_singleton, hk]

/-- No thread is inside a call, and the pool holds what the FIFO holds. -/
structure Quiet (n : ℕ) (s : PoolState D) (F : Fifo) : Prop where
  inv : Inv s (n + 1) F.free
  outside : ∀ t, (s.calls t).outside = true
  capacity : s.pool.capacity = n
  near : TailNear s.pool.ends s.cells
  owns : s.owns 0 = F.out
  others : ∀ o, o ≠ 0 → s.owns o = []
  freeable : s.pool.freeable + 1 = F.free.length

lemma call_quiet (hn : n ≤ sizeMax) (weak : List Bool) (h : Running n t F op c s)
    (hop : fifo n F op = some (r, F')) :
    ∃ N s' r', (∀ fuel ≥ N, runCall fuel t weak s = some (s', r')) ∧ op.answer r' = r ∧
      Quiet n s' F' := by
  obtain ⟨N, s', r', hrun, ⟨c', h'⟩, hres⟩ := runAlone_returns
    (I := fun s => ∃ c, Running n t F op c s)
    (fun s => 6 * lag s.pool.ends s.cells + (s.calls t).rank)
    (fun s b ⟨c, h⟩ hr => running_step hn h b hr) weak ⟨c, h⟩
  have hcall : s'.calls t = .returned r' := by
    cases hc : s'.calls t <;> simp_all [Call.result]
  have hserves := h'.serves
  rw [hcall] at hserves
  obtain ⟨F'', hop', hc, hout, hk⟩ := hserves
  obtain ⟨hr, rfl⟩ : r = op.answer r' ∧ F' = F'' := by simpa [hop] using hop'
  refine ⟨N, s', r', hrun, hr.symm, hc ▸ h'.inv, fun u => ?_, h'.capacity, h'.near, hout,
    h'.others, hk⟩
  by_cases hu : u = t
  · rw [hu, hcall]; rfl
  · exact h'.outside u hu

lemma clear_quiet (hn : n + 1 ≤ sizeMax) (weak : List Bool) (h : Resetting t n s) :
    ∃ N s', (∀ fuel ≥ N, runCall fuel t weak s = some (s', none)) ∧ Quiet n s' (.full n) := by
  have hpc : ∀ {s : PoolState D}, Resetting t n s → (s.calls t).result = none →
      ∃ pc, s.calls t = .setup pc := by
    rintro s ⟨-, -, -, hcur⟩ hr
    cases hc : s.calls t with
    | setup pc => exact ⟨pc, rfl⟩
    | returned r => simp [hc, Call.result] at hr
    | _ => rw [hc] at hcur; exact hcur.elim
  obtain ⟨N, s', r, hrun, ⟨hout, howns, hcap, hcur⟩, hres⟩ := runAlone_returns
    (I := Resetting t n) (fun s => 6 * lag s.pool.ends s.cells + (s.calls t).setupRank n)
    (fun s b h hr => by
      obtain ⟨pc, hpc⟩ := hpc h hr
      obtain ⟨s', hs, h', -, -, hrank⟩ := resetting_step b h hpc
      exact ⟨s', hs, h', hrank⟩) weak h
  cases hc : s'.calls t with
  | returned r' =>
    obtain rfl : r' = r := by simpa [hc, Call.result] using hres
    rw [hc] at hcur
    cases r' with
    | some f => exact hcur.elim
    | none =>
      rw [fragments_eq hn] at hcur
      obtain ⟨hinv, hnear, hfree⟩ := hcur
      refine ⟨N, s', hrun, hinv, fun u => ?_, hcap, hnear, howns 0, fun o _ => howns o, ?_⟩
      · by_cases hu : u = t
        · rw [hu, hc]; rfl
        · exact hout u hu
      · simp [Fifo.full, Nat.succ.inj (hfree (Nat.le_of_succ_le hn))]
  | _ => simp [hc, Call.result] at hres

lemma request_quiet (hn : n + 1 ≤ sizeMax) (k : Request D) (h : Quiet n s F)
    (hop : fifo n F k.op = some (r, F')) :
    ∃ N s', (∀ fuel ≥ N, runRequest fuel s k = some (s', r)) ∧ Quiet n s' F' := by
  obtain ⟨t, op, weak⟩ := k
  have hlive : ∀ u, u ≠ t → ∀ pc, s.calls u ≠ .setup pc := fun u _ pc hc => by
    have := h.outside u
    simp [hc, Call.outside] at this
  have hothers : ∀ (x : PoolState D) (call : Call D), x.calls = s.calls →
      ∀ u, u ≠ t → ((x.setCall t call).calls u).outside = true := fun x call hx u hu => by
    rw [setCall_ne hu, hx]; exact h.outside u
  -- what a call finds when it begins
  have hcall : ∀ s', next s (.callAlloc t 0) = some s' ∧ op = .alloc ∨
      (∃ f, next s (.callFree t 0 f) = some s' ∧ op = .free f) →
      Running n t F op F.free s' →
      ∃ N s'', (∀ fuel ≥ N, runRequest fuel s ⟨t, op, weak⟩ = some (s'', r)) ∧
        Quiet n s'' F' := by
    intro s' hbegin hrun
    obtain ⟨N, s'', r', hcall, hr, hquiet⟩ := call_quiet (Nat.le_of_succ_le hn) weak hrun hop
    refine ⟨N, s'', fun fuel hfuel => ?_, hquiet⟩
    rcases hbegin with ⟨hs, rfl⟩ | ⟨f, hs, rfl⟩ <;>
      simp [runRequest, runRequest.finish, hs, hcall fuel hfuel, hr]
  cases op with
  | alloc =>
    have hs : next s (.callAlloc t 0) = some (s.setCall t (.alloc 0 (.loop .loadHead))) :=
      if_pos (h.outside t)
    refine hcall _ (.inl ⟨hs, rfl⟩) ⟨h.inv.setCall ?_ trivial, Live.setCall hlive (by simp),
      hothers s _ rfl, h.capacity, h.near, by rw [setCall_self]; trivial, h.others, ?_⟩
    · rw [outside_held (h.outside t)]; rfl
    · rw [setCall_self]
      exact ⟨rfl, rfl, h.owns, h.freeable, rfl⟩
  | free f =>
    have hf : f ∈ F.out := by
      by_contra hf
      simp [fifo, hf] at hop
    have hf' : f ∈ s.owns 0 := h.owns ▸ hf
    have hs : next s (.callFree t 0 f) = some ({ s with
        owns := Function.update s.owns 0 ((s.owns 0).erase f) }.setCall t (.free f .init)) :=
      if_pos ⟨h.outside t, hf'⟩
    refine hcall _ (.inr ⟨f, hs, rfl⟩) ⟨callFree_inv h.inv (h.outside t) hf',
      Live.setCall hlive (by simp), hothers _ _ rfl, h.capacity, h.near,
      by rw [setCall_self]; trivial, fun o ho => ?_, ?_⟩
    · exact (Function.update_of_ne ho _ _).trans (h.others o ho)
    · rw [setCall_self]
      exact ⟨rfl, hf, by simp [h.owns], h.freeable, rfl⟩
  | clear =>
    obtain ⟨rfl, rfl⟩ := by simpa [fifo] using hop
    have hs : mempoolClear s t =
        some ({ s with owns := fun _ => [] }.setCall t (.setup .start)) := if_pos (h.outside t)
    obtain ⟨N, s'', hcall, hquiet⟩ := clear_quiet (t := t)
      (s := { s with owns := fun _ => [] }.setCall t (.setup .start)) hn weak
      ⟨hothers _ _ rfl, fun _ => rfl, h.capacity, by rw [setCall_self]; trivial⟩
    refine ⟨N, s'', fun fuel hfuel => ?_, hquiet⟩
    simp [runRequest, runRequest.finish, hs, hcall fuel hfuel, Op.answer]
  | write f v d =>
    have hf : f ∈ F.out := by
      by_contra hf
      simp [fifo, hf] at hop
    obtain ⟨-, rfl, rfl⟩ := by simpa [fifo] using hop
    have hf' : f ∈ s.owns 0 := h.owns ▸ hf
    have hne : ∀ g ∈ F.free, g ≠ f := by
      rintro g hg rfl
      exact h.inv.not_owned_of_mem hg 0 hf'
    refine ⟨0, { s with cells := (s.cells.write f v).setData f d }, fun fuel _ => ?_, ?_⟩
    · simp [runRequest, next, hf']
    · refine ⟨h.inv.setCells (mild_write.trans mild_setData)
          (fun g hg => (same_write (hne g hg)).trans (same_setData (hne g hg))) fun u g hg => ?_,
        h.outside, h.capacity, h.near.congr h.inv.linked fun g hg => write_ne _ _ (hne g hg),
        h.owns, h.others, h.freeable⟩
      rw [outside_held (h.outside u)] at hg
      simp at hg

lemma requests_quiet (hn : n + 1 ≤ sizeMax) (ks : List (Request D)) (h : Quiet n s F)
    (hops : fifoRun n F (ks.map Request.op) = some (rs, F')) :
    ∃ N s', (∀ fuel ≥ N, runRequests fuel s ks = some (s', rs)) ∧ Quiet n s' F' := by
  induction ks generalizing s F rs with
  | nil =>
    obtain ⟨rfl, rfl⟩ := by simpa [fifoRun] using hops
    exact ⟨0, s, fun _ _ => rfl, h⟩
  | cons k ks ih =>
    obtain ⟨r, F₁, hop, rs', hrest, rfl⟩ := by simpa [fifoRun, Option.bind_eq_some_iff] using hops
    obtain ⟨N, s₁, hrun, h₁⟩ := request_quiet hn k h hop
    obtain ⟨N', s₂, hruns, h₂⟩ := ih h₁ hrest
    refine ⟨max N N', s₂, fun fuel hfuel => ?_, h₂⟩
    simp only [runRequests, hrun fuel (le_of_max_le_left hfuel),
      hruns fuel (le_of_max_le_right hfuel), Option.bind_some, Option.map_some]

/-! ### The refinement -/

/-- What is seen of a pool between calls: the chain, what the client has, the free count. -/
structure Between (n : ℕ) (s : PoolState D) (F : Fifo) : Prop where
  chain : s.chain = F.free
  owns : s.owns 0 = F.out
  freeable : mempoolFreeable s = F.free.length - 1
  outstanding : mempoolFreeable s = n - F.out.length
  distinct : F.out.Nodup
  bounded : F.out.length ≤ n ∧ ∀ f ∈ F.out, f ≤ n

/-- A fragment that is given back comes out again only after all that were free before it. -/
def InTurn (n : ℕ) (ops : List (Op D)) (rs : List (Except Errno (Option ℕ))) : Prop :=
  ∀ pre f post rs₁ F₁, ops = pre ++ .free f :: post →
    fifoRun n (.full n) pre = some (rs₁, F₁) → (∀ op ∈ post, op.isClear = false) →
    f ∈ issued (rs.drop (pre.length + 1)) →
    F₁.free ++ [f] <+: issued (rs.drop (pre.length + 1))

lemma fifoRun_append {ops' : List (Op D)}
    (h : fifoRun n F (ops ++ ops') = some (rs, F')) : ∃ rs₁ F₁ rs₂, rs = rs₁ ++ rs₂ ∧
      rs₁.length = ops.length ∧ fifoRun n F ops = some (rs₁, F₁) ∧
      fifoRun n F₁ ops' = some (rs₂, F') := by
  induction ops generalizing F rs with
  | nil => exact ⟨[], F, rs, rfl, rfl, rfl, h⟩
  | cons op ops ih =>
    obtain ⟨r, F₁, hop, rs', hrest, rfl⟩ := by
      simpa [fifoRun, Option.bind_eq_some_iff] using h
    obtain ⟨rs₁, F₂, rs₂, rfl, hlen, h1, h2⟩ := ih hrest
    exact ⟨r :: rs₁, F₂, rs₂, rfl, by simp [hlen], by simp [fifoRun, hop, h1], h2⟩

lemma inTurn (h : fifoRun n (.full n) ops = some (rs, F)) : InTurn n ops rs := by
  rintro pre f post rs₁ F₁ rfl hpre hc hf
  obtain ⟨rs₁', F₁', rs₂, rfl, hlen, h1, h2⟩ := fifoRun_append h
  obtain ⟨rfl, rfl⟩ : rs₁ = rs₁' ∧ F₁ = F₁' := by simpa [hpre] using h1
  obtain ⟨r, F₂, hop, rs', hrest, rfl⟩ := by
    simpa [fifoRun, Option.bind_eq_some_iff] using h2
  obtain ⟨hout, -, rfl⟩ := by simpa [fifo] using hop
  have hdrop : (rs₁ ++ r :: rs').drop (pre.length + 1) = rs' := by
    rw [← hlen, List.drop_append]
    simp
  rw [hdrop] at hf ⊢
  have horder := issued_append_free hrest hc
  have hnot : f ∉ F₁.free := fun hmem => by
    have hnd := ((Fifo.full_whole n).run hpre).perm.nodup_iff.mpr List.nodup_range
    exact List.disjoint_of_nodup_append hnd hmem hout
  -- what comes out begins with what was free, and does not stop before the fragment
  have hfree : F₁.free ++ [f] <+: issued rs' ++ F.free := by
    rw [horder]
    exact List.prefix_append _ _
  have hissued : issued rs' <+: issued rs' ++ F.free := List.prefix_append _ _
  refine List.prefix_of_prefix_length_le hfree hissued ?_
  by_contra hlt
  rw [List.length_append, List.length_singleton] at hlt
  have hshort : issued rs' <+: F₁.free :=
    List.prefix_of_prefix_length_le hissued ((List.prefix_append _ _).trans hfree) (by omega)
  exact hnot (hshort.subset hf)

/-- The block is too small for `mempool_freeable` to look like an error. -/
lemma capacity_lt {memory : Bool} {dataBytes : ℕ} {d : D} (hfit : SizesFit dataBytes n)
    (hmake : mempoolCreate memory dataBytes n d = .ok s) : n < 2 ^ 60 := by
  obtain ⟨-, -, -, hblock⟩ := mempoolCreate_ok hmake
  have hfrag : 16 ≤ internalMempoolAlignedDataBytes dataBytes := by
    have h16 : memoryFragmentBytes ≤ max dataBytes memoryFragmentBytes := le_max_right _ _
    have := hfit.1
    unfold internalMempoolAlignedDataBytes memoryFragmentBytes at *
    simp only
    split
    · rw [sizeAdd_eq (by omega)]
      omega
    · exact h16
  have hmul := Nat.mul_le_mul_left (n + 1) hfrag
  rw [sizeAdd_eq hfit.2] at hblock
  unfold sizeMax at hblock
  omega

lemma Quiet.between (hn : n < 2 ^ 60) (h : Quiet n s F) (hF : F.Whole n) : Between n s F := by
  have hlen : F.free.length + F.out.length = n + 1 := by simpa using hF.perm.length_eq
  have hnd := hF.perm.nodup_iff.mpr List.nodup_range
  have hk := h.freeable
  have hfree : mempoolFreeable s = F.free.length - 1 := by
    rw [mempoolFreeable, toSsize_eq (by omega)]
    omega
  refine ⟨h.inv.chain_eq h.capacity, h.owns, hfree, by omega, (List.nodup_append.mp hnd).2.1,
    by omega, fun f hf => ?_⟩
  have := List.mem_range.mp (hF.perm.subset (List.mem_append_right _ hf))
  omega

/-- **Refinement**: requests carried out one at a time on a pool that `mempool_create` made are
answered as a FIFO of its fragments answers, and leave the pool as the FIFO is left. -/
theorem mempool_refines_fifo {memory : Bool} {dataBytes : ℕ} {d : D} {made s₀ : PoolState D}
    (hfit : SizesFit dataBytes n) (hmake : mempoolCreate memory dataBytes n d = .ok made)
    (hrun : Reach next (fun _ a => a.isStep 0 = true) made s₀)
    (hret : s₀.calls 0 = .returned none) (ks : List (Request D))
    (hops : fifoRun n (.full n) (ks.map Request.op) = some (rs, F)) :
    (∃ N s, (∀ fuel ≥ N, runRequests fuel s₀ ks = some (s, rs)) ∧ Between n s F) ∧
      InTurn n (ks.map Request.op) rs := by
  have hn := capacity_lt hfit hmake
  obtain ⟨rfl, -⟩ := mempoolCreate_ok hmake
  have h₀ : Created n d s₀ := ⟨hrun, hret⟩
  obtain ⟨hinv, -, hcap, hnear, -⟩ := created_inv hfit.2 h₀
  obtain ⟨hout, howns, hfree⟩ := created_rest hfit.2 h₀
  have hquiet : Quiet n s₀ (.full n) :=
    ⟨hinv, hout, hcap, hnear, howns 0, fun o _ => howns o, by simp [Fifo.full, hfree]⟩
  obtain ⟨N, s, hruns, h⟩ := requests_quiet hfit.2 ks hquiet hops
  exact ⟨⟨N, s, hruns, h.between hn ((Fifo.full_whole n).run hops)⟩, inTurn hops⟩

/-- A pool of two gives two fragments and no third; the client overwrites the first and gives
both back, and the next one is the fragment that was left over. -/
theorem mempool_refines_fifo_two : ∃ s₀ : PoolState ℕ,
    (∃ N s, (∀ fuel ≥ N, runRequests fuel s₀ [⟨1, .alloc, List.replicate 9 true⟩,
      ⟨0, .write 0 ⟨7, some 9⟩ 5, []⟩, ⟨2, .alloc, []⟩, ⟨1, .alloc, []⟩, ⟨3, .free 0, [true]⟩,
      ⟨2, .free 1, List.replicate 9 true⟩, ⟨1, .alloc, []⟩, ⟨1, .clear, List.replicate 9 true⟩,
      ⟨2, .alloc, []⟩] = some (s, [.ok (some 0), .ok none, .ok (some 1), .error .enomem, .ok none,
        .ok none, .ok (some 2), .ok none, .ok (some 0)])) ∧ Between 2 s ⟨[1, 2], [0]⟩) ∧
    InTurn 2 ([.alloc, .write 0 ⟨7, some 9⟩ 5, .alloc, .alloc, .free 0, .free 1, .alloc, .clear,
      .alloc] : List (Op ℕ)) [.ok (some 0), .ok none, .ok (some 1), .error .enomem, .ok none,
        .ok none, .ok (some 2), .ok none, .ok (some 0)] := by
  obtain ⟨s₀, -, ⟨hrun, hret⟩, -⟩ := exists_created 2 (0 : ℕ) (fun _ _ => True) (fun _ => true)
    (List.replicate 18 (strongStep 0)) [] (by decide +kernel)
  have hmake : mempoolCreate true 16 2 (0 : ℕ) = .ok (raw 2 0) :=
    mempoolCreate_made (by decide) (by decide) (by decide) (by decide)
  exact ⟨s₀, mempool_refines_fifo ⟨by decide, by decide⟩ hmake hrun hret [_, _, _, _, _, _, _, _, _]
    rfl⟩

end CoopTasks.Pool
