import CoopTasks.Linearize
import CoopTasks.ListHistory

/-!
A list as a table from keys to values that answers each call at one moment.

The table has the keys of the nodes that are not marked. A call is served by its own
compare-exchange or by its copy of a value, a `list_delete` by whoever marks its node, and a call
that changes nothing at some moment that it has come by.
-/

namespace CoopTasks.LockFreeList

open CoopTasks.Machine CoopTasks.Linearize ListMachine

variable {σ ℓ τ κ N V : Type*}

/-- The answers of a table to a call, and the table after it. There may be no room for a key, and
a `list_delete` that another one has forestalled sets no error number. -/
inductive Answers : (ℤ → Option V) → Op V → Res V → (ℤ → Option V) → Prop
  | inserted {T : ℤ → Option V} {key : ℤ} {val : V} (h : T key = none) :
    Answers T (.insert key val) (.ok none) (Function.update T key (some val))
  | present {T : ℤ → Option V} {key : ℤ} {val v : V} (h : T key = some v) :
    Answers T (.insert key val) (.fail (some .eexist)) T
  | room {T : ℤ → Option V} {key : ℤ} {val : V} :
    Answers T (.insert key val) (.fail (some .enomem)) T
  | deleted {T : ℤ → Option V} {key : ℤ} {val : Bool} {v : V} (h : T key = some v) :
    Answers T (.delete key val) (.ok (bif val then some (some v) else none))
      (Function.update T key none)
  | missing {T : ℤ → Option V} {key : ℤ} {val : Bool} (h : T key = none) :
    Answers T (.delete key val) (.fail (some .enoent)) T
  | forestalled {T : ℤ → Option V} {key : ℤ} {val : Bool} (h : T key = none) :
    Answers T (.delete key val) (.fail none) T
  | found {T : ℤ → Option V} {key : ℤ} {val : Bool} {v : V} (h : T key = some v) :
    Answers T (.search key val) (.ok (bif val then some (some v) else none)) T
  | unknown {T : ℤ → Option V} {key : ℤ} {val : Bool} (h : T key = none) :
    Answers T (.search key val) (.fail (some .enoent)) T
  | updated {T : ℤ → Option V} {key : ℤ} {val v : V} (h : T key = some v) :
    Answers T (.update key val) (.ok none) (Function.update T key (some val))
  | absent {T : ℤ → Option V} {key : ℤ} {val : V} (h : T key = none) :
    Answers T (.update key val) (.fail (some .enoent)) T

/-- The answer of a call that has been served and has not returned: a `list_delete` whose node is
marked has what the node holds. -/
def Thread.answer (node : N → Node N V) (th : Thread N V) : Option (Res V) :=
  match th.pc with
  | .delete _ _ d (.read _) =>
    bif (node d).succ.marked then some (.ok (some (node d).val)) else none
  | .delete _ _ d (.free v) => bif (node d).succ.marked then some (.ok v) else none
  | .updateWrite _ _ _ .init => some (.ok none)
  | _ => none

/-- What a thread shows that has come to this point. -/
def Thread.shown (t : ℕ) (th : Thread N V) : List (Event ℕ (Op V) (Res V)) :=
  match th.helps, th.pc with
  | [], .returned r => [.ret t r]
  | _, _ => []

namespace ListMachine

variable (M : ListMachine σ ℓ N V)

/-- The values under the keys of a list. -/
def table (s : σ) (key : ℤ) : Option V :=
  ((M.chain s).find? fun n => !(M.node s n).succ.marked && (M.node s n).key == key).bind
    fun n => (M.node s n).val

/-- The latest call of a thread. -/
def lastCall (moves : List (σ × ℓ)) (t : ℕ) : Option (Op V) :=
  moves.findSome? fun x => (M.call x.2).bind fun c => if c.1 = t then some c.2 else none

/-- How far a thread's call has come. -/
def phase (moves : List (σ × ℓ)) (s : σ) (t : ℕ) : Phase (Op V) (Res V) :=
  if (M.threads s t).outside then .idle
  else match (M.threads s t).answer (M.node s), M.lastCall moves t with
    | some r, _ => .answered r
    | none, some op => .called op
    | none, none => .idle

/-- The calls and returns that a move shows. -/
def events (s : σ) (a : ℓ) : List (Event ℕ (Op V) (Res V)) :=
  match M.call a, M.mover a with
  | some (t, op), _ => [.call t op]
  | none, some t => (M.next s a).elim [] fun s' => (M.threads s' t).shown t
  | none, none => []

/-- The list as a machine whose threads call a table. -/
def serving : Serving σ ℓ ℕ (Op V) (Res V) (ℤ → Option V) where
  next := M.next
  obj := M.table
  phase := M.phase
  events := M.events

/-! ### Calls -/

section

variable {M} {s : σ} {a : ℓ} {moves recent : List (σ × ℓ)} {t : ℕ} {op : Op V} {key : ℤ}

lemma lastCall_cons (h : ∀ op, M.call a ≠ some (t, op)) :
    M.lastCall ((s, a) :: moves) t = M.lastCall moves t := by
  unfold lastCall
  rw [List.findSome?_cons]
  cases hc : M.call a with
  | none => rfl
  | some c =>
    have hne : c.1 ≠ t := by
      rintro rfl
      exact h c.2 hc
    simp [hne]

lemma lastCall_call (h : M.call a = some (t, op)) : M.lastCall ((s, a) :: moves) t = some op := by
  simp [lastCall, h]

lemma Since.lastCall (h : M.Since moves t op recent) : M.lastCall moves t = some op := by
  induction recent generalizing moves with
  | nil =>
    obtain ⟨x, earlier, rfl, hc, -⟩ := h
    exact lastCall_call hc
  | cons y recent ih =>
    obtain ⟨x, earlier, rfl, hc, hnone⟩ := h
    obtain ⟨hy, hrest⟩ := List.forall_mem_cons.mp hnone
    rw [List.cons_append, lastCall_cons hy]
    exact ih ⟨x, earlier, rfl, hc, hrest⟩

lemma phase_outside (h : (M.threads s t).outside = true) : M.phase moves s t = .idle := by
  simp [phase, h]

lemma phase_answered {r : Res V} (hin : (M.threads s t).outside = false)
    (h : (M.threads s t).answer (M.node s) = some r) : M.phase moves s t = .answered r := by
  simp [phase, hin, h]

lemma phase_called (hin : (M.threads s t).outside = false)
    (h : (M.threads s t).answer (M.node s) = none) (hc : M.lastCall moves t = some op) :
    M.phase moves s t = .called op := by
  simp [phase, hin, h, hc]

lemma phase_same {s' : σ} (hth : (M.threads s' t).outside = (M.threads s t).outside)
    (hans : (M.threads s' t).answer (M.node s') = (M.threads s t).answer (M.node s))
    (hcall : ∀ op, M.call a ≠ some (t, op)) :
    M.phase ((s, a) :: moves) s' t = M.phase moves s t := by
  unfold phase
  rw [hth, hans, lastCall_cons hcall]

lemma phase_eq_called (h : M.phase moves s t = .called op) :
    (M.threads s t).outside = false ∧ (M.threads s t).answer (M.node s) = none ∧
      M.lastCall moves t = some op := by
  unfold phase at h
  split at h
  · cases h
  · rename_i hout
    split at h
    · cases h
    · rename_i hans hcall
      cases h
      exact ⟨by simpa using hout, hans, hcall⟩
    · cases h

lemma table_absent (h : ∀ n, M.Alive s n → (M.node s n).key ≠ key) : M.table s key = none := by
  unfold table
  rw [List.find?_eq_none.mpr]
  · rfl
  · intro n hn hp
    simp only [Bool.and_eq_true, Bool.not_eq_true', beq_iff_eq] at hp
    exact h n ⟨hn, hp.1⟩ hp.2

end

/-! ### Two machines -/

section

variable {M} {M' : ListMachine τ κ N V} {s : σ} {s' : τ} {x : σ × ℓ} {x' : τ × κ}
  {moves : List (σ × ℓ)} {moves' : List (τ × κ)}

lemma Follows.events (h : Follows M M' x x') : M.events x.1 x.2 = M'.events x'.1 x'.2 := by
  obtain ⟨s, s', hs, hs', hm⟩ := h.next
  unfold ListMachine.events
  rw [h.call, h.mover, hs, hs']
  cases M'.call x'.2 with
  | some c => rfl
  | none =>
    cases M'.mover x'.2 with
    | none => rfl
    | some t => simp [hm.threads]

lemma history_mirror (h : List.Forall₂ (Follows M M') moves moves') :
    M.serving.history moves = M'.serving.history moves' := by
  induction h with
  | nil => rfl
  | @cons x x' moves moves' hx _ ih =>
    obtain ⟨s, a⟩ := x
    obtain ⟨s', a'⟩ := x'
    show M.serving.history moves ++ M.events s a = M'.serving.history moves' ++ M'.events s' a'
    rw [ih, hx.events]

end

end ListMachine

/-! ### The table of a list whose nodes are never given back -/

variable [DecidableEq N] {s s' : LinkState N V} {a : LinkAct N V} {c c' : List N} {n x : N}
  {key : ℤ} {v : Option V}

lemma table_alive (h : LinkInv s c) (hn : linkMachine.Alive s n) :
    linkMachine.table s (s.node n).key = (s.node n).val := by
  have hc : ∀ m, linkMachine.Alive s m → m ∈ c := fun m hm =>
    h.chained.kept m (h.alive_iff.mp hm).1 hm.2
  cases hfind : s.chain.find? fun m =>
      !(s.node m).succ.marked && (s.node m).key == (s.node n).key with
  | none =>
    have hno := List.find?_eq_none.mp hfind n hn.1
    have hm : (s.node n).succ.marked = false := hn.2
    simp [hm] at hno
  | some m =>
    have hm := List.find?_some hfind
    simp only [Bool.and_eq_true, Bool.not_eq_true', beq_iff_eq] at hm
    have hmn : m = n :=
      h.chained.key_inj (hc m ⟨List.mem_of_find?_eq_some hfind, hm.1⟩) (hc n hn) hm.2
    show (s.chain.find? fun m => !(s.node m).succ.marked && (s.node m).key == (s.node n).key).bind
      (fun m => (s.node m).val) = _
    rw [hfind, hmn]
    rfl

lemma table_stored (h : LinkInv s c) (hv : linkMachine.Stored s key v) :
    linkMachine.table s key = v := by
  obtain ⟨n, hn, rfl, rfl⟩ := hv
  exact table_alive h hn

lemma table_congr (h : LinkInv s c) (h' : LinkInv s' c')
    (hiff : ∀ n, linkMachine.Alive s' n ∧ (s'.node n).key = key ↔
      linkMachine.Alive s n ∧ (s.node n).key = key)
    (hval : ∀ n, linkMachine.Alive s n → (s.node n).key = key →
      (s'.node n).val = (s.node n).val) :
    linkMachine.table s' key = linkMachine.table s key := by
  by_cases hex : ∃ n, linkMachine.Alive s n ∧ (s.node n).key = key
  · obtain ⟨n, hn, hk⟩ := hex
    obtain ⟨hn', hk'⟩ := (hiff n).mpr ⟨hn, hk⟩
    rw [table_stored h ⟨n, hn, hk, rfl⟩, table_stored h' ⟨n, hn', hk', rfl⟩]
    exact hval n hn hk
  · rw [table_absent fun n hn hk => hex ⟨n, hn, hk⟩,
      table_absent fun n hn hk => hex ⟨n, (hiff n).mp ⟨hn, hk⟩⟩]

omit [DecidableEq N] in
lemma Move.marked_self [DecidableEq N] {mem mem' : N → Node N V} {linked : List N}
    (h : Move mem linked (.marked n) mem') : (mem' n).succ.marked = true := by
  cases h with
  | mark => simp

lemma alive_step (h : LinkInv s c) (hone : OneWord s a) (hs : s.next a = some s')
    (hn : n ∈ s.linked) :
    linkMachine.Alive s' n ↔ linkMachine.Alive s n ∧ s.effect a ≠ .marked n := by
  obtain ⟨c', h', hst, hev⟩ := linkInv_step h hone hs
  rw [h.alive_iff, h'.alive_iff]
  constructor
  · rintro ⟨-, hm'⟩
    refine ⟨⟨hn, ?_⟩, fun he => ?_⟩
    · by_contra hm
      have := hev.marked hn (by simpa using hm)
      simp [hm'] at this
    · have hmv := hst.move
      rw [he] at hmv
      simp [hmv.marked_self] at hm'
  · rintro ⟨⟨-, hm⟩, he⟩
    refine ⟨hev.grows n hn, ?_⟩
    by_contra hm'
    exact he (hst.move.marks hn hm (by simpa using hm')).1

lemma alive_new (h : LinkInv s c) (hone : OneWord s a) (hs : s.next a = some s')
    (hn' : linkMachine.Alive s' n) (hn : n ∉ s.linked) : s.effect a = .linked n := by
  obtain ⟨c', h', hst, -⟩ := linkInv_step h hone hs
  have hmem := (h'.alive_iff.mp hn').1
  rw [hst.linked] at hmem
  exact (Effect.mem_link hmem).resolve_left hn

lemma table_key (h : LinkInv s c) (hone : OneWord s a) (hs : s.next a = some s')
    (hlink : ∀ n, s.effect a = .linked n → (s'.node n).key ≠ key)
    (hmark : ∀ n, s.effect a = .marked n → (s.node n).key ≠ key)
    (hval : ∀ n, linkMachine.Alive s n → (s.node n).key = key →
      (s'.node n).val = (s.node n).val) :
    linkMachine.table s' key = linkMachine.table s key := by
  obtain ⟨c', h', -, hev⟩ := linkInv_step h hone hs
  refine table_congr h h' (fun n => ?_) hval
  constructor
  · rintro ⟨hn', hk'⟩
    have hn : n ∈ s.linked := by
      by_contra hn
      exact hlink n (alive_new h hone hs hn' hn) hk'
    exact ⟨((alive_step h hone hs hn).mp hn').1, by rw [← hev.key n hn]; exact hk'⟩
  · rintro ⟨hn, hk⟩
    have hl := (h.alive_iff.mp hn).1
    exact ⟨(alive_step h hone hs hl).mpr ⟨hn, fun he => hmark n he hk⟩,
      by rw [hev.key n hl]; exact hk⟩

end CoopTasks.LockFreeList
