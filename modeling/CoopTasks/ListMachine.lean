import CoopTasks.LockFreeList
import Mathlib.Data.List.Forall2

/-!
What calls do to the values in a list, said of any machine that runs the list operations.

The moves made so far are a list, the last one first. Two machines whose states show the same list
agree on all of it.
-/

namespace CoopTasks.LockFreeList

variable {σ ℓ τ κ N V : Type*}

/-- A machine that runs the list operations: its moves, which of them are calls, and whose steps
the others are, and the list and the threads in a state. -/
structure ListMachine (σ ℓ N V : Type*) where
  next : σ → ℓ → Option σ
  call : ℓ → Option (ℕ × Op V)
  mover : ℓ → Option ℕ
  chain : σ → List N
  node : σ → N → Node N V
  threads : σ → ℕ → Thread N V

namespace ListMachine

variable (M : ListMachine σ ℓ N V)

/-- A node on the chain that is not marked. -/
def Alive (s : σ) (n : N) : Prop := n ∈ M.chain s ∧ (M.node s n).succ.marked = false

/-- The list has `v` under a key. -/
def Stored (s : σ) (key : ℤ) (v : Option V) : Prop :=
  ∃ n, M.Alive s n ∧ (M.node s n).key = key ∧ (M.node s n).val = v

/-- The latest call of a thread is `op`, and `recent` are the moves since then. -/
def Since (moves : List (σ × ℓ)) (t : ℕ) (op : Op V) (recent : List (σ × ℓ)) : Prop :=
  ∃ x earlier, moves = recent ++ x :: earlier ∧ M.call x.2 = some (t, op) ∧
    ∀ y ∈ recent, ∀ op', M.call y.2 ≠ some (t, op')

/-- The list had `v` under a key at some moment since then. -/
def WasStored (recent : List (σ × ℓ)) (s : σ) (key : ℤ) (v : Option V) : Prop :=
  M.Stored s key v ∨ ∃ x ∈ recent, M.Stored x.1 key v

/-- One of the moves took a node off the list that had `v` under a key. -/
def Removed (recent : List (σ × ℓ)) (key : ℤ) (v : Option V) : Prop :=
  ∃ x ∈ recent, ∃ s n, M.next x.1 x.2 = some s ∧ M.Alive x.1 n ∧ ¬ M.Alive s n ∧
    (M.node x.1 n).key = key ∧ (M.node x.1 n).val = v

/-- A `list_delete` of the node's key has made a step since the node was inserted. -/
def Wanted (moves : List (σ × ℓ)) (n : N) : Prop :=
  ∃ later x earlier t val recent, moves = later ++ x :: earlier ∧ M.mover x.2 = some t ∧
    M.Since earlier t (.delete (M.node x.1 n).key val) recent ∧ M.Alive x.1 n ∧
    ∀ y ∈ later, M.Alive y.1 n

/-- What `list_search` and `list_delete` have delivered. -/
structure Delivered (moves : List (σ × ℓ)) (s : σ) : Prop where
  search : ∀ t key recent v, M.Since moves t (.search key true) recent →
    M.threads s t = ⟨[], .returned (.ok (some v))⟩ → M.WasStored recent s key v
  delete : ∀ t key recent v, M.Since moves t (.delete key true) recent →
    M.threads s t = ⟨[], .returned (.ok (some v))⟩ → M.Removed recent key v

/-- A further move: a step of `list_update` leaves the values under other keys alone, and no node
is taken off the list whose key is not being deleted. -/
structure Spares (moves : List (σ × ℓ)) (s : σ) (a : ℓ) (s' : σ) : Prop where
  update : ∀ t key val recent, M.Since moves t (.update key val) recent → M.mover a = some t →
    ∀ k v, k ≠ key → (M.Stored s' k v ↔ M.Stored s k v)
  mark : ∀ n, M.Alive s n → ¬ M.Alive s' n → M.Wanted moves n

/-! ### The moves of a run -/

section Moves

variable {M} {s : σ} {a : ℓ} {x : σ × ℓ} {moves recent : List (σ × ℓ)} {t : ℕ} {op : Op V} {n : N}

lemma since_call (h : M.call x.2 = some (t, op)) : M.Since (x :: moves) t op [] :=
  ⟨x, moves, rfl, h, by simp⟩

lemma Since.cons (h : M.Since moves t op recent) (hx : ∀ op', M.call x.2 ≠ some (t, op')) :
    M.Since (x :: moves) t op (x :: recent) := by
  obtain ⟨y, earlier, rfl, hy, hnone⟩ := h
  exact ⟨y, earlier, rfl, hy, List.forall_mem_cons.mpr ⟨hx, hnone⟩⟩

lemma since_cons (h : M.Since (x :: moves) t op recent) :
    (M.call x.2 = some (t, op) ∧ recent = []) ∨
      (∀ op', M.call x.2 ≠ some (t, op')) ∧ ∃ r, recent = x :: r ∧ M.Since moves t op r := by
  obtain ⟨y, earlier, heq, hy, hnone⟩ := h
  cases recent with
  | nil =>
    cases heq
    exact .inl ⟨hy, rfl⟩
  | cons z r =>
    obtain ⟨rfl, rfl⟩ := List.cons.inj heq
    obtain ⟨hz, hr⟩ := List.forall_mem_cons.mp hnone
    exact .inr ⟨hz, r, rfl, y, earlier, rfl, hy, hr⟩

/-- A call can be read off the labels of a run. -/
lemma since_of_labels {later earlier : List ℓ}
    (h : moves.map Prod.snd = later ++ a :: earlier) (ha : M.call a = some (t, op))
    (hlater : ∀ y ∈ later, ∀ c ∈ M.call y, c.1 ≠ t) :
    ∃ recent, M.Since moves t op recent ∧ ∀ y ∈ recent, y ∈ moves := by
  obtain ⟨recent, rest, rfl, rfl, hrest⟩ := List.map_eq_append_iff.mp h
  obtain ⟨y, ys, rfl, rfl, -⟩ := List.map_eq_cons_iff.mp hrest
  exact ⟨recent, ⟨y, ys, rfl, ha, fun z hz op' hc => hlater z.2 (List.mem_map_of_mem hz) _ hc rfl⟩,
    fun z hz => List.mem_append_left _ hz⟩

lemma Wanted.cons (h : M.Wanted moves n) (hn : M.Alive x.1 n) : M.Wanted (x :: moves) n := by
  obtain ⟨later, y, earlier, t, val, recent, rfl, hm, hsince, hy, hlater⟩ := h
  exact ⟨x :: later, y, earlier, t, val, recent, rfl, hm, hsince, hy,
    List.forall_mem_cons.mpr ⟨hn, hlater⟩⟩

lemma wanted_step {val : Bool} (hm : M.mover a = some t)
    (hsince : M.Since moves t (.delete (M.node s n).key val) recent) (hn : M.Alive s n) :
    M.Wanted ((s, a) :: moves) n :=
  ⟨[], (s, a), moves, t, val, recent, rfl, hm, hsince, hn, by simp⟩

end Moves

/-! ### Two machines -/

variable {M} {M' : ListMachine τ κ N V}

/-- Two states show the same list and the same threads. -/
structure Mirrors (M : ListMachine σ ℓ N V) (M' : ListMachine τ κ N V) (s : σ) (s' : τ) :
    Prop where
  chain : M.chain s = M'.chain s'
  node : ∀ n ∈ M.chain s, M.node s n = M'.node s' n
  threads : M.threads s = M'.threads s'

/-- Two moves are the same call, or steps of the same thread, and lead to the same list. -/
structure Follows (M : ListMachine σ ℓ N V) (M' : ListMachine τ κ N V) (x : σ × ℓ) (x' : τ × κ) :
    Prop where
  state : Mirrors M M' x.1 x'.1
  call : M.call x.2 = M'.call x'.2
  mover : M.mover x.2 = M'.mover x'.2
  next : ∃ s s', M.next x.1 x.2 = some s ∧ M'.next x'.1 x'.2 = some s' ∧ Mirrors M M' s s'

variable {s : σ} {s' : τ} {x : σ × ℓ} {x' : τ × κ} {moves recent : List (σ × ℓ)}
  {moves' recent' : List (τ × κ)} {n : N} {t : ℕ} {op : Op V} {key : ℤ} {v : Option V}

lemma Mirrors.symm (h : Mirrors M M' s s') : Mirrors M' M s' s :=
  ⟨h.chain.symm, fun n hn => (h.node n (h.chain ▸ hn)).symm, h.threads.symm⟩

lemma Follows.symm (h : Follows M M' x x') : Follows M' M x' x := by
  obtain ⟨s, s', hs, hs', hm⟩ := h.next
  exact ⟨h.state.symm, h.call.symm, h.mover.symm, s', s, hs', hs, hm.symm⟩

lemma Mirrors.alive (h : Mirrors M M' s s') : M.Alive s n ↔ M'.Alive s' n := by
  unfold Alive
  rw [← h.chain]
  refine and_congr_right fun hn => ?_
  rw [h.node n hn]

lemma Mirrors.stored (h : Mirrors M M' s s') (hv : M.Stored s key v) : M'.Stored s' key v := by
  obtain ⟨n, hn, hk, hval⟩ := hv
  rw [h.node n hn.1] at hk hval
  exact ⟨n, h.alive.mp hn, hk, hval⟩

lemma follows_symm (h : List.Forall₂ (Follows M M') moves moves') :
    List.Forall₂ (Follows M' M) moves' moves :=
  h.flip.imp fun _ _ => Follows.symm

lemma forall₂_split {α β : Type*} {R : α → β → Prop} {a b : List α} {l : List β}
    (h : List.Forall₂ R (a ++ b) l) :
    ∃ a' b', l = a' ++ b' ∧ List.Forall₂ R a a' ∧ List.Forall₂ R b b' := by
  induction a generalizing l with
  | nil => exact ⟨[], l, rfl, .nil, h⟩
  | cons x a ih =>
    rcases h with _ | ⟨hx, h⟩
    obtain ⟨a', b', rfl, ha, hb⟩ := ih h
    exact ⟨_ :: a', b', rfl, .cons hx ha, hb⟩

lemma forall₂_mem {α β : Type*} {R : α → β → Prop} {a : List α} {b : List β}
    (h : List.Forall₂ R a b) {x : α} (hx : x ∈ a) : ∃ y ∈ b, R x y := by
  induction h with
  | nil => simp at hx
  | cons hxy _ ih =>
    rcases List.mem_cons.mp hx with rfl | hx
    · exact ⟨_, by simp, hxy⟩
    · obtain ⟨y, hy, hR⟩ := ih hx
      exact ⟨y, List.mem_cons_of_mem _ hy, hR⟩

lemma Since.mirror (hall : List.Forall₂ (Follows M M') moves moves')
    (h : M.Since moves t op recent) :
    ∃ recent', M'.Since moves' t op recent' ∧ List.Forall₂ (Follows M M') recent recent' := by
  obtain ⟨x, earlier, rfl, hcall, hnone⟩ := h
  obtain ⟨recent', rest, rfl, hr, hrest⟩ := forall₂_split hall
  rcases hrest with _ | ⟨hx, hrest⟩
  refine ⟨recent', ⟨_, _, rfl, hx.call ▸ hcall, fun y' hy' op' => ?_⟩, hr⟩
  obtain ⟨y, hy, hyy⟩ := forall₂_mem (follows_symm hr) hy'
  rw [hyy.call]
  exact hnone y hy op'

lemma WasStored.mirror (hall : List.Forall₂ (Follows M M') recent recent') (hs : Mirrors M M' s s')
    (h : M.WasStored recent s key v) : M'.WasStored recent' s' key v := by
  rcases h with h | ⟨x, hx, h⟩
  · exact .inl (hs.stored h)
  · obtain ⟨x', hx', hxx⟩ := forall₂_mem hall hx
    exact .inr ⟨x', hx', hxx.state.stored h⟩

lemma Removed.mirror (hall : List.Forall₂ (Follows M M') recent recent')
    (h : M.Removed recent key v) : M'.Removed recent' key v := by
  obtain ⟨x, hx, s, n, hs, hn, hgone, hk, hv⟩ := h
  obtain ⟨x', hx', hxx⟩ := forall₂_mem hall hx
  obtain ⟨u, u', hu, hu', hm⟩ := hxx.next
  obtain rfl := Option.some.inj (hs.symm.trans hu)
  rw [hxx.state.node n hn.1] at hk hv
  exact ⟨x', hx', u', n, hu', hxx.state.alive.mp hn, fun h => hgone (hm.alive.mpr h), hk, hv⟩

lemma Wanted.mirror (hall : List.Forall₂ (Follows M M') moves moves') (h : M.Wanted moves n) :
    M'.Wanted moves' n := by
  obtain ⟨later, x, earlier, t, val, recent, rfl, hmv, hsince, hn, hlater⟩ := h
  obtain ⟨later', rest, rfl, hl, hrest⟩ := forall₂_split hall
  rcases hrest with _ | ⟨hx, hrest⟩
  rw [hx.state.node n hn.1] at hsince
  obtain ⟨recent', hsince', -⟩ := hsince.mirror hrest
  refine ⟨later', _, _, t, val, recent', rfl, hx.mover ▸ hmv, hsince', hx.state.alive.mp hn,
    fun y' hy' => ?_⟩
  obtain ⟨y, hy, hyy⟩ := forall₂_mem (follows_symm hl) hy'
  exact hyy.state.alive.mpr (hlater y hy)

/-- **What calls deliver** can be read off a machine that shows the same list. -/
theorem Delivered.mirror (hall : List.Forall₂ (Follows M M') moves moves') (hs : Mirrors M M' s s')
    (h : M'.Delivered moves' s') : M.Delivered moves s where
  search t key recent v hsince hth := by
    obtain ⟨recent', hsince', hr⟩ := hsince.mirror hall
    rw [hs.threads] at hth
    exact (h.search t key recent' v hsince' hth).mirror (follows_symm hr) hs.symm
  delete t key recent v hsince hth := by
    obtain ⟨recent', hsince', hr⟩ := hsince.mirror hall
    rw [hs.threads] at hth
    exact (h.delete t key recent' v hsince' hth).mirror (follows_symm hr)

/-- **What a move spares**, too. -/
theorem Spares.mirror {a : ℓ} {a' : κ} {u : σ} {u' : τ}
    (hall : List.Forall₂ (Follows M M') moves moves') (hs : Mirrors M M' s s')
    (hu : Mirrors M M' u u') (hmover : M.mover a = M'.mover a')
    (h : M'.Spares moves' s' a' u') : M.Spares moves s a u where
  update t key val recent hsince ha k v hk := by
    obtain ⟨recent', hsince', -⟩ := hsince.mirror hall
    have hiff := h.update t key val recent' hsince' (hmover ▸ ha) k v hk
    exact ⟨fun hv => hs.symm.stored (hiff.mp (hu.stored hv)),
      fun hv => hu.symm.stored (hiff.mpr (hs.stored hv))⟩
  mark n hn hgone :=
    (h.mark n (hs.alive.mp hn) fun hn' => hgone (hu.alive.mpr hn')).mirror (follows_symm hall)

end ListMachine

end CoopTasks.LockFreeList
