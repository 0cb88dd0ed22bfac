import CoopTasks.LockFreeList
import Mathlib.Data.List.Chain
import Mathlib.Data.List.Nodup
import Mathlib.Logic.Function.Basic

/-!
The chain of a lock-free list, and what may happen to it.

The nodes linked so far lie on the chain from `head` to `tail` until they are marked and a
flagged predecessor is taken past them. A `Move` is one of the things that any step of any
thread does to the nodes: a write outside the list, a backlink, or a compare-exchange that
links, flags, marks or unlinks. The chain survives each of them, and `Evolves` is what a thread
that does not move can still rely on.
-/

namespace CoopTasks.LockFreeList

/-- What a successful compare-exchange means for the list. -/
inductive Effect (N : Type*)
  | none
  | linked (n : N)
  | flagged (n : N)
  | marked (n : N)
  deriving DecidableEq, Repr

variable {N V : Type*}

/-- The nodes linked so far. -/
def Effect.link : Effect N → List N → List N
  | .linked n, l => n :: l
  | _, l => l

lemma Effect.mem_link {e : Effect N} {l : List N} {n : N} (h : n ∈ e.link l) :
    n ∈ l ∨ e = .linked n := by
  cases e with
  | linked m =>
    rcases List.mem_cons.mp h with rfl | h
    · exact .inr rfl
    · exact .inl h
  | _ => exact .inl h

lemma Effect.link_of_mem {e : Effect N} {l : List N} {n : N} (h : n ∈ l) : n ∈ e.link l := by
  cases e with
  | linked m => exact List.mem_cons_of_mem _ h
  | _ => exact h

/-- The targets of the flags set so far. -/
def Effect.win : Effect N → List N → List N
  | .flagged n, l => n :: l
  | _, l => l

/-- The way back from a node: a linked node with a smaller key. -/
def Back (mem : N → Node N V) (linked : List N) (n : N) : Prop :=
  ∃ b ∈ linked, (mem n).backlink = some b ∧ (mem b).key < (mem n).key

/-- The linked nodes, those in `c` being the chain. -/
structure Chained (mem : N → Node N V) (linked : List N) (head tail : N) (c : List N) : Prop where
  first : c.head? = some head
  last : c.getLast? = some tail
  path : c.IsChain fun a b => (mem a).succ.node = some b
  sub : ∀ n ∈ c, n ∈ linked
  kept : ∀ n ∈ linked, (mem n).succ.marked = false → n ∈ c
  next : ∀ n ∈ linked, n ≠ tail →
    ∃ m ∈ linked, (mem n).succ.node = some m ∧ (mem n).key < (mem m).key
  tail_succ : (mem tail).succ = getUnmarkedRef none
  head_key : (mem head).key = intptrMin
  tail_key : (mem tail).key = intptrMax
  keys : ∀ n ∈ linked, n ≠ head → intptrMin < (mem n).key
  both : ∀ n ∈ linked, (mem n).succ.marked = true → (mem n).succ.flagged = false
  flagger : ∀ n ∈ c, (mem n).succ.marked = true →
    ∃ p ∈ linked, (mem p).succ = getFlaggedRef (some n)
  back : ∀ n ∈ linked, (mem n).succ.marked = true → Back mem linked n
  inner : ∀ n ∈ linked, (mem n).succ.flagged = true → (mem n).succ.node ≠ some tail

/-- The targets whose predecessor was once flagged: marked by now, or still flagged. -/
structure Won (mem : N → Node N V) (linked won : List N) : Prop where
  nodup : won.Nodup
  seen : ∀ d ∈ won, d ∈ linked ∧ ((mem d).succ.marked = true ∨
    ∃ p ∈ linked, (mem p).succ = getFlaggedRef (some d))

/-- What stays true of linked nodes, whatever any thread does. -/
structure Evolves (mem : N → Node N V) (linked : List N) (mem' : N → Node N V)
    (linked' : List N) : Prop where
  grows : ∀ n ∈ linked, n ∈ linked'
  key : ∀ n ∈ linked, (mem' n).key = (mem n).key
  frozen : ∀ n ∈ linked, (mem n).succ.marked = true → (mem' n).succ = (mem n).succ
  flagged : ∀ p ∈ linked, ∀ d ∈ linked, (mem p).succ = getFlaggedRef (some d) →
    (mem' p).succ = getFlaggedRef (some d) ∨ (mem' d).succ.marked = true
  back : ∀ n ∈ linked, Back mem linked n → Back mem' linked' n

variable {mem mem' mem'' : N → Node N V} {linked linked' linked'' won won' c : List N}
  {head tail n m p d x : N} {r : Ref N} {b : Option N}

lemma Evolves.refl : Evolves mem linked mem linked :=
  ⟨fun _ h => h, fun _ _ => rfl, fun _ _ _ => rfl, fun _ _ _ _ h => .inl h, fun _ _ h => h⟩

/-! ### The chain is sorted -/

lemma Chained.head_mem (h : Chained mem linked head tail c) : head ∈ c :=
  List.mem_of_mem_head? h.first

lemma Chained.tail_mem (h : Chained mem linked head tail c) : tail ∈ c :=
  List.mem_of_mem_getLast? h.last

lemma Chained.succ_key (h : Chained mem linked head tail c) (hn : n ∈ linked)
    (hs : (mem n).succ.node = some m) : m ∈ linked ∧ (mem n).key < (mem m).key := by
  have hne : n ≠ tail := by
    rintro rfl
    simp [h.tail_succ] at hs
  obtain ⟨m', hm', hs', hk⟩ := h.next n hn hne
  obtain rfl : m' = m := by simpa [hs'] using hs
  exact ⟨hm', hk⟩

lemma Chained.key_le (h : Chained mem linked head tail c) (hn : n ∈ linked) :
    intptrMin ≤ (mem n).key := by
  by_cases hh : n = head
  · rw [hh, h.head_key]
  · exact (h.keys n hn hh).le

lemma Chained.sorted (h : Chained mem linked head tail c) :
    c.Pairwise fun a b => (mem a).key < (mem b).key := by
  have hchain : c.IsChain fun a b => (mem a).key < (mem b).key :=
    h.path.imp_of_mem_imp fun a b ha _ hs => (h.succ_key (h.sub a ha) hs).2
  rw [← List.isChain_map (R := (· < ·)) fun a => (mem a).key, List.isChain_iff_pairwise] at hchain
  exact List.pairwise_map.mp hchain

lemma Chained.key_inj (h : Chained mem linked head tail c) (hn : n ∈ c) (hm : m ∈ c)
    (hk : (mem n).key = (mem m).key) : n = m := by
  have hnd : (c.map fun a => (mem a).key).Nodup := by
    rw [List.Nodup, List.pairwise_map]
    exact h.sorted.imp fun hlt => hlt.ne
  exact List.inj_on_of_nodup_map hnd hn hm hk

lemma Chained.nodup (h : Chained mem linked head tail c) : c.Nodup :=
  h.sorted.imp fun hlt heq => by
    rw [heq] at hlt
    exact lt_irrefl _ hlt

lemma Chained.split (h : Chained mem linked head tail c) (hn : n ∈ c)
    (hs : (mem n).succ.node = some m) : ∃ a b, c = a ++ n :: m :: b := by
  obtain ⟨a, r, rfl⟩ := List.append_of_mem hn
  cases r with
  | nil =>
    obtain rfl : n = tail := by simpa using h.last
    simp [h.tail_succ] at hs
  | cons y b =>
    obtain rfl : y = m := by
      have := (List.isChain_append_cons_cons.mp h.path).2.1
      simpa [hs] using this.symm
    exact ⟨a, b, rfl⟩

lemma Chained.succ_mem (h : Chained mem linked head tail c) (hn : n ∈ c)
    (hs : (mem n).succ.node = some m) : m ∈ c := by
  obtain ⟨a, b, rfl⟩ := h.split hn hs
  simp

lemma Chained.gap (h : Chained mem linked head tail c) (hn : n ∈ c)
    (hs : (mem n).succ.node = some m) (hx : x ∈ c) :
    (mem x).key ≤ (mem n).key ∨ (mem m).key ≤ (mem x).key := by
  obtain ⟨a, b, rfl⟩ := h.split hn hs
  have hsort := h.sorted
  rw [List.pairwise_append, List.pairwise_cons, List.pairwise_cons] at hsort
  obtain ⟨-, ⟨-, hm, -⟩, ha⟩ := hsort
  rcases List.mem_append.mp hx with hx | hx
  · exact .inl (ha x hx n (by simp)).le
  · rcases List.mem_cons.mp hx with rfl | hx
    · exact .inl le_rfl
    · rcases List.mem_cons.mp hx with rfl | hx
      · exact .inr le_rfl
      · exact .inr (hm x hx).le

lemma Chained.pred_unique (h : Chained mem linked head tail c) (hn : n ∈ c) (hp : p ∈ c)
    (hs : (mem n).succ.node = some m) (hs' : (mem p).succ.node = some m) : n = p := by
  have hnm := h.succ_key (h.sub n hn) hs
  have hpm := h.succ_key (h.sub p hp) hs'
  have heq : (mem n).key = (mem p).key := by
    have hone := h.gap hn hs hp
    have htwo := h.gap hp hs' hn
    omega
  exact h.key_inj hn hp heq

lemma Back.grow (h : Back mem linked n) (hn : n ∈ linked)
    (hgrow : ∀ m ∈ linked, m ∈ linked' ∧ (mem' m).key = (mem m).key)
    (hb : (mem' n).backlink = (mem n).backlink) : Back mem' linked' n := by
  obtain ⟨b, hmem, hback, hk⟩ := h
  refine ⟨b, (hgrow b hmem).1, hb.trans hback, ?_⟩
  rw [(hgrow b hmem).2, (hgrow n hn).2]
  exact hk

lemma path_keep {f g : N → Option N} {l : List N} (h : l.IsChain fun x y => f x = some y)
    (hg : ∀ x ∈ l, g x = f x) : l.IsChain fun x y => g x = some y :=
  h.imp_of_mem_imp fun x _ hx _ hxy => (hg x hx).trans hxy

/-- Links that differ at one cell lead there by the same list, and on from there by another. -/
lemma path_reroute {f g : N → Option N} {a r r' : List N}
    (h : (a ++ p :: r).IsChain fun x y => f x = some y) (hnd : (a ++ p :: r).Nodup)
    (hg : ∀ x, x ≠ p → g x = f x) (hr : (p :: r').IsChain fun x y => g x = some y) :
    (a ++ p :: r').IsChain fun x y => g x = some y := by
  rw [List.isChain_split] at h ⊢
  refine ⟨?_, hr⟩
  have hp : ∀ x ∈ a, x ≠ p := by
    rintro x hx rfl
    exact hnd.disjoint hx (by simp)
  have h := h.1
  rw [List.isChain_append] at h ⊢
  obtain ⟨ha, -, hlast⟩ := h
  refine ⟨path_keep ha fun x hx => hg x (hp x hx), .singleton _, fun x hx y hy => ?_⟩
  exact (hg x (hp x (List.mem_of_mem_getLast? hx))).trans (hlast x hx y hy)

lemma Chained.outside (h : Chained mem linked head tail c)
    (hsame : ∀ n ∈ linked, (mem' n).succ = (mem n).succ ∧ (mem' n).key = (mem n).key ∧
      (Back mem linked n → Back mem' linked n)) : Chained mem' linked head tail c := by
  have hhead := h.sub head h.head_mem
  have htail := h.sub tail h.tail_mem
  refine { h with path := ?_, kept := ?_, next := ?_, tail_succ := ?_, head_key := ?_,
                  tail_key := ?_, keys := ?_, both := ?_, flagger := ?_, back := ?_, inner := ?_ }
  · exact path_keep (f := fun n => (mem n).succ.node) h.path fun n hn => by
      rw [(hsame n (h.sub n hn)).1]
  · intro n hn hm
    rw [(hsame n hn).1] at hm
    exact h.kept n hn hm
  · intro n hn ht
    obtain ⟨m, hm, hs, hk⟩ := h.next n hn ht
    refine ⟨m, hm, by rw [(hsame n hn).1]; exact hs, ?_⟩
    rw [(hsame n hn).2.1, (hsame m hm).2.1]
    exact hk
  · rw [(hsame tail htail).1]
    exact h.tail_succ
  · rw [(hsame head hhead).2.1]
    exact h.head_key
  · rw [(hsame tail htail).2.1]
    exact h.tail_key
  · intro n hn hh
    rw [(hsame n hn).2.1]
    exact h.keys n hn hh
  · intro n hn
    rw [(hsame n hn).1]
    exact h.both n hn
  · intro n hn hm
    rw [(hsame n (h.sub n hn)).1] at hm
    obtain ⟨p, hp, hs⟩ := h.flagger n hn hm
    exact ⟨p, hp, by rw [(hsame p hp).1]; exact hs⟩
  · intro n hn hm
    rw [(hsame n hn).1] at hm
    exact (hsame n hn).2.2 (h.back n hn hm)
  · intro n hn hf
    rw [(hsame n hn).1] at hf ⊢
    exact h.inner n hn hf

lemma evolves_outside (hsame : ∀ n ∈ linked, (mem' n).succ = (mem n).succ ∧
    (mem' n).key = (mem n).key ∧ (Back mem linked n → Back mem' linked n)) :
    Evolves mem linked mem' linked where
  grows _ h := h
  key n hn := (hsame n hn).2.1
  frozen n hn _ := (hsame n hn).1
  flagged p hp d _ hs := .inl (by rw [(hsame p hp).1]; exact hs)
  back n hn := (hsame n hn).2.2

lemma Won.evolves (h : Won mem linked won) (hev : Evolves mem linked mem' linked') :
    Won mem' linked' won where
  nodup := h.nodup
  seen d hd := by
    obtain ⟨hdl, hm | ⟨p, hp, hs⟩⟩ := h.seen d hd
    · exact ⟨hev.grows d hdl, .inl (by rw [hev.frozen d hdl hm]; exact hm)⟩
    · rcases hev.flagged p hp d hdl hs with hs' | hm
      · exact ⟨hev.grows d hdl, .inr ⟨p, hev.grows p hp, hs'⟩⟩
      · exact ⟨hev.grows d hdl, .inl hm⟩

lemma Chained.flag_next (h : Chained mem linked head tail c) (hn : n ∈ linked)
    (hf : (mem n).succ.flagged = true) :
    ∃ m ∈ linked, (mem n).succ = getFlaggedRef (some m) ∧ (mem n).key < (mem m).key := by
  have hnt : n ≠ tail := by rintro rfl; simp [h.tail_succ] at hf
  obtain ⟨m, hm, hs, hk⟩ := h.next n hn hnt
  have hmark : (mem n).succ.marked = false := by
    cases hmk : (mem n).succ.marked with
    | false => rfl
    | true => simp [h.both n hn hmk] at hf
  refine ⟨m, hm, ?_, hk⟩
  rcases hr : (mem n).succ with ⟨node, marked, flagged⟩
  rw [hr] at hs hf hmark
  simp_all [getFlaggedRef]

/-! ### Moves -/

variable [DecidableEq N]

def setSucc (mem : N → Node N V) (n : N) (r : Ref N) : N → Node N V :=
  Function.update mem n { mem n with succ := r }

def setBacklink (mem : N → Node N V) (n : N) (b : Option N) : N → Node N V :=
  Function.update mem n { mem n with backlink := b }

@[simp] lemma setSucc_self : (setSucc mem n r n).succ = r := by simp [setSucc]

lemma setSucc_ne (h : m ≠ n) : setSucc mem n r m = mem m := by simp [setSucc, h]

@[simp] lemma setSucc_key : (setSucc mem n r m).key = (mem m).key := by
  unfold setSucc
  by_cases h : m = n
  · subst h; simp
  · simp [h]

@[simp] lemma setSucc_backlink : (setSucc mem n r m).backlink = (mem m).backlink := by
  unfold setSucc
  by_cases h : m = n
  · subst h; simp
  · simp [h]

/-- What a step does to the nodes that are linked. -/
inductive Move (mem : N → Node N V) (linked : List N) : Effect N → (N → Node N V) → Prop
  | outside {mem₂ : N → Node N V} (h : ∀ n ∈ linked, (mem₂ n).succ = (mem n).succ ∧
      (mem₂ n).key = (mem n).key ∧ (mem₂ n).backlink = (mem n).backlink) :
      Move mem linked .none mem₂
  | backlink {p d : N} (hp : p ∈ linked) (hd : d ∈ linked) (hk : (mem p).key < (mem d).key) :
      Move mem linked .none (setBacklink mem d (some p))
  | link {p x m : N} (hp : p ∈ linked) (hx : x ∉ linked)
      (hs : (mem p).succ = getUnmarkedRef (some m)) (hxs : (mem x).succ = getUnmarkedRef (some m))
      (hpx : (mem p).key < (mem x).key) (hxm : (mem x).key < (mem m).key) :
      Move mem linked (.linked x) (setSucc mem p (getUnmarkedRef (some x)))
  | flag {p d : N} (hp : p ∈ linked) (hs : (mem p).succ = getUnflaggedRef (some d))
      (hd : (mem d).key < intptrMax) :
      Move mem linked (.flagged d) (setSucc mem p (getFlaggedRef (some d)))
  | mark {p d : N} {next : Option N} (hp : p ∈ linked) (hd : d ∈ linked)
      (hs : (mem p).succ = getFlaggedRef (some d)) (hds : (mem d).succ = getUnmarkedRef next)
      (hb : Back mem linked d) :
      Move mem linked (.marked d) (setSucc mem d (getMarkedRef next))
  | unlink {p d : N} (hp : p ∈ linked) (hs : (mem p).succ = getFlaggedRef (some d))
      (hd : (mem d).succ.marked = true) :
      Move mem linked .none (setSucc mem p (getUnflaggedRef (mem d).succ.node))

/-- Overwriting the word of an unmarked node takes nothing from the others, and what it takes
from a node that the word was flagged on is made good by that node's mark. -/
lemma evolves_setSucc (hgrow : ∀ n ∈ linked, n ∈ linked') (hm : (mem p).succ.marked = false)
    (hf : ∀ d, (mem p).succ = getFlaggedRef (some d) → (setSucc mem p r d).succ.marked = true) :
    Evolves mem linked (setSucc mem p r) linked' where
  grows := hgrow
  key _ _ := setSucc_key
  frozen n _ hn := by
    have hne : n ≠ p := by
      rintro rfl
      simp [hm] at hn
    rw [setSucc_ne hne]
  flagged q _ d _ hq := by
    by_cases hqp : q = p
    · subst hqp
      exact .inr (hf d hq)
    · rw [setSucc_ne hqp]
      exact .inl hq
  back n hn hb := hb.grow hn (fun m hm => ⟨hgrow m hm, setSucc_key⟩) setSucc_backlink

lemma Chained.retag (h : Chained mem linked head tail c) (hp : p ∈ linked)
    (hs : (mem p).succ = getUnmarkedRef (some m)) (hr : r.node = some m)
    (hboth : r.marked = true → r.flagged = false) (hinner : r.flagged = true → m ≠ tail)
    (hmark : r.marked = true →
      (∃ q ∈ linked, (mem q).succ = getFlaggedRef (some p)) ∧ Back mem linked p) :
    Chained (setSucc mem p r) linked head tail c where
  first := h.first
  last := h.last
  path := h.path.imp fun a b hab => by
    by_cases ha : a = p
    · subst ha
      simpa [hr, hs] using hab
    · rwa [setSucc_ne ha]
  sub := h.sub
  kept n hn hm := by
    by_cases hnp : n = p
    · subst hnp
      exact h.kept n hn (by simp [hs])
    · rw [setSucc_ne hnp] at hm
      exact h.kept n hn hm
  next n hn ht := by
    simp only [setSucc_key]
    by_cases hnp : n = p
    · subst hnp
      have := h.succ_key hn (m := m) (by simp [hs])
      exact ⟨m, this.1, by simp [hr], this.2⟩
    · rw [setSucc_ne hnp]
      exact h.next n hn ht
  tail_succ := by
    have hne : tail ≠ p := by
      rintro rfl
      simp [h.tail_succ, getUnmarkedRef] at hs
    rw [setSucc_ne hne]
    exact h.tail_succ
  head_key := by simp [h.head_key]
  tail_key := by simp [h.tail_key]
  keys n hn hh := by simpa using h.keys n hn hh
  both n hn := by
    by_cases hnp : n = p
    · subst hnp; simpa using hboth
    · rw [setSucc_ne hnp]
      exact h.both n hn
  flagger n hn hm := by
    have hkeep : ∀ q ∈ linked, (mem q).succ = getFlaggedRef (some n) →
        ∃ q ∈ linked, (setSucc mem p r q).succ = getFlaggedRef (some n) := fun q hq hqs => by
      have hqp : q ≠ p := by
        rintro rfl
        simp [hs, getUnmarkedRef, getFlaggedRef] at hqs
      exact ⟨q, hq, by rw [setSucc_ne hqp]; exact hqs⟩
    by_cases hnp : n = p
    · subst hnp
      obtain ⟨q, hq, hqs⟩ := (hmark (by simpa using hm)).1
      exact hkeep q hq hqs
    · rw [setSucc_ne hnp] at hm
      obtain ⟨q, hq, hqs⟩ := h.flagger n hn hm
      exact hkeep q hq hqs
  back n hn hm := by
    have hback : Back mem linked n := by
      by_cases hnp : n = p
      · subst hnp
        exact (hmark (by simpa using hm)).2
      · rw [setSucc_ne hnp] at hm
        exact h.back n hn hm
    exact hback.grow hn (fun m hm => ⟨hm, setSucc_key⟩) setSucc_backlink
  inner n hn hf := by
    by_cases hnp : n = p
    · subst hnp
      have := hinner (by simpa using hf)
      simpa [hr] using this
    · rw [setSucc_ne hnp] at hf ⊢
      exact h.inner n hn hf

lemma Chained.link (h : Chained mem linked head tail c) (hp : p ∈ linked) (hx : x ∉ linked)
    (hs : (mem p).succ = getUnmarkedRef (some m)) (hxs : (mem x).succ = getUnmarkedRef (some m))
    (hpx : (mem p).key < (mem x).key) (hxm : (mem x).key < (mem m).key) :
    ∃ a b, c = a ++ p :: m :: b ∧ Chained (setSucc mem p (getUnmarkedRef (some x))) (x :: linked)
      head tail (a ++ p :: x :: m :: b) := by
  have hnode : (mem p).succ.node = some m := by simp [hs]
  have hpc : p ∈ c := h.kept p hp (by simp [hs])
  obtain ⟨hm, -⟩ := h.succ_key hp hnode
  have hne : ∀ n ∈ linked, n ≠ x := fun n hn heq => hx (heq ▸ hn)
  have hxp : x ≠ p := (hne p hp).symm
  have hkeep : ∀ q d, (mem q).succ = getFlaggedRef (some d) →
      (setSucc mem p (getUnmarkedRef (some x)) q).succ = getFlaggedRef (some d) := fun q d hq => by
    have hqp : q ≠ p := by
      rintro rfl
      simp [hs, getUnmarkedRef, getFlaggedRef] at hq
    rw [setSucc_ne hqp]
    exact hq
  obtain ⟨a, b, rfl⟩ := h.split hpc hnode
  refine ⟨a, b, rfl, ?_⟩
  have hnd := h.nodup
  have hsame : ∀ n, n ≠ p → setSucc mem p (getUnmarkedRef (some x)) n = mem n :=
    fun n hn => setSucc_ne hn
  have hafter : ∀ n ∈ m :: b, n ≠ p := by
    rintro n hn rfl
    exact (List.nodup_cons.mp (List.nodup_append.mp hnd).2.1).1 hn
  have htail : tail ≠ p := by rintro rfl; simp [h.tail_succ] at hnode
  constructor
  · have := h.first
    cases a <;> simpa using this
  · simpa using h.last
  · refine path_reroute (f := fun n => (mem n).succ.node) h.path hnd
      (fun n hn => by simp [hsame n hn]) ?_
    refine .cons_cons (by simp) (.cons_cons (by simp [hsame x hxp, hxs]) ?_)
    refine path_keep (f := fun n => (mem n).succ.node) h.path.right_of_append.of_cons fun n hn => ?_
    simp [hsame n (hafter n hn)]
  · intro n hn
    have : n = x ∨ n ∈ a ++ p :: m :: b := by
      simp only [List.mem_append, List.mem_cons] at hn ⊢
      tauto
    rcases this with rfl | hn
    · simp
    · exact List.mem_cons_of_mem _ (h.sub n hn)
  · intro n hn hm
    rcases List.mem_cons.mp hn with rfl | hn
    · simp
    · by_cases hnp : n = p
      · subst hnp; simp
      · rw [hsame n hnp] at hm
        have := h.kept n hn hm
        simp only [List.mem_append, List.mem_cons] at this ⊢
        tauto
  · intro n hn ht
    simp only [setSucc_key]
    rcases List.mem_cons.mp hn with rfl | hn
    · exact ⟨m, by simp [hm], by simp [hsame n hxp, hxs], hxm⟩
    · by_cases hnp : n = p
      · subst hnp
        exact ⟨x, by simp, by simp, hpx⟩
      · obtain ⟨m', hm', hs', hk⟩ := h.next n hn ht
        exact ⟨m', by simp [hm'], by rw [hsame n hnp]; exact hs', hk⟩
  · rw [hsame tail htail]
    exact h.tail_succ
  · simp [h.head_key]
  · simp [h.tail_key]
  · intro n hn hh
    rcases List.mem_cons.mp hn with rfl | hn
    · have := h.key_le hp
      simp only [setSucc_key]
      omega
    · simpa using h.keys n hn hh
  · intro n hn
    by_cases hnp : n = p
    · subst hnp; simp
    · rw [hsame n hnp]
      rcases List.mem_cons.mp hn with rfl | hn
      · simp [hxs]
      · exact h.both n hn
  · intro n hn hm
    have hnp : n ≠ p := by rintro rfl; simp at hm
    rw [hsame n hnp] at hm
    have hnx : n ≠ x := by rintro rfl; simp [hxs] at hm
    obtain ⟨q, hq, hqs⟩ := h.flagger n
      (by simp only [List.mem_append, List.mem_cons] at hn ⊢; tauto) hm
    exact ⟨q, by simp [hq], hkeep q n hqs⟩
  · intro n hn hm
    have hnp : n ≠ p := by rintro rfl; simp at hm
    rw [hsame n hnp] at hm
    rcases List.mem_cons.mp hn with rfl | hn
    · simp [hxs] at hm
    · exact (h.back n hn hm).grow hn (fun q hq => ⟨by simp [hq], setSucc_key⟩) setSucc_backlink
  · intro n hn hf
    have hnp : n ≠ p := by rintro rfl; simp at hf
    rw [hsame n hnp] at hf ⊢
    rcases List.mem_cons.mp hn with rfl | hn
    · simp [hxs] at hf
    · exact h.inner n hn hf

lemma Chained.unlink (h : Chained mem linked head tail c) (hp : p ∈ linked)
    (hs : (mem p).succ = getFlaggedRef (some d)) (hd : (mem d).succ.marked = true) :
    ∃ a b, c = a ++ p :: d :: b ∧
      Chained (setSucc mem p (getUnflaggedRef (mem d).succ.node)) linked head tail
        (a ++ p :: b) := by
  have hnode : (mem p).succ.node = some d := by simp [hs]
  have hpc : p ∈ c := h.kept p hp (by simp [hs])
  obtain ⟨hdl, hpd⟩ := h.succ_key hp hnode
  have hdt : d ≠ tail := by rintro rfl; simp [h.tail_succ] at hd
  obtain ⟨m, hm, hds, hdm⟩ := h.next d hdl hdt
  rw [hds]
  have hdp : d ≠ p := by rintro rfl; simp [hs] at hd
  obtain ⟨a, b, rfl⟩ := h.split hpc hnode
  refine ⟨a, b, rfl, ?_⟩
  have hnd := h.nodup
  have hsame : ∀ n, n ≠ p → setSucc mem p (getUnflaggedRef (some m)) n = mem n :=
    fun n hn => setSucc_ne hn
  have htail : tail ≠ p := by rintro rfl; simp [h.tail_succ] at hnode
  have hafter : ∀ n ∈ d :: b, n ≠ p := by
    rintro n hn rfl
    exact (List.nodup_cons.mp (List.nodup_append.mp hnd).2.1).1 hn
  have hdb : d ∉ a ++ p :: b := by
    have hperm : (d :: (a ++ p :: b)).Nodup := by
      refine hnd.perm ?_
      simpa using @List.perm_middle _ d (a ++ [p]) b
    exact (List.nodup_cons.mp hperm).1
  have hpath := h.path
  have hdpath := hpath.right_of_append.of_cons
  constructor
  · have := h.first
    cases a <;> simpa using this
  · have hlast := h.last
    cases b with
    | nil => simp at hlast; exact absurd hlast hdt
    | cons y b => simpa using hlast
  · refine path_reroute (f := fun n => (mem n).succ.node) hpath hnd
      (fun n hn => by simp [hsame n hn]) ?_
    cases b with
    | nil => exact .singleton _
    | cons y b =>
      rw [List.isChain_cons_cons] at hdpath
      obtain rfl : m = y := by simpa [hds] using hdpath.1
      refine .cons_cons (by simp)
        (path_keep (f := fun n => (mem n).succ.node) hdpath.2 fun n hn => ?_)
      simp [hsame n (hafter n (by simp [hn]))]
  · intro n hn
    exact h.sub n (by simp only [List.mem_append, List.mem_cons] at hn ⊢; tauto)
  · intro n hn hm
    by_cases hnp : n = p
    · subst hnp; simp
    · rw [hsame n hnp] at hm
      have hnd : n ≠ d := by rintro rfl; simp [hd] at hm
      have := h.kept n hn hm
      simp only [List.mem_append, List.mem_cons] at this ⊢
      tauto
  · intro n hn ht
    simp only [setSucc_key]
    by_cases hnp : n = p
    · subst hnp
      exact ⟨m, hm, by simp, hpd.trans hdm⟩
    · rw [hsame n hnp]
      exact h.next n hn ht
  · rw [hsame tail htail]
    exact h.tail_succ
  · simp [h.head_key]
  · simp [h.tail_key]
  · intro n hn hh
    simpa using h.keys n hn hh
  · intro n hn
    by_cases hnp : n = p
    · subst hnp; simp
    · rw [hsame n hnp]
      exact h.both n hn
  · intro n hn hm
    have hnp : n ≠ p := by rintro rfl; simp at hm
    rw [hsame n hnp] at hm
    obtain ⟨q, hq, hqs⟩ := h.flagger n
      (by simp only [List.mem_append, List.mem_cons] at hn ⊢; tauto) hm
    have hqp : q ≠ p := by
      rintro rfl
      obtain rfl : d = n := by simpa [hs, getFlaggedRef] using hqs
      exact hdb hn
    exact ⟨q, hq, by rw [hsame q hqp]; exact hqs⟩
  · intro n hn hm
    have hnp : n ≠ p := by rintro rfl; simp at hm
    rw [hsame n hnp] at hm
    exact (h.back n hn hm).grow hn (fun q hq => ⟨hq, setSucc_key⟩) setSucc_backlink
  · intro n hn hf
    have hnp : n ≠ p := by rintro rfl; simp at hf
    rw [hsame n hnp] at hf ⊢
    exact h.inner n hn hf

lemma setBacklink_back (hp : p ∈ linked) (hd : d ∈ linked) (hk : (mem p).key < (mem d).key)
    (h : Back mem linked n) : Back (setBacklink mem d (some p)) linked n := by
  obtain ⟨b, hb, hbn, hbk⟩ := h
  have hkey : ∀ m, (setBacklink mem d (some p) m).key = (mem m).key := fun m => by
    unfold setBacklink
    by_cases hm : m = d
    · subst hm; simp
    · simp [hm]
  by_cases hn : n = d
  · subst hn
    exact ⟨p, hp, by simp [setBacklink], by rw [hkey, hkey]; exact hk⟩
  · exact ⟨b, hb, by simp [setBacklink, hn, hbn], by rw [hkey, hkey]; exact hbk⟩

@[simp] lemma setBacklink_succ : (setBacklink mem n b m).succ = (mem m).succ := by
  unfold setBacklink
  by_cases h : m = n
  · subst h; simp
  · simp [h]

@[simp] lemma setBacklink_key : (setBacklink mem n b m).key = (mem m).key := by
  unfold setBacklink
  by_cases h : m = n
  · subst h; simp
  · simp [h]

omit [DecidableEq N] in
/-- No target is won twice: its flag stays until it is marked, and from then on its predecessor
on the chain is flagged. -/
lemma Won.flag (h : Won mem linked won) (hc : Chained mem linked head tail c) (hp : p ∈ linked)
    (hs : (mem p).succ = getUnflaggedRef (some d)) : d ∉ won := by
  intro hd
  have hpc : p ∈ c := hc.kept p hp (by simp [hs])
  have hdc : d ∈ c := hc.succ_mem hpc (by simp [hs])
  obtain ⟨q, hq, hqs⟩ : ∃ q ∈ linked, (mem q).succ = getFlaggedRef (some d) := by
    rcases (h.seen d hd).2 with hm | hq
    · exact hc.flagger d hdc hm
    · exact hq
  obtain rfl : q = p := hc.pred_unique (hc.kept q hq (by simp [hqs])) hpc (m := d) (by simp [hqs])
    (by simp [hs])
  simp [hs, getUnflaggedRef, getFlaggedRef] at hqs

/-- Every move keeps the chain. -/
theorem Chained.move {e : Effect N} (h : Chained mem linked head tail c) (hw : Won mem linked won)
    (hmv : Move mem linked e mem') : ∃ c', Chained mem' (e.link linked) head tail c' ∧
      Won mem' (e.link linked) (e.win won) ∧ Evolves mem linked mem' (e.link linked) := by
  cases hmv with
  | outside hsame =>
    have hsame' : ∀ n ∈ linked, (mem' n).succ = (mem n).succ ∧ (mem' n).key = (mem n).key ∧
        (Back mem linked n → Back mem' linked n) := fun n hn =>
      ⟨(hsame n hn).1, (hsame n hn).2.1, fun hb =>
        hb.grow hn (fun m hm => ⟨hm, (hsame m hm).2.1⟩) (hsame n hn).2.2⟩
    have hev := evolves_outside hsame'
    exact ⟨c, h.outside hsame', hw.evolves hev, hev⟩
  | @backlink p d hp hd hk =>
    have hsame : ∀ n ∈ linked, (setBacklink mem d (some p) n).succ = (mem n).succ ∧
        (setBacklink mem d (some p) n).key = (mem n).key ∧
        (Back mem linked n → Back (setBacklink mem d (some p)) linked n) := fun n _ =>
      ⟨setBacklink_succ, setBacklink_key, setBacklink_back hp hd hk⟩
    have hev := evolves_outside hsame
    exact ⟨c, h.outside hsame, hw.evolves hev, hev⟩
  | @link p x m hp hx hs hxs hpx hxm =>
    obtain ⟨a, b, -, hc⟩ := h.link hp hx hs hxs hpx hxm
    have hev : Evolves mem linked (setSucc mem p (getUnmarkedRef (some x))) (x :: linked) :=
      evolves_setSucc (fun n hn => List.mem_cons_of_mem _ hn) (by simp [hs]) fun d hd => by
        simp [hs, getUnmarkedRef, getFlaggedRef] at hd
    exact ⟨_, hc, hw.evolves hev, hev⟩
  | @flag p d hp hs hd =>
    have hev : Evolves mem linked (setSucc mem p (getFlaggedRef (some d))) linked :=
      evolves_setSucc (fun n hn => hn) (by simp [hs]) fun d' hd' => by
        simp [hs, getUnflaggedRef, getFlaggedRef] at hd'
    have hc := h.retag (r := getFlaggedRef (some d)) hp hs (by simp) (by simp) (fun _ heq => by
      rw [heq, h.tail_key] at hd
      exact lt_irrefl _ hd) (by simp)
    refine ⟨c, hc, ⟨List.nodup_cons.mpr ⟨hw.flag h hp hs, hw.nodup⟩, fun d' hd' => ?_⟩, hev⟩
    rcases List.mem_cons.mp hd' with rfl | hd'
    · exact ⟨(h.succ_key hp (by simp [hs])).1, .inr ⟨p, hp, setSucc_self⟩⟩
    · exact (hw.evolves hev).seen d' hd'
  | @mark p d next hp hd hs hds hb =>
    have hev : Evolves mem linked (setSucc mem d (getMarkedRef next)) linked :=
      evolves_setSucc (fun n hn => hn) (by simp [hds]) fun d' hd' => by
        simp [hds, getUnmarkedRef, getFlaggedRef] at hd'
    have hdt : d ≠ tail := by
      rintro rfl
      exact h.inner p hp (by simp [hs]) (by simp [hs])
    obtain ⟨m, -, hm, -⟩ := h.next d hd hdt
    obtain rfl : next = some m := by simpa [hds] using hm
    exact ⟨c, h.retag hd hds (by simp) (by simp) (by simp) fun _ => ⟨⟨p, hp, hs⟩, hb⟩,
      hw.evolves hev, hev⟩
  | @unlink p d hp hs hd =>
    have hdp : d ≠ p := by rintro rfl; simp [hs] at hd
    have hev : Evolves mem linked (setSucc mem p (getUnflaggedRef (mem d).succ.node)) linked :=
      evolves_setSucc (fun n hn => hn) (by simp [hs]) fun d' hd' => by
        obtain rfl : d = d' := by simpa [hs, getFlaggedRef] using hd'
        rw [setSucc_ne hdp]
        exact hd
    obtain ⟨a, b, -, hc⟩ := h.unlink hp hs hd
    exact ⟨_, hc, hw.evolves hev, hev⟩

/-! ### The keys of the list -/

/-- The keys of the unmarked nodes. -/
def keysOf (mem : N → Node N V) (linked : List N) : Set ℤ :=
  {k | ∃ n ∈ linked, (mem n).succ.marked = false ∧ (mem n).key = k}

omit [DecidableEq N] in
lemma keysOf_congr (hmark : ∀ n ∈ linked, (mem' n).succ.marked = (mem n).succ.marked)
    (hkey : ∀ n ∈ linked, (mem' n).key = (mem n).key) : keysOf mem' linked = keysOf mem linked := by
  ext k
  constructor
  · rintro ⟨n, hn, hm, hk⟩
    exact ⟨n, hn, by rw [← hmark n hn]; exact hm, by rw [← hkey n hn]; exact hk⟩
  · rintro ⟨n, hn, hm, hk⟩
    exact ⟨n, hn, by rw [hmark n hn]; exact hm, by rw [hkey n hn]; exact hk⟩

lemma setSucc_marked (h : r.marked = (mem p).succ.marked) :
    (setSucc mem p r n).succ.marked = (mem n).succ.marked := by
  by_cases hn : n = p
  · subst hn; simpa using h
  · rw [setSucc_ne hn]

lemma Chained.keys_link (h : Chained mem linked head tail c) (hp : p ∈ linked) (hx : x ∉ linked)
    (hs : (mem p).succ = getUnmarkedRef (some m)) (hxs : (mem x).succ = getUnmarkedRef (some m))
    (hpx : (mem p).key < (mem x).key) (hxm : (mem x).key < (mem m).key) :
    (mem x).key ∉ keysOf mem linked ∧
      keysOf (setSucc mem p (getUnmarkedRef (some x))) (x :: linked) =
        insert (mem x).key (keysOf mem linked) := by
  have hmark : ∀ n, (setSucc mem p (getUnmarkedRef (some x)) n).succ.marked = (mem n).succ.marked :=
    fun n => setSucc_marked (by simp [hs])
  constructor
  · rintro ⟨n, hn, hm, hk⟩
    have := h.gap (h.kept p hp (by simp [hs])) (m := m) (by simp [hs]) (h.kept n hn hm)
    omega
  · ext k
    simp only [keysOf, Set.mem_ofPred_eq, Set.mem_insert_iff, List.mem_cons, hmark, setSucc_key]
    constructor
    · rintro ⟨n, rfl | hn, hm, rfl⟩
      · exact .inl rfl
      · exact .inr ⟨n, hn, hm, rfl⟩
    · rintro (rfl | ⟨n, hn, hm, rfl⟩)
      · exact ⟨x, .inl rfl, by simp [hxs], rfl⟩
      · exact ⟨n, .inr hn, hm, rfl⟩

lemma Chained.keys_mark (h : Chained mem linked head tail c) (hd : d ∈ linked)
    (hds : (mem d).succ.marked = false) (hr : r.marked = true) :
    (mem d).key ∈ keysOf mem linked ∧
      keysOf (setSucc mem d r) linked = keysOf mem linked \ {(mem d).key} := by
  refine ⟨⟨d, hd, hds, rfl⟩, ?_⟩
  ext k
  simp only [keysOf, Set.mem_ofPred_eq, Set.mem_sdiff, Set.mem_singleton_iff, setSucc_key]
  constructor
  · rintro ⟨n, hn, hm, rfl⟩
    have hnd : n ≠ d := by rintro rfl; simp [hr] at hm
    rw [setSucc_ne hnd] at hm
    exact ⟨⟨n, hn, hm, rfl⟩, fun hk => hnd (h.key_inj (h.kept n hn hm) (h.kept d hd hds) hk)⟩
  · rintro ⟨⟨n, hn, hm, rfl⟩, hk⟩
    have hnd : n ≠ d := by rintro rfl; exact hk rfl
    exact ⟨n, hn, by rw [setSucc_ne hnd]; exact hm, rfl⟩

/-- Only linking a node and marking one change which keys the list holds; what they add was
absent, and what they remove was present. -/
def KeysMoved (key : N → ℤ) (keys keys' : Set ℤ) : Effect N → Prop
  | .linked n => key n ∉ keys ∧ keys' = insert (key n) keys
  | .marked n => key n ∈ keys ∧ keys' = keys \ {key n}
  | .flagged _ | .none => keys' = keys

theorem Chained.keys_move {e : Effect N} (h : Chained mem linked head tail c)
    (hmv : Move mem linked e mem') :
    KeysMoved (fun n => (mem n).key) (keysOf mem linked) (keysOf mem' (e.link linked)) e := by
  cases hmv with
  | outside hsame =>
    exact keysOf_congr (fun n hn => by rw [(hsame n hn).1]) fun n hn => (hsame n hn).2.1
  | backlink => exact keysOf_congr (fun n _ => by rw [setBacklink_succ]) fun n _ => setBacklink_key
  | link hp hx hs hxs hpx hxm => exact h.keys_link hp hx hs hxs hpx hxm
  | flag hp hs =>
    exact keysOf_congr (fun n _ => setSucc_marked (by simp [hs])) fun n _ => setSucc_key
  | mark hp hd hs hds => exact h.keys_mark hd (by simp [hds]) (by simp)
  | unlink hp hs =>
    exact keysOf_congr (fun n _ => setSucc_marked (by simp [hs])) fun n _ => setSucc_key

end CoopTasks.LockFreeList
