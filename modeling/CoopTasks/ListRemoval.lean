import CoopTasks.ListCalls

/-!
`list_delete` on a list at rest: the predecessor is flagged, the node is marked, unlinked and given
back.
-/

namespace CoopTasks.LockFreeList

open CoopTasks.Chain (Tagged Cells Linked)
open CoopTasks.Machine CoopTasks.SizeT

variable {V : Type*} {m : Mem V} {head tail prev d e n k : ℕ} {c free : List ℕ} {key : ℤ}
  {wants : Bool} {Q : Mem V × Thread ℕ V → Prop} {pc : Pc ℕ V}

/-! ### The memory on the way -/

/-- The predecessor is flagged. -/
def flaggedOn (m : Mem V) (prev d : ℕ) : Mem V := m.setSucc prev (getFlaggedRef (some d))

/-- And the node has its backlink. -/
def backlinked (m : Mem V) (prev d : ℕ) : Mem V :=
  let m₁ := flaggedOn m prev d
  m₁.setFields d { m₁.cells.data d with backlink := some prev }

/-- And the node is marked. -/
def markedOff (m : Mem V) (prev d e : ℕ) : Mem V :=
  (backlinked m prev d).setSucc d (getMarkedRef (some e))

/-- And the predecessor points past the node. -/
def unlinked (m : Mem V) (prev d e : ℕ) : Mem V :=
  (markedOff m prev d e).setSucc prev (getUnflaggedRef (some e))

lemma flaggedOn_node : (flaggedOn m prev d).node =
    setSucc m.node prev (getFlaggedRef (some d)) := node_setSucc

lemma backlinked_node : (backlinked m prev d).node =
    setBacklink (flaggedOn m prev d).node d (some prev) := node_setFields

lemma markedOff_node : (markedOff m prev d e).node =
    setSucc (backlinked m prev d).node d (getMarkedRef (some e)) := node_setSucc

lemma unlinked_node : (unlinked m prev d e).node =
    setSucc (markedOff m prev d e).node prev (getUnflaggedRef (some e)) := node_setSucc

lemma unlinked_link (hp : n ≠ prev) (hd : n ≠ d) :
    (unlinked m prev d e).cells.link n = m.cells.link n := by
  rw [unlinked, link_setSucc_ne hp, markedOff, link_setSucc_ne hd]
  exact link_setSucc_ne hp

lemma unlinked_own (hd : n ≠ d) (h : m.Own n) : (unlinked m prev d e).Own n := by
  unfold Mem.Own at *
  by_cases hp : n = prev
  · subst hp
    rw [unlinked_node, setSucc_self]
    exact link_setSucc_self
  · rw [unlinked_link hp hd, h, unlinked_node, setSucc_ne hp, markedOff_node, setSucc_ne hd,
      backlinked_node, setBacklink_succ, flaggedOn_node, setSucc_ne hp]

lemma unlinked_data : ((unlinked m prev d e).node n).key = (m.node n).key ∧
    ((unlinked m prev d e).node n).val = (m.node n).val := by
  by_cases hd : n = d
  · subst hd
    simp [Mem.node, unlinked, markedOff, backlinked, flaggedOn, Mem.setSucc, Mem.setFields,
      Chain.Cells.setLink, Chain.Cells.setData]
  · simp [Mem.node, unlinked, markedOff, backlinked, flaggedOn, Mem.setSucc, Mem.setFields,
      Chain.Cells.setLink, Chain.Cells.setData, hd]

/-- A node to delete and its two neighbours. -/
structure Doomed (m : Mem V) (head tail : ℕ) (c : List ℕ) (prev d e : ℕ) : Prop where
  before : prev ∈ c
  word : (m.node prev).succ = getUnmarkedRef (some d)
  on : d ∈ c
  succ : (m.node d).succ = getUnmarkedRef (some e)
  inner : Inner head tail d
  key_lt : (m.node prev).key < (m.node d).key
  key_max : (m.node d).key < intptrMax

lemma Doomed.ne (h : Doomed m head tail c prev d e) : d ≠ prev := fun heq => by
  have := h.key_lt
  rw [heq] at this
  exact lt_irrefl _ this

lemma Rests.doomed (h : Rests m head tail c free) (hb : Between m.node c (key - 1) prev d)
    (hk : (m.node d).key = key) (hlow : intptrMin < key) (hhigh : key < intptrMax) :
    ∃ e, Doomed m head tail c prev d e := by
  have hd := h.clean.succ_mem hb.on hb.succ
  obtain ⟨e, -, hs, -⟩ := h.clean.exists_succ hd (by omega)
  have hle := hb.le
  exact ⟨e, hb.on, hb.word h.clean, hd, by rw [h.clean.succ_eq hd, hs],
    h.clean.inner_of_key hk hlow hhigh, by omega, by omega⟩

lemma Doomed.found (hd : Doomed m head tail c prev d e) (h : Clean m.node head tail c)
    (hk : (m.node d).key = key) {prev' d' : ℕ} (hb : Between m.node c (key - 1) prev' d') :
    d' = d := by
  have hd' := h.succ_mem hb.on hb.succ
  have hle := hb.le
  have hlt := hb.lt
  refine h.key_inj hd' hd.on ?_
  rcases h.gap hb.on hb.succ hd.on with hgap | hgap <;> omega

/-! The words of the two nodes on the way. -/

lemma Doomed.backlinked_prev : ((backlinked m prev d).node prev).succ =
    getFlaggedRef (some d) := by
  rw [backlinked_node, setBacklink_succ, flaggedOn_node, setSucc_self]

lemma Doomed.backlinked_self (hd : Doomed m head tail c prev d e) :
    ((backlinked m prev d).node d).succ = getUnmarkedRef (some e) := by
  rw [backlinked_node, setBacklink_succ, flaggedOn_node, setSucc_ne hd.ne, hd.succ]

lemma Doomed.markedOff_prev (hd : Doomed m head tail c prev d e) :
    ((markedOff m prev d e).node prev).succ = getFlaggedRef (some d) := by
  rw [markedOff_node, setSucc_ne hd.ne.symm, backlinked_prev]

lemma Doomed.markedOff_self : ((markedOff m prev d e).node d).succ = getMarkedRef (some e) := by
  rw [markedOff_node, setSucc_self]

lemma Doomed.unlinked_self (hd : Doomed m head tail c prev d e) :
    ((unlinked m prev d e).node d).succ = getMarkedRef (some e) := by
  rw [unlinked_node, setSucc_ne hd.ne, markedOff_self]

lemma Doomed.unlinked_other (h : Clean m.node head tail c) (hn : n ∈ c) (hnd : n ≠ d) :
    ((unlinked m prev d e).node n).succ.marked = false ∧
      ((unlinked m prev d e).node n).succ.flagged = false := by
  rw [unlinked_node]
  by_cases hnp : n = prev
  · subst hnp
    simp
  · rw [setSucc_ne hnp, markedOff_node, setSucc_ne hnd, backlinked_node, setBacklink_succ,
      flaggedOn_node, setSucc_ne hnp]
    exact ⟨h.marked n hn, h.flagged n hn⟩

lemma Doomed.chained (hd : Doomed m head tail c prev d e) (h : Clean m.node head tail c) :
    ∃ c', Chained (unlinked m prev d e).node c head tail c' := by
  have hkey : ∀ n, ((flaggedOn m prev d).node n).key = (m.node n).key := fun n => by
    rw [flaggedOn_node, setSucc_key]
  have hflag : Move m.node c (.flagged d) (flaggedOn m prev d).node := by
    rw [flaggedOn_node]
    exact .flag hd.before hd.word hd.key_max
  have hback : Move (flaggedOn m prev d).node c .none (backlinked m prev d).node := by
    rw [backlinked_node]
    refine .backlink hd.before hd.on ?_
    rw [hkey, hkey]
    exact hd.key_lt
  have hmark : Move (backlinked m prev d).node c (.marked d) (markedOff m prev d e).node := by
    rw [markedOff_node]
    refine .mark hd.before hd.on backlinked_prev hd.backlinked_self ⟨prev, hd.before, ?_, ?_⟩
    · rw [backlinked_node]
      simp [setBacklink]
    · rw [backlinked_node, setBacklink_key, setBacklink_key, hkey, hkey]
      exact hd.key_lt
  have hunlink : Move (markedOff m prev d e).node c .none (unlinked m prev d e).node := by
    have := Move.unlink hd.before hd.markedOff_prev (by rw [markedOff_self]; rfl)
    rw [markedOff_self] at this
    rw [unlinked_node]
    exact this
  obtain ⟨c₁, h₁, hw₁, -⟩ := h.move won_nil hflag
  obtain ⟨c₂, h₂, hw₂, -⟩ := h₁.move hw₁ hback
  obtain ⟨c₃, h₃, hw₃, -⟩ := h₂.move hw₂ hmark
  obtain ⟨c₄, h₄, -, -⟩ := h₃.move hw₃ hunlink
  exact ⟨c₄, h₄⟩

lemma Doomed.clean (hd : Doomed m head tail c prev d e) (h : Clean m.node head tail c) :
    ∃ c', Clean (unlinked m prev d e).node head tail c' ∧ ∀ n, n ∈ c' ↔ n ∈ c ∧ n ≠ d := by
  obtain ⟨c', hc'⟩ := hd.chained h
  -- nothing is flagged any more, so that a marked node cannot be on the chain
  have hoff : d ∉ c' := fun hdc => by
    obtain ⟨p, hp, hs⟩ := hc'.flagger d hdc (by rw [hd.unlinked_self]; rfl)
    have hpd : p ≠ d := by
      rintro rfl
      simp [hd.unlinked_self, getMarkedRef, getFlaggedRef] at hs
    have hword : ((unlinked m prev d e).node p).succ.flagged = false := (unlinked_other h hp hpd).2
    simp [hs] at hword
  have hmem : ∀ n, n ∈ c' ↔ n ∈ c ∧ n ≠ d := fun n => by
    constructor
    · intro hn
      refine ⟨hc'.sub n hn, ?_⟩
      rintro rfl
      exact hoff hn
    · rintro ⟨hn, hnd⟩
      exact hc'.kept n hn (unlinked_other h hn hnd).1
  refine ⟨c', hc'.clean (fun n hn => ?_) fun n hn => ?_, hmem⟩
  · exact (unlinked_other h ((hmem n).mp hn).1 ((hmem n).mp hn).2).1
  · exact (unlinked_other h ((hmem n).mp hn).1 ((hmem n).mp hn).2).2

lemma Rests.removed (h : Rests m head tail c free) (hd : Doomed m head tail c prev d e)
    (hlen : free.length ≤ sizeMax) :
    ∃ P C c', runPut d poolFuel (unlinked m prev d e).pool (unlinked m prev d e).cells .init =
        some (P, C) ∧
      Rests { unlinked m prev d e with pool := P, cells := C } head tail c' (free ++ [d]) ∧
      (∀ n, n ∈ c' ↔ n ∈ c ∧ n ≠ d) ∧ P.capacity = m.pool.capacity ∧
      C.data = (unlinked m prev d e).cells.data := by
  obtain ⟨c', hc', hmem⟩ := hd.clean h.clean
  have hfree : ∀ n ∈ free, n ∉ c := fun n hn hnc => h.apart hnc hn
  have hready : Ready (unlinked m prev d e).pool (unlinked m prev d e).cells free := by
    refine h.ready.congr fun n hn => unlinked_link ?_ ?_
    · rintro rfl
      exact hfree n hn hd.before
    · rintro rfl
      exact hfree n hn hd.on
  obtain ⟨P, C, hrun, hready', hdata, hcap, hlink⟩ :=
    runPut_ready hready (fun hdf => hfree d hdf hd.on) hlen
  have hsame : ∀ n ∈ c', C.link n = (unlinked m prev d e).cells.link n := fun n hn =>
    hlink n (fun hnf => hfree n hnf ((hmem n).mp hn).1) ((hmem n).mp hn).2
  have hnode : ∀ n ∈ c', ({ unlinked m prev d e with pool := P, cells := C } : Mem V).node n =
      (unlinked m prev d e).node n := fun n hn => by
    simp only [Mem.node, hsame n hn, hdata]
  refine ⟨P, C, c', hrun, ⟨hc'.agree hnode, fun n hn => ?_, hready', ?_, h.readers⟩, hmem, hcap,
    hdata⟩
  · have hown : (unlinked m prev d e).Own n :=
      unlinked_own ((hmem n).mp hn).2 (h.own n ((hmem n).mp hn).1)
    unfold Mem.Own at *
    rw [hnode n hn, ← hown]
    exact hsame n hn
  · intro n hn hnf
    rcases List.mem_append.mp hnf with hnf | hnf
    · exact hfree n hnf ((hmem n).mp hn).1
    · exact ((hmem n).mp hn).2 (List.mem_singleton.mp hnf)

/-! ### The thread -/

lemma Serves.mark (h : Rests m head tail c free) (hd : Doomed m head tail c prev d e)
    (harg : pc.ArgOk)
    (hdone : ∀ k, Serves head tail Q k (unlinked m prev d e, ⟨[], pc⟩)) :
    Serves head tail Q k
      (backlinked m prev d, ⟨[{ prev := prev, del := d, pc := .tryMark .load }], pc⟩) := by
  induction k using Nat.strong_induction_on with
  | _ k ih =>
    refine .access harg rfl trivial (fun _ => exec_load hd.backlinked_self) ?_
    refine .cas harg rfl ⟨fun _ => hd.inner, by simp, by simp⟩ ?_ ?_ fun _ j hj => ?_
    · have := h.own d hd.on
      unfold Mem.Own at this
      rw [hd.succ] at this
      exact (link_setSucc_ne hd.ne).trans this
    · refine .access harg rfl trivial (fun _ => exec_load Doomed.markedOff_self) ?_
      refine .access harg rfl trivial (fun _ => exec_load Doomed.markedOff_self) ?_
      refine .access harg rfl trivial (fun _ => exec_load Doomed.markedOff_self) ?_
      refine .cas harg rfl ⟨by simp, by simp, fun _ => ?_⟩ ?_ (hdone k) fun hmay => by cases hmay
      · simpa [Inner] using hd.inner
      · exact (link_setSucc_ne hd.ne.symm).trans link_setSucc_self
    -- the compare-exchange of `try_mark` failed spuriously
    · refine .access harg rfl trivial (fun _ => exec_load hd.backlinked_self) ?_
      refine .access harg rfl trivial (fun _ => exec_load hd.backlinked_self) ?_
      exact ih j hj

lemma Serves.help (h : Rests m head tail c free) (hd : Doomed m head tail c prev d e)
    (harg : pc.ArgOk)
    (hdone : ∀ k, Serves head tail Q k (unlinked m prev d e, ⟨[], pc⟩)) :
    Serves head tail Q k (flaggedOn m prev d, ⟨[.call prev d], pc⟩) := by
  refine .access harg rfl hd.inner (fun _ => rfl) ?_
  refine .access harg rfl trivial (fun _ => exec_load hd.backlinked_self) ?_
  exact .mark h hd harg hdone

lemma Serves.flag (h : Rests m head tail c free) (hd : Doomed m head tail c prev d e)
    (hk : (m.node d).key = key) (hlow : intptrMin < key)
    (hdone : ∀ prev, Doomed m head tail c prev d e → ∀ k,
      Serves head tail Q k (flaggedOn m prev d, flagged key wants prev d true)) :
    Serves head tail Q k (m, ⟨[], .tryFlag key wants prev d .testNode⟩) := by
  induction k using Nat.strong_induction_on generalizing prev with
  | _ k ih =>
    have hmin := hd.key_max
    refine .access trivial rfl trivial (fun _ => exec_load hd.word) ?_
    rw [show isNode (· == ·) (getUnmarkedRef (some d)).node d = true by simp [isNode]]
    refine .access trivial rfl trivial (fun _ => exec_load hd.word) ?_
    refine .access trivial rfl trivial (fun _ => exec_load hd.word) ?_
    refine .cas trivial rfl ⟨by simp, fun _ => ?_, by simp⟩ ?_ (hdone prev hd k) fun _ j hj => ?_
    · simpa [Inner] using hd.inner
    · have := h.own prev hd.before
      unfold Mem.Own at this
      rw [this, hd.word]
      rfl
    -- the compare-exchange failed spuriously: search again from the predecessor
    refine .access trivial rfl trivial (fun _ => exec_load hd.word) ?_
    rw [show (isNode (· == ·) (getUnmarkedRef (some d)).node d &&
      (getUnmarkedRef (some d)).isFlag) = false by simp [Ref.isFlag]]
    refine .access trivial rfl trivial (fun _ => exec_load hd.word) ?_
    refine .access trivial rfl trivial (fun _ => exec_loadKey hk) ?_
    refine .search h.clean (by omega) (by omega) ⟨hd.before, by have := hd.key_lt; omega⟩
      fun prev' d' hb => ?_
    obtain rfl := hd.found h.clean hk hb
    rw [show found (V := V) (· == ·) (key - 1) prev' d' (.tryFlag key wants d') =
      .tryFlag key wants prev' d' .testNode by simp [found]]
    have hle := hb.le
    exact ih j hj ⟨hb.on, hb.word h.clean, hd.on, hd.succ, hd.inner, by omega, hd.key_max⟩

/-- **Deletion** of a key of the list delivers the value of its node and gives the node back, and
fails for another key. -/
theorem Serves.deleteCheck (h : Rests m head tail c free) (hlow : intptrMin < key)
    (hhigh : key < intptrMax) (hlen : free.length ≤ sizeMax)
    (hb : Between m.node c (key - 1) prev d)
    (hmissing : (m.node d).key ≠ key → ∀ k,
      Serves head tail Q k (m, ⟨[], .returned (.fail (some .enoent))⟩))
    (hfound : ∀ m' c', (m.node d).key = key → Rests m' head tail c' (free ++ [d]) →
      (∀ n, n ∈ c' ↔ n ∈ c ∧ n ≠ d) → m'.pool.capacity = m.pool.capacity →
      (∀ n, (m'.node n).key = (m.node n).key ∧ (m'.node n).val = (m.node n).val) → ∀ k,
      Serves head tail Q k
        (m', ⟨[], .returned (.ok (bif wants then some (m.node d).val else none))⟩)) :
    Serves head tail Q k (m, ⟨[], .delete key wants d (.check prev)⟩) := by
  refine .access trivial rfl trivial (fun _ => exec_loadKey rfl) ?_
  by_cases hk : (m.node d).key = key
  · rw [if_pos hk]
    obtain ⟨e, hd⟩ := h.doomed hb hk hlow hhigh
    refine .flag h hd hk hlow fun prev hd k => ?_
    obtain ⟨P, C, c', hrun, hrests, hmem, hcap, hdata⟩ := h.removed hd hlen
    have hfree : ∀ k, Serves head tail Q k (unlinked m prev d e,
        ⟨[], .delete key wants d (.free (bif wants then some (m.node d).val else none))⟩) :=
      fun k => by
        refine .access trivial rfl hd.inner (fun _ => exec_free hrun) ?_
        refine hfound _ c' hk hrests hmem hcap (fun n => ?_) k
        have hsame : ((unlinked m prev d e).node n).key = (m.node n).key ∧
            ((unlinked m prev d e).node n).val = (m.node n).val := unlinked_data
        simpa only [Mem.node, hdata] using hsame
    refine .help h hd trivial fun k => ?_
    cases wants with
    | false => exact hfree k
    | true =>
      refine .read (fun pc => .delete key true d (.read pc))
        (fun v => ⟨[], .delete key true d (.free (some v))⟩) (fun pc => by cases pc <;> trivial)
        (fun _ => rfl) hd.inner h.readers fun k => ?_
      rw [unlinked_data.2]
      exact hfree k
  · rw [if_neg hk]
    exact hmissing hk k

end CoopTasks.LockFreeList
