import CoopTasks.ListChain

/-!
A search on a list that nobody changes.

When no link is marked or flagged, `search_from` only reads: it goes from node to node up the
keys and stops between the two neighbours that its key falls between.
-/

namespace CoopTasks.LockFreeList

variable {N V R S : Type*} {mem : N → Node N V} {head tail curr next n m : N} {c : List N} {key : ℤ}
  {pc : SearchPc N}

/-- Every node is on the chain, and no link is marked or flagged. -/
structure Clean (mem : N → Node N V) (head tail : N) (c : List N) : Prop
    extends Chained mem c head tail c where
  marked : ∀ n ∈ c, (mem n).succ.marked = false
  flagged : ∀ n ∈ c, (mem n).succ.flagged = false

/-- The answer to an access that only reads the links and keys of nodes. -/
def Cmd.peek (mem : N → Node N V) : Cmd N V R → Option R
  | .load n k => some (k (mem n).succ)
  | .loadKey n k => some (k (mem n).key)
  | _ => none

lemma Cmd.peek_map {f : R → S} {cmd : Cmd N V R} :
    (cmd.map f).peek mem = (cmd.peek mem).map f := by
  cases cmd <;> rfl

/-- Where a search stands on a clean list. -/
def SearchAt (mem : N → Node N V) (c : List N) (key : ℤ) : SearchPc N → Prop
  | .load curr => curr ∈ c ∧ (mem curr).key ≤ key
  | .testKey curr next => curr ∈ c ∧ (mem curr).key ≤ key ∧ (mem curr).succ.node = some next
  | .nextMarked curr next | .advance curr next =>
    curr ∈ c ∧ (mem curr).key ≤ key ∧ (mem curr).succ.node = some next ∧ (mem next).key ≤ key
  | _ => False

/-- How far a search is from its end. -/
def searchRank (mem : N → Node N V) (key : ℤ) : SearchPc N → ℕ
  | .load curr => 4 * (key - (mem curr).key).toNat + 3
  | .testKey curr _ => 4 * (key - (mem curr).key).toNat + 2
  | .nextMarked curr _ => 4 * (key - (mem curr).key).toNat + 1
  | .advance curr _ => 4 * (key - (mem curr).key).toNat
  | _ => 0

/-- The neighbours that a key falls between. -/
structure Between (mem : N → Node N V) (c : List N) (key : ℤ) (curr next : N) : Prop where
  on : curr ∈ c
  succ : (mem curr).succ.node = some next
  le : (mem curr).key ≤ key
  lt : key < (mem next).key

lemma Clean.succ_eq (h : Clean mem head tail c) (hn : n ∈ c) :
    (mem n).succ = getUnmarkedRef (mem n).succ.node := by
  have hm := h.marked n hn
  have hf := h.flagged n hn
  cases hs : (mem n).succ with
  | mk node marked flagged => simp_all [getUnmarkedRef]

lemma Clean.exists_succ (h : Clean mem head tail c) (hn : n ∈ c) (hk : (mem n).key < intptrMax) :
    ∃ m ∈ c, (mem n).succ.node = some m ∧ (mem n).key < (mem m).key := by
  refine h.next n hn ?_
  rintro rfl
  rw [h.tail_key] at hk
  exact lt_irrefl _ hk

/-- **Searching** only reads, comes closer to its end, and ends between two neighbours. -/
theorem searchFrom_clean (same : N → N → Bool) (h : Clean mem head tail c) (hkey : key < intptrMax)
    (hpc : SearchAt mem c key pc) :
    (∃ pc', (searchFrom same key pc : Cmd N V (SearchRes N)).peek mem = some (.more pc') ∧
      SearchAt mem c key pc' ∧ searchRank mem key pc' < searchRank mem key pc) ∨
    ∃ curr next, (searchFrom same key pc : Cmd N V (SearchRes N)).peek mem = some (.ret curr next) ∧
      Between mem c key curr next := by
  cases pc with
  | load curr =>
    obtain ⟨hc, hle⟩ := hpc
    obtain ⟨next, -, hs, -⟩ := h.exists_succ hc (hle.trans_lt hkey)
    refine .inl ⟨.testKey curr next, ?_, ⟨hc, hle, hs⟩, ?_⟩
    · simp [searchFrom, Cmd.peek, SearchRes.follow, hs]
    · simp only [searchRank]
      omega
  | testKey curr next =>
    obtain ⟨hc, hle, hs⟩ := hpc
    by_cases hk : (mem next).key ≤ key
    · refine .inl ⟨.nextMarked curr next, ?_, ⟨hc, hle, hs, hk⟩, ?_⟩
      · simp [searchFrom, Cmd.peek, hk]
      · simp only [searchRank]
        omega
    · refine .inr ⟨curr, next, ?_, ⟨hc, hs, hle, by omega⟩⟩
      simp [searchFrom, Cmd.peek, hk]
  | nextMarked curr next =>
    obtain ⟨hc, hle, hs, hk⟩ := hpc
    have hm := h.marked next (h.succ_mem hc hs)
    refine .inl ⟨.advance curr next, ?_, ⟨hc, hle, hs, hk⟩, ?_⟩
    · simp [searchFrom, Cmd.peek, hm]
    · simp only [searchRank]
      omega
  | advance curr next =>
    obtain ⟨hc, hle, hs, hk⟩ := hpc
    have hlt := (h.succ_key hc hs).2
    refine .inl ⟨.load next, ?_, ⟨h.succ_mem hc hs, hk⟩, ?_⟩
    · simp [searchFrom, Cmd.peek, hk]
    · simp only [searchRank]
      omega
  | _ => exact hpc.elim

lemma Between.key_iff (hb : Between mem c key curr next) (h : Clean mem head tail c) :
    (mem curr).key = key ↔ ∃ n ∈ c, (mem n).key = key := by
  refine ⟨fun hk => ⟨curr, hb.on, hk⟩, ?_⟩
  rintro ⟨n, hn, hk⟩
  have hle := hb.le
  have hlt := hb.lt
  rcases h.gap hb.on hb.succ hn with hgap | hgap <;> omega

/-! ### Writing values -/

/-- Nothing but the values of nodes differs. -/
structure SameLinks (mem mem' : N → Node N V) : Prop where
  succ : ∀ n, (mem' n).succ = (mem n).succ
  backlink : ∀ n, (mem' n).backlink = (mem n).backlink
  key : ∀ n, (mem' n).key = (mem n).key

variable {mem' : N → Node N V}

lemma SameLinks.refl : SameLinks mem mem := ⟨fun _ => rfl, fun _ => rfl, fun _ => rfl⟩

lemma sameLinks_val [DecidableEq N] (v : V) :
    SameLinks mem (Function.update mem n { mem n with val := some v }) := by
  constructor <;> intro m <;> by_cases hm : m = n <;> simp [hm]

lemma Clean.congr (h : Clean mem head tail c) (hs : SameLinks mem mem') :
    Clean mem' head tail c := by
  obtain ⟨hsucc, hback, hkey⟩ := hs
  exact {
    first := h.first
    last := h.last
    path := by simpa only [hsucc] using h.path
    sub := h.sub
    kept := fun _ hn _ => hn
    next := by simpa only [hsucc, hkey] using h.next
    tail_succ := by simpa only [hsucc] using h.tail_succ
    head_key := by simpa only [hkey] using h.head_key
    tail_key := by simpa only [hkey] using h.tail_key
    keys := by simpa only [hkey] using h.keys
    both := by simpa only [hsucc] using h.both
    flagger := by simpa only [hsucc] using h.flagger
    back := by simpa only [Back, hsucc, hback, hkey] using h.back
    inner := by simpa only [hsucc] using h.inner
    marked := by simpa only [hsucc] using h.marked
    flagged := by simpa only [hsucc] using h.flagged }

lemma SearchAt.congr (h : SearchAt mem c key pc) (hs : SameLinks mem mem') :
    SearchAt mem' c key pc := by
  unfold SearchAt at h ⊢
  simpa only [hs.succ, hs.key] using h

end CoopTasks.LockFreeList
