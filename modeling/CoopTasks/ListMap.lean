import CoopTasks.ListRemoval
import CoopTasks.Sizes
import Mathlib

/-!
A list is a bounded finite map.

The keys of the map are those of the nodes between the sentinels, and its values are theirs. Each
call carries the map on as the map's own operation does.
-/

namespace CoopTasks.LockFreeList

open CoopTasks.Machine CoopTasks.SizeT

variable {V : Type*}

/-- What the list is for: a map with room for `cap` keys. -/
abbrev KeyMap (V : Type*) := Finmap fun _ : ℤ => V

/-- The answer of the map to a call, and the map after it. -/
def boundedMap (cap : ℕ) (M : KeyMap V) : Op V → Res V × KeyMap V
  | .insert key val =>
    if key ∈ M then (.fail (some .eexist), M)
    else if M.keys.card = cap then (.fail (some .enomem), M)
    else (.ok none, M.insert key val)
  | .delete key wants =>
    match M.lookup key with
    | none => (.fail (some .enoent), M)
    | some v => (.ok (bif wants then some (some v) else none), M.erase key)
  | .search key wants =>
    match M.lookup key with
    | none => (.fail (some .enoent), M)
    | some v => (.ok (bif wants then some (some v) else none), M)
  | .update key val =>
    if key ∈ M then (.ok none, M.insert key val) else (.fail (some .enoent), M)

/-- The answers to calls made one after the other. -/
def mapRun (cap : ℕ) : KeyMap V → List (Op V) → List (Res V) × KeyMap V
  | M, [] => ([], M)
  | M, op :: ops =>
    ((boundedMap cap M op).1 :: (mapRun cap (boundedMap cap M op).2 ops).1,
      (mapRun cap (boundedMap cap M op).2 ops).2)

variable {m m' : Mem V} {M M' : KeyMap V} {head tail n x cap : ℕ} {c c' free free' : List ℕ}
  {key : ℤ} {val : V}

/-- The list at rest holds a map. -/
structure Holds (cap : ℕ) (m : Mem V) (head tail : ℕ) (c free : List ℕ) (M : KeyMap V) : Prop
    extends Rests m head tail c free where
  lookup : ∀ k v, M.lookup k = some v ↔
    ∃ n ∈ c, Inner head tail n ∧ (m.node n).key = k ∧ (m.node n).val = some v
  full : ∀ n ∈ c, Inner head tail n → (m.node n).val.isSome = true
  room : c.length + free.length = cap + 3
  capacity : m.pool.capacity = cap + 2

lemma Holds.mem_iff (h : Holds cap m head tail c free M) :
    key ∈ M ↔ ∃ n ∈ c, Inner head tail n ∧ (m.node n).key = key := by
  rw [Finmap.mem_iff]
  constructor
  · rintro ⟨v, hv⟩
    obtain ⟨n, hn, hi, hk, -⟩ := (h.lookup key v).mp hv
    exact ⟨n, hn, hi, hk⟩
  · rintro ⟨n, hn, hi, hk⟩
    obtain ⟨v, hv⟩ := Option.isSome_iff_exists.mp (h.full n hn hi)
    exact ⟨v, (h.lookup key v).mpr ⟨n, hn, hi, hk, hv⟩⟩

lemma Holds.mem_of_key (h : Holds cap m head tail c free M) (hn : n ∈ c)
    (hk : (m.node n).key = key) (hlow : intptrMin < key) (hhigh : key < intptrMax) :
    ∃ v, (m.node n).val = some v ∧ M.lookup key = some v := by
  have hi := h.clean.inner_of_key hk hlow hhigh
  obtain ⟨v, hv⟩ := Option.isSome_iff_exists.mp (h.full n hn hi)
  exact ⟨v, hv, (h.lookup key v).mpr ⟨n, hn, hi, hk, hv⟩⟩

lemma Holds.not_mem (h : Holds cap m head tail c free M) (hk : ¬ ∃ n ∈ c, (m.node n).key = key) :
    M.lookup key = none := by
  rw [Finmap.lookup_eq_none, h.mem_iff]
  rintro ⟨n, hn, -, hkey⟩
  exact hk ⟨n, hn, hkey⟩

lemma Clean.ends (h : Clean m.node head tail c) :
    ∃ l, c = head :: (l ++ [tail]) ∧ ∀ n, n ∈ l ↔ n ∈ c ∧ Inner head tail n := by
  have hne : head ≠ tail := fun heq => by
    have hh := h.head_key
    rw [heq, h.tail_key] at hh
    exact absurd hh (by decide)
  have hfirst := h.first
  have hlast := h.last
  cases c with
  | nil => simp at hfirst
  | cons a r =>
    obtain rfl : a = head := by simpa using hfirst
    rcases List.eq_nil_or_concat r with rfl | ⟨l, b, rfl⟩
    · exact absurd (by simpa using hlast) hne
    · obtain rfl : b = tail := by
        rw [List.concat_eq_append, ← List.cons_append, List.getLast?_concat] at hlast
        exact Option.some.inj hlast
      refine ⟨l, by simp, fun n => ?_⟩
      have hnd := h.nodup
      simp only [List.concat_eq_append, List.nodup_cons, List.mem_append, List.mem_singleton,
        not_or, List.nodup_append, List.nodup_nil, ne_eq] at hnd
      simp only [List.concat_eq_append, List.mem_cons, List.mem_append, List.not_mem_nil, or_false,
        Inner]
      constructor
      · intro hn
        refine ⟨.inr (.inl hn), ?_, ?_⟩
        · rintro rfl
          exact hnd.1.1 hn
        · rintro rfl
          exact hnd.2.2.2 n hn n rfl rfl
      · rintro ⟨rfl | hn | rfl, hh, ht⟩
        · exact absurd rfl hh
        · exact hn
        · exact absurd rfl ht

lemma Holds.keys (h : Holds cap m head tail c free M) :
    c.map (fun n => (m.node n).key) = intptrMin :: (M.keys.sort (· ≤ ·) ++ [intptrMax]) := by
  obtain ⟨l, rfl, hl⟩ := h.clean.ends
  have hsort := h.clean.sorted
  rw [List.pairwise_cons, List.pairwise_append] at hsort
  have hlt : (l.map fun n => (m.node n).key).Pairwise (· < ·) := by
    rw [List.pairwise_map]
    exact hsort.2.1
  have hset : M.keys = (l.map fun n => (m.node n).key).toFinset := by
    ext k
    rw [Finmap.mem_keys, h.mem_iff, List.mem_toFinset, List.mem_map]
    constructor
    · rintro ⟨n, hn, hi, hk⟩
      exact ⟨n, (hl n).mpr ⟨hn, hi⟩, hk⟩
    · rintro ⟨n, hn, hk⟩
      exact ⟨n, ((hl n).mp hn).1, ((hl n).mp hn).2, hk⟩
  have hmap : M.keys.sort (· ≤ ·) = l.map fun n => (m.node n).key := by
    rw [hset, List.toFinset_sort _ (hlt.imp fun hab => hab.ne)]
    exact hlt.imp fun hab => hab.le
  rw [hmap]
  simp [h.clean.head_key, h.clean.tail_key]

lemma Holds.card (h : Holds cap m head tail c free M) : M.keys.card + 2 = c.length := by
  have := congrArg List.length h.keys
  simp only [List.length_map, List.length_cons, List.length_append, Finset.length_sort,
    List.length_nil] at this
  omega

/-! ### What the calls do to the map -/

lemma inserted_data_self {P : Pool.MemoryPool} {prev next : ℕ} (hx : prev ≠ x) :
    ((inserted m P prev next x key val).node x).key = key ∧
      ((inserted m P prev next x key val).node x).val = some val := by
  rw [inserted_node, setSucc_ne hx.symm, Function.update_self]
  exact ⟨rfl, rfl⟩

lemma inserted_data_ne {P : Pool.MemoryPool} {prev next : ℕ} (hn : n ≠ x) :
    ((inserted m P prev next x key val).node n).key = (m.node n).key ∧
      ((inserted m P prev next x key val).node n).val = (m.node n).val := by
  rw [inserted_node, setSucc_key, Function.update_of_ne hn]
  refine ⟨rfl, ?_⟩
  by_cases hp : n = prev
  · subst hp
    simp [setSucc, Function.update_of_ne hn]
  · rw [setSucc_ne hp, Function.update_of_ne hn]

lemma Holds.inserted {P : Pool.MemoryPool} {prev next : ℕ} {q : List ℕ}
    (h : Holds cap m head tail c (x :: q) M)
    (hrests : Rests (inserted m P prev next x key val) head tail c' q)
    (hmem : ∀ n, n ∈ c' ↔ n = x ∨ n ∈ c) (hprev : prev ∈ c)
    (hnew : ¬ ∃ n ∈ c, (m.node n).key = key) (hcap : P.capacity = m.pool.capacity) :
    Holds cap (inserted m P prev next x key val) head tail c' q (M.insert key val) := by
  have hxc : x ∉ c := fun hx => h.apart hx (by simp)
  have hne : ∀ n ∈ c, n ≠ x := fun n hn heq => hxc (heq ▸ hn)
  set m' := LockFreeList.inserted m P prev next x key val
  have hself : (m'.node x).key = key ∧ (m'.node x).val = some val :=
    inserted_data_self (hne prev hprev)
  have hother : ∀ n ∈ c, (m'.node n).key = (m.node n).key ∧ (m'.node n).val = (m.node n).val :=
    fun n hn => inserted_data_ne (hne n hn)
  refine ⟨hrests, fun k v => ?_, fun n hn hi => ?_, ?_, hcap.trans h.capacity⟩
  · by_cases hk : k = key
    · subst hk
      rw [Finmap.lookup_insert, Option.some.injEq]
      constructor
      · rintro rfl
        exact ⟨x, (hmem x).mpr (.inl rfl), h.clean.inner_of_not_mem hxc, hself⟩
      · rintro ⟨n, hn, -, hkey, hval⟩
        rcases (hmem n).mp hn with rfl | hn
        · rw [hself.2] at hval
          exact Option.some.inj hval
        · rw [(hother n hn).1] at hkey
          exact absurd ⟨n, hn, hkey⟩ hnew
    · rw [Finmap.lookup_insert_of_ne _ hk, h.lookup]
      constructor
      · rintro ⟨n, hn, hi, hkey, hval⟩
        exact ⟨n, (hmem n).mpr (.inr hn), hi, by rw [(hother n hn).1, hkey],
          by rw [(hother n hn).2, hval]⟩
      · rintro ⟨n, hn, hi, hkey, hval⟩
        rcases (hmem n).mp hn with rfl | hn
        · rw [hself.1] at hkey
          exact absurd hkey.symm hk
        · rw [(hother n hn).1] at hkey
          rw [(hother n hn).2] at hval
          exact ⟨n, hn, hi, hkey, hval⟩
  · rcases (hmem n).mp hn with rfl | hn
    · rw [hself.2]
      rfl
    · rw [(hother n hn).2]
      exact h.full n hn hi
  · have hperm : c'.Perm (x :: c) := by
      refine (List.perm_ext_iff_of_nodup hrests.clean.nodup ?_).mpr fun n => ?_
      · exact List.nodup_cons.mpr ⟨hxc, h.clean.nodup⟩
      · rw [hmem, List.mem_cons]
    have hroom := h.room
    rw [hperm.length_eq]
    simp only [List.length_cons] at hroom ⊢
    omega

lemma Holds.removed {d : ℕ} (h : Holds cap m head tail c free M)
    (hrests : Rests m' head tail c' (free ++ [d])) (hmem : ∀ n, n ∈ c' ↔ n ∈ c ∧ n ≠ d)
    (hd : d ∈ c) (hdata : ∀ n, (m'.node n).key = (m.node n).key ∧ (m'.node n).val = (m.node n).val)
    (hcap : m'.pool.capacity = m.pool.capacity) :
    Holds cap m' head tail c' (free ++ [d]) (M.erase (m.node d).key) := by
  refine ⟨hrests, fun k v => ?_, fun n hn hi => ?_, ?_, hcap.trans h.capacity⟩
  · simp only [hdata]
    by_cases hk : k = (m.node d).key
    · subst hk
      simp only [Finmap.lookup_erase, reduceCtorEq, false_iff]
      rintro ⟨n, hn, -, hkey, -⟩
      have hn := (hmem n).mp hn
      exact hn.2 (h.clean.key_inj hn.1 hd hkey)
    · rw [Finmap.lookup_erase_ne hk, h.lookup]
      constructor
      · rintro ⟨n, hn, hi, hkey, hval⟩
        refine ⟨n, (hmem n).mpr ⟨hn, ?_⟩, hi, hkey, hval⟩
        rintro rfl
        exact hk hkey.symm
      · rintro ⟨n, hn, hrest⟩
        exact ⟨n, ((hmem n).mp hn).1, hrest⟩
  · rw [(hdata n).2]
    exact h.full n ((hmem n).mp hn).1 hi
  · have hperm : (d :: c').Perm c := by
      refine (List.perm_ext_iff_of_nodup ?_ h.clean.nodup).mpr fun n => ?_
      · exact List.nodup_cons.mpr ⟨fun hdc => ((hmem d).mp hdc).2 rfl, hrests.clean.nodup⟩
      · rw [List.mem_cons, hmem]
        constructor
        · rintro (rfl | hn)
          · exact hd
          · exact hn.1
        · intro hn
          by_cases hnd : n = d
          · exact .inl hnd
          · exact .inr ⟨hn, hnd⟩
    have hroom := h.room
    rw [← hperm.length_eq] at hroom
    simp only [List.length_cons, List.length_append, List.length_nil] at hroom ⊢
    omega

lemma Holds.written (val : V) (h : Holds cap m head tail c free M) (hn : n ∈ c)
    (hi : Inner head tail n) :
    Holds cap (written m n val) head tail c free (M.insert (m.node n).key val) := by
  have hkey : ∀ j, ((LockFreeList.written m n val).node j).key = (m.node j).key := fun j => by
    rw [written_node, (sameLinks_val val).key]
  have hself : ((LockFreeList.written m n val).node n).val = some val := by
    rw [written_node, Function.update_self]
  have hother : ∀ j, j ≠ n → ((LockFreeList.written m n val).node j).val = (m.node j).val :=
    fun j hj => by rw [written_node, Function.update_of_ne hj]
  refine ⟨h.toRests.written, fun k v => ?_, fun j hj hij => ?_, h.room, h.capacity⟩
  · simp only [hkey]
    by_cases hk : k = (m.node n).key
    · subst hk
      rw [Finmap.lookup_insert, Option.some.injEq]
      constructor
      · rintro rfl
        exact ⟨n, hn, hi, rfl, hself⟩
      · rintro ⟨j, hj, -, hjk, hval⟩
        obtain rfl := h.clean.key_inj hj hn hjk
        rw [hself] at hval
        exact Option.some.inj hval
    · rw [Finmap.lookup_insert_of_ne _ hk, h.lookup]
      have hne : ∀ j, (m.node j).key = k → j ≠ n := by
        rintro j hj rfl
        exact hk hj.symm
      constructor
      · rintro ⟨j, hj, hij, hjk, hval⟩
        exact ⟨j, hj, hij, hjk, by rw [hother j (hne j hjk), hval]⟩
      · rintro ⟨j, hj, hij, hjk, hval⟩
        exact ⟨j, hj, hij, hjk, by rw [← hother j (hne j hjk), hval]⟩
  · by_cases hjn : j = n
    · subst hjn
      rw [hself]
      rfl
    · rw [hother j hjn]
      exact h.full j hj hij

/-! ### One call -/

/-- The call has returned what the map answers, and the list holds the map as it then is. -/
def Answered (cap head tail : ℕ) (M : KeyMap V) (op : Op V) (x : Mem V × Thread ℕ V) : Prop :=
  x.2 = ⟨[], .returned (boundedMap cap M op).1⟩ ∧
    ∃ c free, Holds cap x.1 head tail c free (boundedMap cap M op).2

variable {k : ℕ} {op : Op V}

lemma Holds.answered {r : Res V} (h : Holds cap m head tail c free M')
    (hop : boundedMap cap M op = (r, M')) :
    Serves head tail (Answered cap head tail M op) k (m, ⟨[], .returned r⟩) :=
  .done ⟨by rw [hop], c, free, by rw [hop]; exact h⟩

lemma Holds.search {ctx : Ctx ℕ V} {Q : Mem V × Thread ℕ V → Prop}
    (h : Holds cap m head tail c free M) (hlow : intptrMin ≤ key) (hhigh : key < intptrMax)
    (hfound : ∀ curr next, Between m.node c key curr next →
      Serves head tail Q k (m, ⟨[], found (· == ·) key curr next ctx⟩)) :
    Serves head tail Q k (m, ⟨[], .searchFrom ctx key (.load head)⟩) :=
  .search h.clean hlow hhigh ⟨h.clean.head_mem, by rw [h.clean.head_key]; exact hlow⟩ hfound

lemma Holds.serves_insert (h : Holds cap m head tail c free M) (hlow : intptrMin < key)
    (hhigh : key < intptrMax) : Serves head tail (Answered cap head tail M (.insert key val)) k
      (m, ⟨[], (Op.insert key val).pc head⟩) := by
  refine h.search hlow.le hhigh fun prev next hb => ?_
  by_cases hk : (m.node prev).key = key
  · have hin : key ∈ M := by
      obtain ⟨v, -, hv⟩ := h.mem_of_key hb.on hk hlow hhigh
      exact Finmap.mem_of_lookup_eq_some hv
    exact .exists hk (h.answered (by simp only [boundedMap, if_pos hin]))
  · have hnew : ¬ ∃ n ∈ c, (m.node n).key = key := fun hex =>
      hk ((hb.key_iff h.clean).mpr hex)
    have hout : key ∉ M := Finmap.lookup_eq_none.mp (h.not_mem hnew)
    have hcard := h.card
    have hroom := h.room
    refine .insert h.toRests hlow.le hhigh hb hk (fun P hlen hrests hcap => ?_)
      fun P x q prev next c' hfree hq hb hrests hmem hcap k => ?_
    · have hfull : M.keys.card = cap := by omega
      exact Holds.answered ⟨hrests, h.lookup, h.full, h.room, hcap.trans h.capacity⟩
        (by simp only [boundedMap, if_neg hout, if_pos hfull])
    · subst hfree
      have hspace : M.keys.card ≠ cap := by
        have := List.length_pos_of_ne_nil hq
        simp only [List.length_cons] at hroom
        omega
      exact (h.inserted hrests hmem hb.on hnew hcap).answered
        (by simp only [boundedMap, if_neg hout, if_neg hspace])

lemma Holds.serves_delete {wants : Bool} (h : Holds cap m head tail c free M)
    (hcap : cap + 3 ≤ sizeMax) (hlow : intptrMin < key) (hhigh : key < intptrMax) :
    Serves head tail (Answered cap head tail M (.delete key wants)) k
      (m, ⟨[], (Op.delete key wants).pc head⟩) := by
  refine h.search (by omega) (by omega) fun prev d hb => ?_
  have hd := h.clean.succ_mem hb.on hb.succ
  have hroom := h.room
  rw [show found (V := V) (· == ·) (key - 1) prev d (.delete wants) =
    .delete key wants d (.check prev) by simp [found]]
  refine .deleteCheck h.toRests hlow hhigh (by omega) hb (fun hk _ => ?_)
    fun m' c' hk hrests hmem hcap' hdata _ => ?_
  · have hnew : ¬ ∃ n ∈ c, (m.node n).key = key := by
      rintro ⟨n, hn, hkey⟩
      have hle := hb.le
      have hlt := hb.lt
      rcases h.clean.gap hb.on hb.succ hn with hgap | hgap <;> omega
    exact h.answered (by simp only [boundedMap, h.not_mem hnew])
  · obtain ⟨v, hval, hv⟩ := h.mem_of_key hd hk hlow hhigh
    have hremoved := h.removed hrests hmem hd hdata hcap'
    rw [hk] at hremoved
    exact hremoved.answered (by simp only [boundedMap, hv, hval])

lemma Holds.serves_search {wants : Bool} (h : Holds cap m head tail c free M)
    (hlow : intptrMin < key) (hhigh : key < intptrMax) :
    Serves head tail (Answered cap head tail M (.search key wants)) k
      (m, ⟨[], (Op.search key wants).pc head⟩) := by
  refine h.search hlow.le hhigh fun curr next hb => ?_
  refine .searchCheck h.toRests hlow hhigh (fun hk _ => ?_) fun hk _ => ?_
  · have hnew := fun hex => hk ((hb.key_iff h.clean).mpr hex)
    exact h.answered (by simp only [boundedMap, h.not_mem hnew])
  · obtain ⟨v, hval, hv⟩ := h.mem_of_key hb.on hk hlow hhigh
    exact h.answered (by simp only [boundedMap, hv, hval])

lemma Holds.serves_update (h : Holds cap m head tail c free M) (hlow : intptrMin < key)
    (hhigh : key < intptrMax) : Serves head tail (Answered cap head tail M (.update key val)) k
      (m, ⟨[], (Op.update key val).pc head⟩) := by
  refine h.search hlow.le hhigh fun curr next hb => ?_
  refine .updateCheck h.toRests hlow hhigh (fun hk _ => ?_) fun hk _ => ?_
  · have hnew := fun hex => hk ((hb.key_iff h.clean).mpr hex)
    have hout : key ∉ M := Finmap.lookup_eq_none.mp (h.not_mem hnew)
    exact h.answered (by simp only [boundedMap, if_neg hout])
  · obtain ⟨v, hval, hv⟩ := h.mem_of_key hb.on hk hlow hhigh
    have hin := Finmap.mem_of_lookup_eq_some hv
    have hwritten := h.written val hb.on (h.clean.inner_of_key hk hlow hhigh)
    rw [hk] at hwritten
    exact hwritten.answered (by simp only [boundedMap, if_pos hin])

/-- **One call** on a list that holds a map is answered as the map answers, whatever fails
spuriously outside `help_marked`. -/
theorem Holds.serves (h : Holds cap m head tail c free M) (hcap : cap + 3 ≤ sizeMax)
    (hlow : intptrMin < op.key) (hhigh : op.key < intptrMax) :
    Serves head tail (Answered cap head tail M op) k (m, ⟨[], op.pc head⟩) := by
  cases op with
  | insert key val => exact h.serves_insert hlow hhigh
  | delete key wants => exact h.serves_delete hcap hlow hhigh
  | search key wants => exact h.serves_search hlow hhigh
  | update key val => exact h.serves_update hlow hhigh

end CoopTasks.LockFreeList
