import CoopTasks.ListSequential

/-!
`list_insert`, `list_search` and `list_update` on a list at rest, each from the end of its search
to its return.
-/

namespace CoopTasks.LockFreeList

open CoopTasks.Chain (Tagged Cells Linked)
open CoopTasks.Advance CoopTasks.Alone CoopTasks.Machine CoopTasks.SizeT

variable {V D : Type*} {m : Mem V} {mem mem' : ℕ → Node ℕ V} {head tail prev next n x k : ℕ}
  {c linked free q : List ℕ} {key : ℤ} {val : V} {Q : Mem V × Thread ℕ V → Prop}
  {P : Pool.MemoryPool} {r : Ref ℕ}

lemma Ready.congr {C C' : Cells ℕ D} (h : Ready P C c) (hlink : ∀ n ∈ c, C'.link n = C.link n) :
    Ready P C' c :=
  ⟨h.linked.congr fun n hn => by rw [hlink n hn], h.near.congr h.linked hlink, h.freeable⟩

/-! ### Facts about the neighbours -/

lemma Between.word (hb : Between m.node c key prev next) (h : Clean m.node head tail c) :
    (m.node prev).succ = getUnmarkedRef (some next) := by
  rw [h.succ_eq hb.on, hb.succ]

lemma Between.congr (hb : Between mem c key prev next) (hprev : mem' prev = mem prev)
    (hnext : mem' next = mem next) : Between mem' c key prev next :=
  ⟨hb.on, by rw [hprev]; exact hb.succ, by rw [hprev]; exact hb.le, by rw [hnext]; exact hb.lt⟩

lemma Rests.link_eq (h : Rests m head tail c free) (hb : Between m.node c key prev next) :
    m.cells.link prev = tagOf (getUnmarkedRef (some next)) := by
  have := h.own prev hb.on
  unfold Mem.Own at this
  rw [this, hb.word h.clean]

lemma Clean.agree (h : Clean mem head tail c) (hs : ∀ n ∈ c, mem' n = mem n) :
    Clean mem' head tail c where
  toChained := h.toChained.outside fun n hn => by
    rw [hs n hn]
    exact ⟨rfl, rfl, fun hback => hback.grow hn (fun k hk => ⟨hk, by rw [hs k hk]⟩)
      (by rw [hs n hn])⟩
  marked n hn := by
    rw [hs n hn]
    exact h.marked n hn
  flagged n hn := by
    rw [hs n hn]
    exact h.flagged n hn

/-- When the chain has neither marks nor flags, the other linked nodes may be forgotten. -/
lemma Chained.clean (h : Chained mem linked head tail c)
    (hm : ∀ n ∈ c, (mem n).succ.marked = false) (hf : ∀ n ∈ c, (mem n).succ.flagged = false) :
    Clean mem head tail c where
  first := h.first
  last := h.last
  path := h.path
  sub _ hn := hn
  kept _ hn _ := hn
  next n hn ht := by
    obtain ⟨k, -, hs, hk⟩ := h.next n (h.sub n hn) ht
    exact ⟨k, h.succ_mem hn hs, hs, hk⟩
  tail_succ := h.tail_succ
  head_key := h.head_key
  tail_key := h.tail_key
  keys n hn := h.keys n (h.sub n hn)
  both n hn := h.both n (h.sub n hn)
  flagger n hn hmn := by simp [hm n hn] at hmn
  back n hn hmn := by simp [hm n hn] at hmn
  inner n hn hfn := by simp [hf n hn] at hfn
  marked := hm
  flagged := hf

lemma won_nil : Won mem linked [] := ⟨List.nodup_nil, fun _ h => (List.not_mem_nil h).elim⟩

/-- A node of the list other than the sentinels. -/
def Inner (head tail n : ℕ) : Prop := n ≠ head ∧ n ≠ tail

lemma Clean.inner_of_key (h : Clean mem head tail c) (hn : (mem n).key = key)
    (hlow : intptrMin < key) (hhigh : key < intptrMax) : Inner head tail n := by
  constructor
  · rintro rfl
    rw [h.head_key] at hn
    omega
  · rintro rfl
    rw [h.tail_key] at hn
    omega

lemma Clean.inner_of_not_mem (h : Clean mem head tail c) (hn : n ∉ c) : Inner head tail n := by
  constructor
  · rintro rfl
    exact hn h.head_mem
  · rintro rfl
    exact hn h.tail_mem

/-! ### `list_insert` -/

/-- The memory after `list_alloc_node` has written to its node, with the word that the node has
then or later. -/
def prepared (m : Mem V) (P : Pool.MemoryPool) (x : ℕ) (key : ℤ) (val : V) (r : Ref ℕ) : Mem V :=
  ({ m with pool := P }.setFields x ⟨none, key, some val⟩).setSucc x r

/-- The memory after `list_insert` has linked its node. -/
def inserted (m : Mem V) (P : Pool.MemoryPool) (prev next x : ℕ) (key : ℤ) (val : V) : Mem V :=
  (prepared m P x key val (getUnmarkedRef (some next))).setSucc prev (getUnmarkedRef (some x))

lemma prepared_node : (prepared m P x key val r).node =
    Function.update m.node x ⟨r, none, key, some val⟩ := by
  funext k
  by_cases hk : k = x
  · subst hk
    simp [prepared, Mem.node, Mem.setSucc, Mem.setFields, Chain.Cells.setLink, Chain.Cells.setData]
  · simp [prepared, Mem.node, Mem.setSucc, Mem.setFields, Chain.Cells.setLink, Chain.Cells.setData,
      hk]

lemma prepared_link (hn : n ≠ x) : (prepared m P x key val r).cells.link n = m.cells.link n := by
  simp [prepared, Mem.setFields, link_setSucc_ne hn]

lemma prepared_eq : prepared m P x key val ⟨none, false, false⟩ =
    let m₁ := { m with pool := P }.setSucc x ⟨none, false, false⟩
    let m₂ := m₁.setFields x { m₁.cells.data x with backlink := none }
    let m₃ := m₂.setFields x { m₂.cells.data x with key := key }
    m₃.setFields x { m₃.cells.data x with val := some val } := by
  simp [prepared, Mem.setFields, Mem.setSucc, Chain.Cells.setLink, Chain.Cells.setData]

lemma prepared_setSucc {r' : Ref ℕ} :
    (prepared m P x key val r).setSucc x r' = prepared m P x key val r' := by
  simp [prepared, Mem.setFields, Mem.setSucc, Chain.Cells.setLink, Chain.Cells.setData]

lemma inserted_node : (inserted m P prev next x key val).node =
    setSucc (Function.update m.node x ⟨getUnmarkedRef (some next), none, key, some val⟩) prev
      (getUnmarkedRef (some x)) := by
  rw [inserted, node_setSucc, prepared_node]

lemma inserted_link (hp : n ≠ prev) (hx : n ≠ x) :
    (inserted m P prev next x key val).cells.link n = m.cells.link n := by
  rw [inserted, link_setSucc_ne hp, prepared_link hx]

lemma inserted_own (hx : prev ≠ x) (h : n ≠ prev → n ≠ x → m.Own n) :
    (inserted m P prev next x key val).Own n := by
  unfold Mem.Own at *
  rw [inserted_node]
  by_cases hnp : n = prev
  · subst hnp
    simp only [inserted, link_setSucc_self, setSucc_self]
  · rw [setSucc_ne hnp]
    by_cases hnx : n = x
    · subst hnx
      simp only [inserted, prepared, link_setSucc_ne hnp, link_setSucc_self, Function.update_self]
    · rw [inserted_link hnp hnx, Function.update_of_ne hnx]
      exact h hnp hnx

lemma Rests.inserted (val : V) (h : Rests m head tail c (x :: q)) (hready : Ready P m.cells q)
    (hb : Between m.node c key prev next) (hk : (m.node prev).key ≠ key) :
    ∃ c', Rests (inserted m P prev next x key val) head tail c' q ∧
      ∀ n, n ∈ c' ↔ n = x ∨ n ∈ c := by
  have hxc : x ∉ c := fun hx => h.apart hx (by simp)
  have hpx : prev ≠ x := by
    rintro rfl
    exact hxc hb.on
  have hxq : x ∉ q := (List.nodup_cons.mp h.ready.linked.nodup).1
  have hle := hb.le
  set mem₁ := Function.update m.node x ⟨getUnmarkedRef (some next), none, key, some val⟩
  have hsame : ∀ n ∈ c, mem₁ n = m.node n := fun n hn =>
    Function.update_of_ne (by rintro rfl; exact hxc hn) ..
  have hc₁ := h.clean.agree hsame
  have hnext := h.clean.succ_mem hb.on hb.succ
  have hmv : Move mem₁ c (.linked x) (setSucc mem₁ prev (getUnmarkedRef (some x))) := by
    refine .link hb.on hxc (m := next) ?_ ?_ ?_ ?_
    · rw [hsame prev hb.on]
      exact hb.word h.clean
    · simp [mem₁]
    · rw [hsame prev hb.on]
      simp only [mem₁, Function.update_self]
      omega
    · rw [hsame next hnext]
      simpa [mem₁] using hb.lt
  obtain ⟨c', hc', -, -⟩ := hc₁.move won_nil hmv
  have hword : ∀ n ∈ x :: c,
      (setSucc mem₁ prev (getUnmarkedRef (some x)) n).succ.marked = false ∧
      (setSucc mem₁ prev (getUnmarkedRef (some x)) n).succ.flagged = false := fun n hn => by
    by_cases hnp : n = prev
    · subst hnp
      simp
    · rw [setSucc_ne hnp]
      rcases List.mem_cons.mp hn with rfl | hn
      · simp [mem₁]
      · exact ⟨hc₁.marked n hn, hc₁.flagged n hn⟩
  have hmem : ∀ n, n ∈ c' ↔ n = x ∨ n ∈ c := fun n => by
    rw [← List.mem_cons]
    exact ⟨hc'.sub n, fun hn => hc'.kept n hn (hword n hn).1⟩
  refine ⟨c', ⟨?_, fun n hn => ?_, ?_, ?_, h.readers⟩, hmem⟩
  · rw [inserted_node]
    exact hc'.clean (fun n hn => (hword n (hc'.sub n hn)).1) fun n hn => (hword n (hc'.sub n hn)).2
  · exact inserted_own hpx fun hnp hnx => h.own n (((hmem n).mp hn).resolve_left hnx)
  · refine hready.congr fun n hn => inserted_link ?_ ?_
    · rintro rfl
      exact h.apart hb.on (List.mem_cons_of_mem _ hn)
    · rintro rfl
      exact hxq hn
  · intro n hn hq
    rcases (hmem n).mp hn with rfl | hn
    · exact hxq hq
    · exact h.apart hn (List.mem_cons_of_mem _ hq)

lemma Serves.link (h : Rests m head tail c (x :: q)) (hlow : intptrMin ≤ key)
    (hhigh : key < intptrMax) (hb : Between m.node c key prev next) (hk : (m.node prev).key ≠ key)
    (hdone : ∀ prev next, Between m.node c key prev next → ∀ k,
      Serves head tail Q k (inserted m P prev next x key val, ⟨[], .returned (.ok none)⟩)) :
    Serves head tail Q k
      (prepared m P x key val r, ⟨[], .insert key val (.load prev next x)⟩) := by
  induction k using Nat.strong_induction_on generalizing prev next r with
  | _ k ih =>
    have hxc : x ∉ c := fun hx => h.apart hx (by simp)
    have hne : ∀ n ∈ c, n ≠ x := fun n hn heq => hxc (heq ▸ hn)
    have hpx := hne prev hb.on
    have hsame : ∀ {r}, ∀ n ∈ c, (prepared m P x key val r).node n = m.node n := fun n hn => by
      rw [prepared_node, Function.update_of_ne (hne n hn)]
    have hword : ∀ {r}, ((prepared m P x key val r).node prev).succ =
        getUnmarkedRef (some next) := by
      intro r
      rw [hsame prev hb.on]
      exact hb.word h.clean
    have hx := h.clean.inner_of_not_mem hxc
    refine .access trivial rfl trivial (fun _ => exec_load hword) ?_
    refine .access trivial rfl hx (fun _ => rfl) ?_
    rw [prepared_setSucc]
    refine .cas trivial rfl ⟨by simp, by simp, by simp⟩ ?_ (hdone prev next hb k) fun _ j hj => ?_
    · rw [prepared_link hpx]
      exact h.link_eq hb
    -- the compare-exchange failed spuriously: search again from the predecessor
    refine .access trivial rfl trivial (fun _ => exec_load hword) ?_
    refine .access trivial rfl trivial (fun _ => exec_load hword) ?_
    refine .search (h.clean.agree hsame) hlow hhigh ⟨hb.on, by rw [hsame prev hb.on]; exact hb.le⟩
      fun prev' next' hb' => ?_
    have hnext := h.clean.succ_mem hb'.on (by rw [← hsame prev' hb'.on]; exact hb'.succ)
    have hb₁ : Between m.node c key prev' next' :=
      hb'.congr (hsame prev' hb'.on).symm (hsame next' hnext).symm
    have hk' : (m.node prev').key ≠ key := fun hk' =>
      hk ((hb.key_iff h.clean).mpr ((hb₁.key_iff h.clean).mp hk'))
    refine .access trivial rfl trivial (fun _ => exec_loadKey (by rw [hsame prev' hb'.on])) ?_
    rw [if_neg hk']
    exact ih j hj hb₁ hk'

lemma Serves.exists (hk : (m.node prev).key = key)
    (hdone : Serves head tail Q k (m, ⟨[], .returned (.fail (some .eexist))⟩)) :
    Serves head tail Q k (m, ⟨[], .insert key val (.checkFirst prev next)⟩) := by
  refine .access trivial rfl trivial (fun _ => exec_loadKey hk) ?_
  rw [if_pos rfl]
  exact hdone

/-- **Insertion** of a key that is not there: when only one fragment is free it fails, and else
the first free fragment becomes the node of the key. -/
theorem Serves.insert (h : Rests m head tail c free) (hlow : intptrMin ≤ key)
    (hhigh : key < intptrMax) (hb : Between m.node c key prev next) (hk : (m.node prev).key ≠ key)
    (hfull : ∀ P, free.length = 1 → Rests { m with pool := P } head tail c free →
      P.capacity = m.pool.capacity →
      Serves head tail Q k ({ m with pool := P }, ⟨[], .returned (.fail (some .enomem))⟩))
    (hdone : ∀ P x q prev next c', free = x :: q → q ≠ [] → Between m.node c key prev next →
      Rests (inserted m P prev next x key val) head tail c' q → (∀ n, n ∈ c' ↔ n = x ∨ n ∈ c) →
      P.capacity = m.pool.capacity → ∀ k,
      Serves head tail Q k (inserted m P prev next x key val, ⟨[], .returned (.ok none)⟩)) :
    Serves head tail Q k (m, ⟨[], .insert key val (.checkFirst prev next)⟩) := by
  refine .access trivial rfl trivial (fun _ => exec_loadKey rfl) ?_
  rw [if_neg hk]
  obtain ⟨P, hcap, ⟨hlen, hrun, hready⟩ | ⟨x, q, rfl, hq, hrun, hready⟩⟩ := runPick_ready h.ready
  · refine .access trivial rfl trivial (fun _ => exec_alloc hrun) ?_
    exact hfull P hlen ⟨h.clean, h.own, hready, h.apart, h.readers⟩ hcap
  · have hx := h.clean.inner_of_not_mem fun hx => h.apart hx (List.mem_cons_self (l := q))
    refine .access trivial rfl trivial (fun _ => exec_alloc hrun) ?_
    refine .access trivial rfl hx (fun _ => rfl) ?_
    refine .access trivial rfl hx (fun _ => rfl) ?_
    refine .access trivial rfl hx (fun _ => rfl) ?_
    refine .access trivial rfl hx (fun _ => rfl) ?_
    rw [← prepared_eq]
    refine .link h hlow hhigh hb hk fun prev' next' hb' k' => ?_
    have hk' : (m.node prev').key ≠ key := fun hk' =>
      hk ((hb.key_iff h.clean).mpr ((hb'.key_iff h.clean).mp hk'))
    obtain ⟨c', hrests, hmem⟩ := h.inserted val hready hb' hk'
    exact hdone P x q prev' next' c' rfl hq hb' hrests hmem hcap k'

/-! ### `list_search` and `list_update` -/

lemma Serves.read (pcOf : ReadPc V → Pc ℕ V) (next : Option V → Thread ℕ V)
    (harg : ∀ pc, (pcOf pc).ArgOk)
    (hcmd : ∀ pc, (⟨[], pcOf pc⟩ : Thread ℕ V).cmd (· == ·) = some ((readVal n pc).map fun
      | .more pc' => ⟨[], pcOf pc'⟩
      | .ret v => next v))
    (hn : Inner head tail n) (hreaders : m.readers = 0)
    (hdone : ∀ k, Serves head tail Q k (m, next (m.node n).val)) :
    Serves head tail Q k (m, ⟨[], pcOf .load⟩) := by
  induction k using Nat.strong_induction_on with
  | _ k ih =>
    refine .access (harg _) (hcmd .load) trivial (fun _ => exec_loadReaders hreaders) ?_
    refine .casReaders (harg _) (hcmd (.cas 0)) hreaders ?_ fun j hj => ih j hj
    refine .access (harg _) (hcmd .copy) hn (fun _ => rfl) ?_
    refine .access (harg _) (hcmd (.sub _)) trivial (fun _ => rfl) ?_
    obtain ⟨pool, cells, readers⟩ := m
    obtain rfl : readers = 0 := hreaders
    exact hdone k

/-- The memory after a value was copied into a node. -/
def written (m : Mem V) (n : ℕ) (val : V) : Mem V :=
  m.setFields n { m.cells.data n with val := some val }

lemma written_node : (written m n val).node =
    Function.update m.node n { m.node n with val := some val } := node_setFields

lemma Rests.written (h : Rests m head tail c free) :
    Rests (written m n val) head tail c free where
  clean := by
    rw [written_node]
    exact h.clean.congr (sameLinks_val val)
  own k hk := by
    have := h.own k hk
    unfold Mem.Own at *
    rw [written_node, (sameLinks_val val).succ]
    exact this
  ready := h.ready.congr fun _ _ => rfl
  apart := h.apart
  readers := h.readers

lemma Serves.write (hn : Inner head tail n) (hreaders : m.readers = 0)
    (hdone : ∀ k, Serves head tail Q k (written m n val, ⟨[], .returned (.ok none)⟩)) :
    Serves head tail Q k (m, ⟨[], .updateWrite key val n .load⟩) := by
  induction k using Nat.strong_induction_on with
  | _ k ih =>
    refine .access trivial rfl trivial (fun _ => exec_loadReaders hreaders) ?_
    refine .casReaders trivial rfl hreaders ?_ fun j hj => ih j hj
    refine .access trivial rfl hn (fun _ => rfl) ?_
    refine .access trivial rfl trivial (fun _ => rfl) ?_
    obtain ⟨pool, cells, readers⟩ := m
    obtain rfl : readers = 0 := hreaders
    exact hdone k

/-- **A search** for a key of the list delivers the value of its node, and fails for another. -/
theorem Serves.searchCheck {wants : Bool} (h : Rests m head tail c free) (hlow : intptrMin < key)
    (hhigh : key < intptrMax)
    (hmissing : (m.node n).key ≠ key → ∀ k,
      Serves head tail Q k (m, ⟨[], .returned (.fail (some .enoent))⟩))
    (hfound : (m.node n).key = key → ∀ k, Serves head tail Q k
      (m, ⟨[], .returned (.ok (bif wants then some (m.node n).val else none))⟩)) :
    Serves head tail Q k (m, ⟨[], .searchCheck key wants n⟩) := by
  refine .access trivial rfl trivial (fun _ => exec_loadKey rfl) ?_
  by_cases hk : (m.node n).key = key
  · rw [if_pos hk]
    cases wants with
    | false => exact hfound hk k
    | true =>
      exact .read (.searchRead key n) (fun v => ⟨[], .returned (.ok (some v))⟩)
        (fun _ => trivial) (fun _ => rfl) (h.clean.inner_of_key hk hlow hhigh) h.readers (hfound hk)
  · rw [if_neg hk]
    exact hmissing hk k

/-- **An update** of a key of the list replaces the value of its node, and fails for another. -/
theorem Serves.updateCheck (h : Rests m head tail c free) (hlow : intptrMin < key)
    (hhigh : key < intptrMax)
    (hmissing : (m.node n).key ≠ key → ∀ k,
      Serves head tail Q k (m, ⟨[], .returned (.fail (some .enoent))⟩))
    (hfound : (m.node n).key = key → ∀ k,
      Serves head tail Q k (written m n val, ⟨[], .returned (.ok none)⟩)) :
    Serves head tail Q k (m, ⟨[], .updateCheck key val n⟩) := by
  refine .access trivial rfl trivial (fun _ => exec_loadKey rfl) ?_
  by_cases hk : (m.node n).key = key
  · rw [if_pos hk]
    exact .write (h.clean.inner_of_key hk hlow hhigh) h.readers (hfound hk)
  · rw [if_neg hk]
    exact hmissing hk k

end CoopTasks.LockFreeList
