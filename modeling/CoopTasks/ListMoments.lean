import CoopTasks.ListTable

/-!
What a call can say of earlier moments: which keys the list did not have, and which values it had.

A node that a call has come by was on the list at some moment since then; while it was there, no key
lay between its own and that of its successor, and its key was not in the table from the moment it
was marked.
-/

namespace CoopTasks.LockFreeList

open CoopTasks.Machine CoopTasks.Linearize ListMachine

variable {N V : Type*} [DecidableEq N] {s s' : LinkState N V} {a : LinkAct N V} {c : List N}
  {curr next n m : N} {key : ℤ} {op : Op V} {r : Res V}
  {recent : List (LinkState N V × LinkAct N V)} {P Q : LinkState N V → Prop}

/-- Something was so at some moment since then. -/
def Was (P : LinkState N V → Prop) (recent : List (LinkState N V × LinkAct N V))
    (s : LinkState N V) : Prop :=
  P s ∨ ∃ x ∈ recent, P x.1

omit [DecidableEq N] in
lemma Was.cons (h : Was P recent s) : Was P ((s, a) :: recent) s' := by
  rcases h with h | ⟨x, hx, h⟩
  · exact .inr ⟨(s, a), by simp, h⟩
  · exact .inr ⟨x, by simp [hx], h⟩

omit [DecidableEq N] in
lemma was_cons (h : Was P ((s, a) :: recent) s') : P s' ∨ Was P recent s := by
  rcases h with h | ⟨x, hx, h⟩
  · exact .inl h
  · rcases List.mem_cons.mp hx with rfl | hx
    · exact .inr (.inl h)
    · exact .inr (.inr ⟨x, hx, h⟩)

omit [DecidableEq N] in
lemma Was.imp (h : Was P recent s) (himp : ∀ u, P u → Q u) : Was Q recent s := by
  rcases h with h | ⟨x, hx, h⟩
  · exact .inl (himp _ h)
  · exact .inr ⟨x, hx, himp _ h⟩

/-- The list has no key between two others. -/
def Parted (low high : ℤ) (s : LinkState N V) : Prop :=
  ∀ n, linkMachine.Alive s n → (s.node n).key ≤ low ∨ high ≤ (s.node n).key

/-- The list does not have a key. -/
def Lacks (key : ℤ) (s : LinkState N V) : Prop :=
  ∀ n, linkMachine.Alive s n → (s.node n).key ≠ key

/-- A node on the chain, marked or not. -/
def Chains (n : N) (s : LinkState N V) : Prop := n ∈ s.chain

/-- The table could have answered a call without changing. -/
def CouldAnswer (op : Op V) (r : Res V) (s : LinkState N V) : Prop :=
  Answers (linkMachine.table s) op r (linkMachine.table s)

/-- What the nodes met tell of earlier moments. -/
structure Trail (recent : List (LinkState N V × LinkAct N V)) (s : LinkState N V) : Prop where
  linked : ∀ n, Was (Chains n) recent s → n ∈ s.linked
  parted : ∀ n m, Met recent s n → (s.node n).succ.marked = true →
    (s.node n).succ.node = some m → Was (Parted (s.node n).key (s.node m).key) recent s
  lacks : ∀ n, Was (Chains n) recent s → (s.node n).succ.marked = true →
    Was (Lacks (s.node n).key) recent s
  stored : ∀ n, Met recent s n →
    Was (fun u => linkMachine.table u (s.node n).key = (s.node n).val) recent s

/-! ### One moment -/

lemma LinkInv.parted (h : LinkInv s c) (hn : linkMachine.Alive s n)
    (hs : (s.node n).succ.node = some m) : Parted (s.node n).key (s.node m).key s := by
  have hc : ∀ q, linkMachine.Alive s q → q ∈ c := fun q hq =>
    h.chained.kept q (h.alive_iff.mp hq).1 hq.2
  exact fun q hq => h.chained.gap (hc n hn) hs (hc q hq)

lemma LinkInv.lacks (h : LinkInv s c) (hn : Chains n s) (hm : (s.node n).succ.marked = true) :
    Lacks (s.node n).key s := by
  intro q hq hk
  have hnc : n ∈ c := by
    rw [← h.chain_eq]
    exact hn
  obtain ⟨hql, hqm⟩ := h.alive_iff.mp hq
  obtain rfl := h.chained.key_inj (h.chained.kept q hql hqm) hnc hk
  simp [hqm] at hm

lemma lacks_marked (h : LinkInv s c) (hone : OneWord s a) (hs : s.next a = some s')
    (he : s.effect a = .marked n) : Lacks (s.node n).key s' := by
  obtain ⟨c', h', hst, hev⟩ := linkInv_step h hone hs
  have hmv := hst.move
  rw [he] at hmv
  obtain ⟨-, hkeys⟩ := h.chained.keys_move hmv
  intro q hq hk
  obtain ⟨hq, hm⟩ := h'.alive_iff.mp hq
  have hmem : (s.node n).key ∈ keysOf s'.node s'.linked := ⟨q, hq, hm, hk⟩
  rw [hst.linked, he, hkeys] at hmem
  exact hmem.2 rfl

lemma chains_of_alive (h : linkMachine.Alive s n) : Chains n s := h.1

/-! ### Along a run -/

lemma trail_nil (h : LinkInv s c) : Trail [] s where
  linked n hn := by
    rcases hn with hn | ⟨x, hx, -⟩
    · have hn : n ∈ s.chain := hn
      rw [h.chain_eq] at hn
      exact h.chained.sub n hn
    · simp at hx
  parted n m hn hm := by
    rcases hn with hn | ⟨x, hx, -⟩
    · simp [(h.alive_iff.mp hn).2] at hm
    · simp at hx
  lacks n hn hm := by
    rcases hn with hn | ⟨x, hx, -⟩
    · exact .inl (h.lacks hn hm)
    · simp at hx
  stored n hn := by
    rcases hn with hn | ⟨x, hx, -⟩
    · exact .inl (table_alive h hn)
    · simp at hx

lemma Trail.cons (h : LinkInv s c) (hok : Orderly s a) (hs : s.next a = some s')
    (hseg : Segment recent s) (htrail : Trail recent s) : Trail ((s, a) :: recent) s' := by
  obtain ⟨c', h', hst, hev⟩ := linkInv_step h hok.oneWord hs
  constructor
  · intro n hn
    rcases was_cons hn with hn | hn
    · have hn : n ∈ s'.chain := hn
      rw [h'.chain_eq] at hn
      exact h'.chained.sub n hn
    · exact hev.grows n (htrail.linked n hn)
  · intro n m hn hmark hnext
    have hold := (met_cons hn).resolve_left fun hn => by
      simp [(h'.alive_iff.mp hn).2] at hmark
    have hl := hseg.linked n hold
    have hkey : ∀ {m}, (s.node n).succ.node = some m →
        (s'.node n).key = (s.node n).key ∧ (s'.node m).key = (s.node m).key := fun hm =>
      ⟨hev.key n hl, hev.key _ (h.chained.succ_key hl hm).1⟩
    cases hm : (s.node n).succ.marked with
    | false =>
      obtain ⟨-, -, -, hsame⟩ := hst.move.marks hl hm hmark
      rw [hsame] at hnext
      obtain ⟨hkn, hkm⟩ := hkey hnext
      rw [hkn, hkm]
      exact Was.cons (.inl (h.parted (h.alive_iff.mpr ⟨hl, hm⟩) hnext))
    | true =>
      rw [hev.frozen n hl hm] at hnext
      obtain ⟨hkn, hkm⟩ := hkey hnext
      rw [hkn, hkm]
      exact (htrail.parted n m hold hm hnext).cons
  · intro n hn hmark
    rcases was_cons hn with hn | hn
    · exact .inl (h'.lacks hn hmark)
    · have hl := htrail.linked n hn
      rw [hev.key n hl]
      cases hm : (s.node n).succ.marked with
      | false => exact .inl (lacks_marked h hok.oneWord hs (hst.move.marks hl hm hmark).1)
      | true => exact (htrail.lacks n hn hm).cons
  · intro n hn
    by_cases hn' : linkMachine.Alive s' n
    · exact .inl (table_alive h' hn')
    have hold := (met_cons hn).resolve_left hn'
    have hl := hseg.linked n hold
    have hmark : (s'.node n).succ.marked = true := by
      by_contra hm
      exact hn' (h'.alive_iff.mpr ⟨hev.grows n hl, by simpa using hm⟩)
    have hval : (s'.node n).val = (s.node n).val := by
      cases hm : (s.node n).succ.marked with
      | false => exact next_val_marks h hok.oneWord hs hl hm hmark
      | true => exact next_val_marked h hok.live hs hl hm
    rw [hev.key n hl, hval]
    exact (htrail.stored n hold).cons

/-! ### Neighbours -/

/-- A search has come from one node to the next. -/
structure Sight (recent : List (LinkState N V × LinkAct N V)) (s : LinkState N V)
    (curr next : N) : Prop where
  met : Met recent s curr
  parted : Was (Parted (s.node curr).key (s.node next).key) recent s
  chains : Was (Chains next) recent s

lemma sight_succ (h : LinkInv s c) (hseg : Segment recent s) (htrail : Trail recent s)
    (hcurr : Met recent s curr) (hs : (s.node curr).succ.node = some next) :
    Sight recent s curr next := by
  cases hm : (s.node curr).succ.marked with
  | false =>
    have hlive := h.alive_iff.mpr ⟨hseg.linked curr hcurr, hm⟩
    refine ⟨hcurr, .inl (h.parted hlive hs), .inl ?_⟩
    show next ∈ s.chain
    rw [h.chain_eq]
    exact h.chained.succ_mem (h.chained.kept curr (h.alive_iff.mp hlive).1 hm) hs
  | true =>
    -- the word is from the moment before the node was marked
    exact ⟨hcurr, htrail.parted curr next hcurr hm hs,
      Was.imp (P := fun u => linkMachine.Alive u next) (hseg.after curr next hcurr hm hs)
        fun _ => chains_of_alive⟩

lemma Sight.cons (hseg : Segment recent s) (htrail : Trail recent s)
    (hev : Evolves s.node s.linked s'.node s'.linked) (h : Sight recent s curr next) :
    Sight ((s, a) :: recent) s' curr next where
  met := h.met.cons
  parted := by
    rw [hev.key curr (hseg.linked curr h.met), hev.key next (htrail.linked next h.chains)]
    exact h.parted.cons
  chains := h.chains.cons

lemma Sight.lacks (h : Sight recent s curr next) (hlow : (s.node curr).key < key)
    (hhigh : key < (s.node next).key) : Was (Lacks key) recent s := by
  refine h.parted.imp fun u hu n hn hk => ?_
  rcases hu n hn with hle | hle <;> omega

/-- A search for the predecessor of a node has found another one: the key was missing at some
moment. -/
lemma Sight.lacks_target (hI : LinkInv s c) (htrail : Trail recent s) (h : Sight recent s curr next)
    {target : N} (htarget : Was (Chains target) recent s) (hne : next ≠ target)
    (hlow : (s.node curr).key < (s.node target).key)
    (hhigh : (s.node target).key ≤ (s.node next).key) :
    Was (Lacks (s.node target).key) recent s := by
  by_cases heq : (s.node next).key = (s.node target).key
  · cases hmt : (s.node target).succ.marked with
    | true => exact htrail.lacks target htarget hmt
    | false =>
      cases hmn : (s.node next).succ.marked with
      | true =>
        rw [← heq]
        exact htrail.lacks next h.chains hmn
      | false =>
        -- two nodes with one key are not on the list together
        refine absurd (hI.chained.key_inj ?_ ?_ heq) hne
        · exact hI.chained.kept next (htrail.linked next h.chains) hmn
        · exact hI.chained.kept target (htrail.linked target htarget) hmt
  · exact h.lacks hlow (by omega)

lemma was_table (h : Was (Lacks key) recent s) :
    Was (fun u => linkMachine.table u key = none) recent s :=
  h.imp fun _ hu => table_absent hu

end CoopTasks.LockFreeList
