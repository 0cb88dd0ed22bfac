import CoopTasks.ListDelete

/-!
After `list_delete` has given its node back, a search that runs alone does not meet it.
-/

namespace CoopTasks.LockFreeList

open CoopTasks.Machine

variable {N V : Type*} [DecidableEq N] {mem mem' : N → Node N V} {linked c : List N}
  {head tail n d : N} {key : ℤ} {s s' s₀ : LinkState N V} {t u : ℕ} {val : Bool}

/-! ### A search that stays on the chain -/

/-- The nodes that a search looks at. -/
def SearchPc.visits : SearchPc N → List N
  | .load curr | .reload curr => [curr]
  | .testKey curr next | .nextMarked curr next | .currMarked curr next | .differs curr next
  | .agrees curr next | .helpMarked curr next _ | .advance curr next => [curr, next]

/-- The nodes that a thread looks at while it searches. -/
def Pc.visits : Pc N V → List N
  | .searchFrom _ _ pc => pc.visits
  | .searchCheck _ _ curr => [curr]
  | _ => []

/-- A search from an unmarked node to the one that it points to. -/
def OnChain (mem : N → Node N V) : SearchPc N → Prop
  | .load curr | .reload curr => (mem curr).succ.marked = false
  | .testKey curr next | .nextMarked curr next | .currMarked curr next | .agrees curr next
  | .helpMarked curr next _ => (mem curr).succ.marked = false ∧ Agrees mem curr next
  | .advance curr next => (mem curr).succ.marked = false ∧ Agrees mem curr next ∧
      (mem next).succ.marked = false
  | .differs _ _ => False

omit [DecidableEq N] in
lemma OnChain.visits {pc : SearchPc N} (h : OnChain mem pc)
    (hc : Chained mem linked head tail c) (hs : SearchOk mem linked key pc) :
    ∀ n ∈ pc.visits, n ∈ c := by
  have hnext : ∀ {curr next}, Before mem linked key curr → (mem curr).succ.marked = false →
      Agrees mem curr next → ∀ n ∈ [curr, next], n ∈ c := fun {curr next} hb hm ha n hn => by
    have hcurr := hc.kept curr hb.1 hm
    simp only [List.mem_cons, List.not_mem_nil, or_false] at hn
    rcases hn with rfl | rfl
    · exact hcurr
    · exact hc.succ_mem hcurr ha
  cases pc with
  | load curr | reload curr => simpa [SearchPc.visits] using hc.kept curr hs.1 h
  | testKey | nextMarked | currMarked | agrees | helpMarked => exact hnext hs.1 h.1 h.2
  | advance => exact hnext hs.1 h.1 h.2.1
  | differs => exact h.elim

/-- Where a search stands that will not find its key. -/
inductive Missing (mem : N → Node N V) (linked : List N) (key : ℤ) (val : Bool) :
    Thread N V → Prop
  | search (pc : SearchPc N) (h : OnChain mem pc) :
      Missing mem linked key val ⟨[], .searchFrom (.search val) key pc⟩
  | check {curr : N} (hcurr : curr ∈ linked) (hm : (mem curr).succ.marked = false) :
      Missing mem linked key val ⟨[], .searchCheck key val curr⟩
  | failed : Missing mem linked key val ⟨[], .returned (.fail (some .enoent))⟩

/-- A search alone for a key that only a node off the chain has. -/
structure Alone (u : ℕ) (key : ℤ) (val : Bool) (d : N) (s : LinkState N V) : Prop where
  inv : AloneInv u s
  gone : Gone s.node s.linked d
  only : ∀ n ∈ s.linked, n ≠ d → (s.node n).key = key → (s.node n).succ.marked = true
  thread : Missing s.node s.linked key val (s.threads u)

lemma search_missing {pc : SearchPc N} {weak : Bool} {fresh : Option N}
    {cmd : Cmd N V (Thread N V)} (hc : Chained s.node s.linked s.head s.tail c)
    (hok : PcOk s.node s.linked s.used (.searchFrom (.search val) key pc)) (h : OnChain s.node pc)
    (hcmd : (Pc.searchFrom (.search val) key pc).cmd (· == ·) = some cmd) :
    Missing (s.exec weak fresh cmd).1.node s.linked key val (s.exec weak fresh cmd).2 := by
  obtain ⟨hlow, hhigh, hs, -⟩ := hok
  have hnext : ∀ curr, Before s.node s.linked key curr → ∃ m, Agrees s.node curr m :=
    fun curr hb => by
      have hne : curr ≠ s.tail := by
        rintro rfl
        have := hb.2
        rw [hc.tail_key] at this
        omega
      obtain ⟨m, -, hs, -⟩ := hc.next curr hb.1 hne
      exact ⟨m, hs⟩
  cases pc with
  | load curr =>
    cases hcmd
    obtain ⟨m, hm⟩ := hnext curr hs
    simp only [searchFrom, Cmd.map, LinkState.exec, Function.comp, SearchRes.follow,
      show (s.node curr).succ.node = some m from hm]
    exact .search (.testKey curr m) ⟨h, hm⟩
  | testKey curr next =>
    cases hcmd
    simp only [searchFrom, Cmd.map, LinkState.exec, Function.comp]
    by_cases hk : (s.node next).key ≤ key
    · rw [if_pos hk]
      exact .search (.nextMarked curr next) h
    · rw [if_neg hk]
      exact .check hs.1.1 h.1
  | nextMarked curr next =>
    cases hcmd
    simp only [searchFrom, Cmd.map, LinkState.exec, Function.comp]
    cases hm : (s.node next).succ.marked with
    | true => exact .search (.currMarked curr next) h
    | false => exact .search (.advance curr next) ⟨h.1, h.2, hm⟩
  | currMarked curr next =>
    cases hcmd
    simp only [searchFrom, Cmd.map, LinkState.exec, Function.comp, h.1, cond_false]
    exact .search (.agrees curr next) h
  | differs => exact h.elim
  | agrees curr next =>
    cases hcmd
    simp only [searchFrom, Cmd.map, LinkState.exec, Function.comp,
      show (s.node curr).succ.node = some next from h.2, isNode_self, cond_true]
    exact .search (.helpMarked curr next .load) h
  | helpMarked curr next pc' =>
    cases hcmd
    cases pc' with
    | load => exact .search (.helpMarked curr next (.cas _)) h
    | cas m =>
      cases hok : !weak && decide ((s.node curr).succ = getFlaggedRef (some next)) with
      | false =>
        simp only [searchFrom, helpMarked, Cmd.map, LinkState.exec, LinkState.casOk, hok,
          cond_false]
        exact .search (.reload curr) h.1
      | true =>
        simp only [searchFrom, helpMarked, Cmd.map, LinkState.exec, LinkState.casOk, hok,
          cond_true]
        exact .search (.reload curr) (by simp [OnChain])
  | reload curr =>
    cases hcmd
    obtain ⟨m, hm⟩ := hnext curr hs
    simp only [searchFrom, Cmd.map, LinkState.exec, Function.comp, SearchRes.follow,
      show (s.node curr).succ.node = some m from hm]
    exact .search (.nextMarked curr m) ⟨h, hm⟩
  | advance curr next =>
    cases hcmd
    simp only [searchFrom, Cmd.map, LinkState.exec, Function.comp]
    by_cases hk : (s.node next).key ≤ key
    · rw [if_pos hk]
      exact .search (.load next) h.2.2
    · rw [if_neg hk]
      exact .search (.testKey curr next) ⟨h.1, h.2.1⟩

omit [DecidableEq N] in
lemma Missing.effect {th : Thread N V} (h : Missing mem linked key val th) : th.effect = .none := by
  cases h <;> rfl

lemma Alone.step {weak : Bool} {fresh : Option N} (h : Alone u key val d s)
    (hs : s.next (.step u weak fresh) = some s') : Alone u key val d s' := by
  obtain ⟨⟨c, hc⟩, hun⟩ := h.inv
  obtain ⟨c', hc', hst, hev⟩ := linkInv_step hc hun.oneWord hs
  obtain ⟨cmd, hcmd, hnode, -, hlinked, hth⟩ := next_step hs
  have hsame : s'.linked = s.linked := by
    rw [hlinked, h.thread.effect]
    cases s.casOk weak cmd <;> rfl
  refine ⟨h.inv.step hs, ?_, fun n hn hnd hk => ?_, ?_⟩
  · rw [hst.linked] at hev ⊢
    exact h.gone.move hc.chained hst.move hev
  · rw [hsame] at hn
    rw [hev.key n hn] at hk
    exact hev.marked hn (h.only n hn hnd hk)
  · rw [hth, Function.update_self, hnode, hsame]
    have hok := (hc.threads u).pc
    have hmiss := h.thread
    rcases hthr : s.threads u with ⟨helps, pc⟩
    rw [hthr] at hcmd hok hmiss
    cases hmiss with
    | search _ hpc => exact search_missing hc.chained hok hpc hcmd
    | @check curr hcurr hm =>
      cases hcmd
      have hk : (s.node curr).key ≠ key := fun hk => by
        have hne : curr ≠ d := by
          rintro rfl
          simp [h.gone.marked] at hm
        simp [h.only curr hcurr hne hk] at hm
      simp only [LinkState.exec, if_neg hk]
      exact .failed
    | failed => cases hcmd

omit [DecidableEq N] in
lemma Alone.visits (h : Alone u key val d s) : d ∉ (s.threads u).pc.visits := by
  obtain ⟨⟨c, hc⟩, -⟩ := h.inv
  have hnot := h.gone.not_mem hc.chained
  have hok := (hc.threads u).pc
  have hmiss := h.thread
  rcases hthr : s.threads u with ⟨helps, pc⟩
  rw [hthr] at hok hmiss
  cases hmiss with
  | search _ hpc => exact fun hd => hnot (hpc.visits hc.chained hok.2.2.1 d hd)
  | @check curr hcurr hm =>
    have hon := hc.chained.kept curr hcurr hm
    intro hd
    obtain rfl : d = curr := by simpa [Pc.visits] using hd
    exact hnot hon
  | failed => simp [Pc.visits]

lemma Alone.returns {fresh : LinkState N V → Option N} (hfresh : ∀ s, ∀ n ∈ fresh s, n ∉ s.used)
    (h : Alone u key val d s) (weak : List Bool) :
    ∃ n s', (∀ fuel ≥ n, runAlone (aloneStep fresh u) (ended u) fuel weak s = some (s', ())) ∧
      s'.threads u = ⟨[], .returned (.fail (some .enoent))⟩ := by
  obtain ⟨n, s', hrun, hI, hend⟩ := alone_ends hfresh (fun _ hv => hv.inv.1)
    (fun _ _ _ hv => hv.step) h weak
  refine ⟨n, s', hrun, ?_⟩
  have hmiss := hI.thread
  rcases hthr : s'.threads u with ⟨helps, pc⟩
  rw [hthr] at hmiss
  cases hmiss with
  | search => simp [ended, hthr, Thread.outside, Thread.waits] at hend
  | check => simp [ended, hthr, Thread.outside, Thread.waits] at hend
  | failed => rfl

/-! ### What holds in every run -/

lemma deletes_reach (h₀ : LinkCreated s₀)
    (h : Reach LinkState.next (fun s a => OneWord s a ∧ Unlinks s a) s₀ s) :
    (∃ c, LinkInv s c) ∧ ∀ t, DeleteOk s.node s.linked (s.threads t) := by
  refine h.inv (I := fun s => (∃ c, LinkInv s c) ∧ ∀ t, DeleteOk s.node s.linked (s.threads t))
    ⟨⟨_, created_linkInv h₀⟩, fun t => .of_plain ?_⟩ fun v a w ⟨⟨c, hc⟩, hdel⟩ ⟨hone, hun⟩ hs => ?_
  · rcases outside_cases (h₀.threads t) with ht | ⟨r, ht⟩ <;> rw [ht] <;> rfl
  · obtain ⟨c', hc', -, -⟩ := linkInv_step hc hone hs
    exact ⟨⟨c', hc'⟩, deletes_step hc hdel hone hun hs⟩

lemma alone_call {c : List N} (hc : LinkInv s c) (hg : Gone s.node s.linked d)
    (honly : ∀ n ∈ s.linked, n ≠ d → (s.node n).key = key → (s.node n).succ.marked = true)
    (hs : s.next (.call u (.search key val)) = some s') : Alone u key val d s' := by
  have hinv := (Resumed.call hs).alone hc
  have hhead := hc.chained.head_unmarked
  simp only [LinkState.next] at hs
  split at hs
  · cases hs
    refine ⟨hinv, hg, honly, ?_⟩
    simp only [Function.update_self]
    exact .search (.load s.head) hhead
  · cases hs

/-- **Unlink before free**: in every run in which `try_flag` is not deceived and the last
compare-exchange of `list_delete`'s call of `help_flagged` does not fail spuriously, the node that
`list_delete` is about to give back is off the chain and nothing is flagged on it; and once it has
been given back, a search for its key fails without having looked at it, unless the key has been
inserted again. -/
theorem list_delete_unlinks {v : Option (Option V)} (fresh : LinkState N V → Option N)
    (hfresh : ∀ s, ∀ n ∈ fresh s, n ∉ s.used) (h₀ : LinkCreated s₀)
    (h : Reach LinkState.next (fun s a => OneWord s a ∧ Unlinks s a) s₀ s)
    (ht : s.threads t = ⟨[], .delete key val d (.free v)⟩) :
    d ∉ s.chain ∧ (∀ n, (s.node n).succ ≠ getFlaggedRef (some d)) ∧
    ∀ weak new s', s.next (.step t weak new) = some s' →
      s'.threads t = ⟨[], .returned (.ok v)⟩ ∧
      ((∀ n ∈ s'.linked, n ≠ d → (s'.node n).key = key → (s'.node n).succ.marked = true) →
        ∀ u val s₁, s'.next (.call u (.search key val)) = some s₁ →
          (∀ weak, ∃ n s₂,
            (∀ fuel ≥ n, runAlone (aloneStep fresh u) (ended u) fuel weak s₁ = some (s₂, ())) ∧
            s₂.threads u = ⟨[], .returned (.fail (some .enoent))⟩) ∧
          ∀ s₂, Reach LinkState.next (fun _ a => ∃ weak new, a = .step u weak new) s₁ s₂ →
            d ∉ (s₂.threads u).pc.visits) := by
  obtain ⟨⟨c, hc⟩, hdel⟩ := deletes_reach h₀ h
  have hg : Gone s.node s.linked d := by
    have hmine := hdel t
    rw [ht] at hmine
    exact hmine.gone rfl
  refine ⟨?_, fun n hn => ?_, fun weak new s' hs => ?_⟩
  · rw [hc.chain_eq]
    exact hg.not_mem hc.chained
  · by_cases hl : n ∈ s.linked
    · exact hg.unflagged n hl hn
    · have := hc.plain n hl
      simp [hn] at this
  · have hone : OneWord s (.step t weak new) := fun x hx => by
      simp [ht, Thread.lastTest] at hx
    obtain ⟨c', hc', hst, hev⟩ := linkInv_step hc hone hs
    have hg' : Gone s'.node s'.linked d := by
      rw [hst.linked] at hev ⊢
      exact hg.move hc.chained hst.move hev
    obtain ⟨cmd, hcmd, -, -, -, hth⟩ := next_step hs
    rw [ht] at hcmd
    cases hcmd
    refine ⟨by rw [hth, Function.update_self]; rfl, fun honly u val s₁ hs₁ => ?_⟩
    have halone := alone_call hc' hg' honly hs₁
    refine ⟨halone.returns hfresh, fun s₂ hr => ?_⟩
    have hall := hr.inv (I := Alone u key val d) halone fun _ a _ hv ⟨weak, new, ha⟩ hn => by
      subst ha
      exact hv.step hn
    exact hall.visits

/-- Thread 2, which searches for 10, unlinks the node that thread 1 is deleting; the
compare-exchange of thread 1 then fails, and the node is off the chain. -/
theorem list_delete_unlinks_two : ∃ s s' s₁ : LinkState ℕ ℕ,
    Reach LinkState.next (fun s a => OneWord s a ∧ Unlinks s a) (LinkState.new 0 1) s ∧
    s.threads 1 = ⟨[], .delete 10 false 2 (.free none)⟩ ∧ 2 ∉ s.chain ∧
    s.next (.step 1 false none) = some s' ∧
    s'.next (.call 3 (.search 10 false)) = some s₁ ∧
    ∃ n s₂, (∀ fuel ≥ n, runAlone (aloneStep freshNumber 3) (ended 3) fuel [] s₁ = some (s₂, ())) ∧
      s₂.threads 3 = ⟨[], .returned (.fail (some .enoent))⟩ := by
  obtain ⟨s, hs, hp⟩ := exists_reach LinkState.next (fun s a => OneWord s a ∧ Unlinks s a)
    (LinkState.new 0 1 : LinkState ℕ ℕ)
    (fun s => decide (s.threads 1 = ⟨[], .delete 10 false 2 (.free none)⟩) &&
      (s.next (.step 1 false none)).any fun s' =>
        (s'.next (.call 3 (.search 10 false))).isSome &&
        decide (∀ n ∈ s'.linked, n ≠ 2 → (s'.node n).key = 10 → (s'.node n).succ.marked = true))
    (linkInsert 0 10 2 ++ [.call 1 (.delete 10 false)] ++ linkSteps 1 14 ++
      [.call 2 (.search 10 false)] ++ linkSteps 2 8 ++ [.step 1 true none])
    (by decide +kernel)
  simp only [Bool.and_eq_true, decide_eq_true_eq, Option.any_eq_true] at hp
  obtain ⟨hth, s', hs', hcall, honly⟩ := hp
  obtain ⟨s₁, hs₁⟩ := Option.isSome_iff_exists.mp hcall
  obtain ⟨hoff, -, hrest⟩ := list_delete_unlinks freshNumber freshNumber_new
    (new_created (by decide)) hs hth
  obtain ⟨n, s₂, hrun, hres⟩ := ((hrest false none s' hs').2 honly 3 false s₁ hs₁).1 []
  exact ⟨s, s', s₁, hs, hth, hoff, hs', hs₁, n, s₂, hrun, hres⟩

/-- When the compare-exchange of `help_marked` fails spuriously in a `list_delete` that nothing
disturbs, the node is given back while it is still on the chain. -/
theorem list_delete_leaves_linked : ¬ ∀ (s : LinkState ℕ ℕ) (t : ℕ) (key : ℤ) (val : Bool) (d : ℕ)
    (v : Option (Option ℕ)), Reach LinkState.next OneWord (LinkState.new 0 1) s →
    s.threads t = ⟨[], .delete key val d (.free v)⟩ → d ∉ s.chain := by
  intro hall
  obtain ⟨s, hs, hp⟩ := exists_reach LinkState.next OneWord (LinkState.new 0 1 : LinkState ℕ ℕ)
    (fun s => decide (s.threads 1 = ⟨[], .delete 10 false 2 (.free none)⟩) &&
      decide (2 ∈ s.chain))
    (linkInsert 0 10 2 ++ [.call 1 (.delete 10 false)] ++ linkSteps 1 14 ++
      [.step 1 true none])
    (by decide +kernel)
  simp only [Bool.and_eq_true, decide_eq_true_eq] at hp
  exact hall s 1 10 false 2 none hs hp.1 hp.2

end CoopTasks.LockFreeList
