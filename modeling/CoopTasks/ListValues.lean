import CoopTasks.ListDelete
import CoopTasks.ListMachine

/-!
What calls do to the values in a list when no node is ever given back.

A search reads the value of a node that was on the list during the search, and a deletion that of
the node it has taken off: what they read was stored there at that moment, unless a `list_update`
has written to a node that was already deleted.
-/

namespace CoopTasks.LockFreeList

open CoopTasks.Machine ListMachine

variable {N V : Type*} [DecidableEq N]

/-- The list when no node is given back. -/
def linkMachine : ListMachine (LinkState N V) (LinkAct N V) N V where
  next := LinkState.next
  call
    | .call t op => some (t, op)
    | .step _ _ _ => none
  mover
    | .call _ _ => none
    | .step t _ _ => some t
  chain s := s.chain
  node s := s.node
  threads s := s.threads

/-- The node that a `list_update` is about to copy its value into. -/
def Thread.overwrites (th : Thread N V) : Option N :=
  match th.helps, th.pc with
  | [], .updateWrite _ _ target .copy => some target
  | _, _ => none

/-- No `list_update` copies its value into a node that has been deleted. -/
def WritesLive (s : LinkState N V) : LinkAct N V → Prop
  | .call _ _ => True
  | .step t _ _ => ∀ n ∈ (s.threads t).overwrites, (s.node n).succ.marked = false

/-- What the moves of a run have to meet. -/
structure Orderly (s : LinkState N V) (a : LinkAct N V) : Prop where
  oneWord : OneWord s a
  unlinks : Unlinks s a
  live : WritesLive s a

variable {s s' s₀ : LinkState N V} {a : LinkAct N V} {c : List N} {n m p : N} {t : ℕ} {op : Op V}
  {mem mem' : N → Node N V} {linked : List N} {e : Effect N}

/-! ### One move -/

lemma LinkInv.alive_iff (h : LinkInv s c) :
    linkMachine.Alive s n ↔ n ∈ s.linked ∧ (s.node n).succ.marked = false := by
  show n ∈ s.chain ∧ _ ↔ _
  rw [h.chain_eq]
  exact ⟨fun hn => ⟨h.chained.sub n hn.1, hn.2⟩, fun hn => ⟨h.chained.kept n hn.1 hn.2, hn.2⟩⟩

/-- Only `try_mark` marks, and only where a predecessor is flagged. -/
lemma Move.marks (h : Move mem linked e mem') (hn : n ∈ linked)
    (hm : (mem n).succ.marked = false) (hm' : (mem' n).succ.marked = true) :
    e = .marked n ∧ (∃ p ∈ linked, (mem p).succ = getFlaggedRef (some n)) ∧
      (mem n).succ.flagged = false ∧ (mem' n).succ.node = (mem n).succ.node := by
  have hset : ∀ {q r}, r.marked = false → (setSucc mem q r n).succ.marked = false :=
    fun {q r} hr => by
      by_cases hnq : n = q
      · subst hnq
        simpa using hr
      · rwa [setSucc_ne hnq]
  have hno : ∀ {b : Bool}, b = false → b = true → False := fun h h' => by simp [h] at h'
  cases h with
  | outside hsame =>
    rw [(hsame n hn).1] at hm'
    exact (hno hm hm').elim
  | backlink =>
    rw [setBacklink_succ] at hm'
    exact (hno hm hm').elim
  | link => exact (hno (hset rfl) hm').elim
  | flag => exact (hno (hset rfl) hm').elim
  | @mark p d next hp hd hs hds hb =>
    by_cases hnd : n = d
    · subst hnd
      exact ⟨rfl, ⟨p, hp, hs⟩, by simp [hds], by simp [hds]⟩
    · rw [setSucc_ne hnd] at hm'
      exact (hno hm hm').elim
  | unlink => exact (hno (hset rfl) hm').elim

/-- The node that an access copies a value into. -/
def Cmd.writes {R : Type*} : Cmd N V R → Option N
  | .storeVal n _ _ => some n
  | _ => none

omit [DecidableEq N] in
lemma Cmd.writes_map {R S : Type*} {f : R → S} (cmd : Cmd N V R) :
    (cmd.map f).writes = cmd.writes := by
  cases cmd <;> rfl

lemma exec_val {R : Type*} {weak : Bool} {fresh : Option N} {cmd : Cmd N V R}
    (h : cmd.writes ≠ some n) : ((s.exec weak fresh cmd).1.node n).val = (s.node n).val := by
  cases cmd with
  | cas q exp new k =>
    cases hok : s.casOk weak (.cas q exp new k) <;>
      simp only [LinkState.exec, hok, cond_false, cond_true]
    by_cases hq : n = q
    · subst hq
      simp [setSucc]
    · rw [setSucc_ne hq]
  | store q r k =>
    by_cases hq : n = q
    · subst hq
      simp [LinkState.exec, setSucc]
    · simp [LinkState.exec, setSucc_ne hq]
  | storeKey q key k =>
    by_cases hq : n = q
    · subst hq
      simp [LinkState.exec]
    · simp [LinkState.exec, hq]
  | storeBacklink q b k =>
    by_cases hq : n = q
    · subst hq
      simp [LinkState.exec, setBacklink]
    · simp [LinkState.exec, setBacklink, hq]
  | storeVal q v k =>
    have hq : n ≠ q := by
      rintro rfl
      exact h rfl
    simp [LinkState.exec, hq]
  | casReaders exp new k =>
    cases hok : !weak && decide (s.readers = exp) <;> simp [LinkState.exec, hok]
  | _ => rfl

omit [DecidableEq N] in
lemma cmd_writes {same : N → N → Bool} {th : Thread N V} {cmd : Cmd N V (Thread N V)}
    (hcmd : th.cmd same = some cmd) (hn : cmd.writes = some n) :
    th.pc.holds = some n ∨ th.overwrites = some n := by
  obtain ⟨helps, pc⟩ := th
  cases helps with
  | cons f fs =>
    cases hcmd
    obtain ⟨prev, del, fpc⟩ := f
    rw [Cmd.writes_map] at hn
    cases fpc with
    | tryMark pc => cases pc <;> cases hn
    | helpMarked pc => cases pc <;> cases hn
    | _ => cases hn
  | nil =>
    cases pc with
    | idle | returned | null => cases hcmd
    | searchFrom ctx key pc =>
      cases hcmd
      rw [Cmd.writes_map] at hn
      cases pc with
      | helpMarked curr next pc => cases pc <;> cases hn
      | _ => cases hn
    | insert key val pc =>
      cases hcmd
      cases pc with
      | initVal prev next node => exact .inl hn
      | _ => cases hn
    | tryFlag key val prev target pc =>
      cases hcmd
      cases pc <;> cases hn
    | delete key val del pc =>
      cases hcmd
      cases pc with
      | read pc => cases pc <;> cases hn
      | _ => cases hn
    | searchCheck | updateCheck => cases hcmd; cases hn
    | searchRead key target pc =>
      cases hcmd
      cases pc <;> cases hn
    | updateWrite key val target pc =>
      cases hcmd
      cases pc with
      | copy => exact .inr hn
      | _ => cases hn

lemma next_val (h : LinkInv s c) (hs : s.next a = some s') (hn : n ∈ s.linked)
    (ha : ∀ t weak fresh, a = .step t weak fresh → (s.threads t).overwrites ≠ some n) :
    (s'.node n).val = (s.node n).val := by
  cases a with
  | call t op =>
    simp only [LinkState.next] at hs
    split at hs
    · cases hs
      rfl
    · cases hs
  | step t weak fresh =>
    obtain ⟨cmd, hcmd, hnode, -, -, -⟩ := next_step hs
    rw [hnode]
    refine exec_val fun hw => ?_
    rcases cmd_writes hcmd hw with hheld | hover
    · exact ((h.threads t).pc.holds_fresh hheld).2 hn
    · exact ha t weak fresh rfl hover

lemma next_val_marked (h : LinkInv s c) (hok : WritesLive s a) (hs : s.next a = some s')
    (hn : n ∈ s.linked) (hm : (s.node n).succ.marked = true) :
    (s'.node n).val = (s.node n).val := by
  refine next_val h hs hn fun t weak fresh ha hover => ?_
  subst ha
  have := hok n hover
  simp [hm] at this

/-- A node that is marked now and was not before was marked by `try_mark`, which writes no
value. -/
lemma next_val_marks (h : LinkInv s c) (hone : OneWord s a) (hs : s.next a = some s')
    (hn : n ∈ s.linked) (hm : (s.node n).succ.marked = false)
    (hm' : (s'.node n).succ.marked = true) : (s'.node n).val = (s.node n).val := by
  obtain ⟨-, -, hst, -⟩ := linkInv_step h hone hs
  obtain ⟨he, -⟩ := hst.move.marks hn hm hm'
  refine next_val h hs hn fun t weak fresh ha hover => ?_
  subst ha
  obtain ⟨u, fresh', hstep, heff⟩ := effect_step he (by simp)
  cases hstep
  obtain ⟨prev, next, fs, pc, hth⟩ := effect_marked heff
  rw [hth] at hover
  cases hover

/-! ### The moves of a call -/

/-- A node that was on the list at some moment since then. -/
def Met (recent : List (LinkState N V × LinkAct N V)) (s : LinkState N V) (n : N) : Prop :=
  linkMachine.Alive s n ∨ ∃ x ∈ recent, linkMachine.Alive x.1 n

/-- What is known of the nodes met: as long as they are on the list they are as they were, and
after that as they were when they were taken off. -/
structure Segment (recent : List (LinkState N V × LinkAct N V)) (s : LinkState N V) : Prop where
  linked : ∀ n, Met recent s n → n ∈ s.linked
  kept : ∀ n, Met recent s n → linkMachine.Alive s n ∨ ∃ x ∈ recent, ∃ s',
    linkMachine.next x.1 x.2 = some s' ∧ linkMachine.Alive x.1 n ∧ ¬ linkMachine.Alive s' n ∧
      (x.1.node n).key = (s.node n).key ∧ (x.1.node n).val = (s.node n).val
  after : ∀ n m, Met recent s n → (s.node n).succ.marked = true →
    (s.node n).succ.node = some m → Met recent s m

variable {recent : List (LinkState N V × LinkAct N V)}

lemma Met.cons (h : Met recent s n) : Met ((s, a) :: recent) s' n := by
  rcases h with h | ⟨x, hx, h⟩
  · exact .inr ⟨(s, a), by simp, h⟩
  · exact .inr ⟨x, by simp [hx], h⟩

lemma met_cons (h : Met ((s, a) :: recent) s' n) : linkMachine.Alive s' n ∨ Met recent s n := by
  rcases h with h | ⟨x, hx, h⟩
  · exact .inl h
  · rcases List.mem_cons.mp hx with rfl | hx
    · exact .inr (.inl h)
    · exact .inr (.inr ⟨x, hx, h⟩)

lemma segment_nil (h : LinkInv s c) : Segment [] s where
  linked n hn := by
    rcases hn with hn | ⟨x, hx, -⟩
    · exact (h.alive_iff.mp hn).1
    · simp at hx
  kept n hn := by
    rcases hn with hn | ⟨x, hx, -⟩
    · exact .inl hn
    · simp at hx
  after n m hn hm := by
    rcases hn with hn | ⟨x, hx, -⟩
    · have := (h.alive_iff.mp hn).2
      simp [hm] at this
    · simp at hx

lemma marks_next (h : LinkInv s c) (hn : n ∈ s.linked) (hm : (s.node n).succ.marked = false)
    (hf : (s.node n).succ.flagged = false) (hs : (s.node n).succ.node = some m) :
    linkMachine.Alive s m := by
  have hnc := h.chained.kept n hn hm
  have hmc := h.chained.succ_mem hnc hs
  refine h.alive_iff.mpr ⟨h.chained.sub m hmc, ?_⟩
  by_contra hmm
  obtain ⟨q, hq, hqs⟩ := h.chained.flagger m hmc (by simpa using hmm)
  have hqc := h.chained.kept q hq (by simp [hqs])
  have heq : q = n := h.chained.pred_unique hqc hnc (m := m) (by simp [hqs]) hs
  rw [heq] at hqs
  simp [hqs, getFlaggedRef] at hf

lemma Segment.cons (h : LinkInv s c) (hok : Orderly s a) (hs : s.next a = some s')
    (hseg : Segment recent s) : Segment ((s, a) :: recent) s' := by
  obtain ⟨c', h', hst, hev⟩ := linkInv_step h hok.oneWord hs
  have hgrow := hev.grows
  constructor
  · intro n hn
    rcases met_cons hn with hn | hn
    · exact (h'.alive_iff.mp hn).1
    · exact hgrow n (hseg.linked n hn)
  · intro n hn
    refine or_iff_not_imp_left.mpr fun hgone => ?_
    have hold := (met_cons hn).resolve_left hgone
    have hl := hseg.linked n hold
    have hkey := hev.key n hl
    have hmark : (s'.node n).succ.marked = true := by
      by_contra hm
      exact hgone (h'.alive_iff.mpr ⟨hgrow n hl, by simpa using hm⟩)
    cases hm : (s.node n).succ.marked with
    | false =>
      -- this move has taken the node off the list
      exact ⟨(s, a), by simp, s', hs, h.alive_iff.mpr ⟨hl, hm⟩, hgone, hkey.symm,
        (next_val_marks h hok.oneWord hs hl hm hmark).symm⟩
    | true =>
      have hdead : ¬ linkMachine.Alive s n := fun hn => by
        have := (h.alive_iff.mp hn).2
        simp [hm] at this
      obtain ⟨x, hx, u, hu, hin, hout, hk, hv⟩ := (hseg.kept n hold).resolve_left hdead
      refine ⟨x, by simp [hx], u, hu, hin, hout, hk.trans hkey.symm, hv.trans ?_⟩
      exact (next_val_marked h hok.live hs hl hm).symm
  · intro n m hn hmark hnext
    have hold := (met_cons hn).resolve_left fun hn => by
      have := (h'.alive_iff.mp hn).2
      simp [hmark] at this
    have hl := hseg.linked n hold
    cases hm : (s.node n).succ.marked with
    | false =>
      obtain ⟨-, -, hf, hsame⟩ := hst.move.marks hl hm hmark
      exact Met.cons (.inl (marks_next h hl hm hf (hsame ▸ hnext)))
    | true =>
      rw [hev.frozen n hl hm] at hnext
      exact (hseg.after n m hold hm hnext).cons

/-! ### Which call a thread is in -/

/-- A place of a call. -/
def Pc.Runs (op : Op V) : Pc N V → Prop
  | .idle => False
  | .returned _ | .null => True
  | .searchFrom (.insertFirst _) key _ | .searchFrom (.insertAgain _ _) key _
  | .insert key _ _ => ∃ val, op = .insert key val
  | .searchFrom (.delete _) key _ => ∃ val, op = .delete (key + 1) val
  | .searchFrom (.tryFlag key _ _) _ _ | .tryFlag key _ _ _ _ | .delete key _ _ _ =>
    ∃ val, op = .delete key val
  | .searchFrom (.search _) key _ | .searchCheck key _ _ | .searchRead key _ _ =>
    ∃ val, op = .search key val
  | .searchFrom (.update _) key _ | .updateCheck key _ _ | .updateWrite key _ _ _ =>
    ∃ val, op = .update key val

/-- Only `list_insert` and `list_delete` help. -/
def Op.helps : Op V → Bool
  | .insert _ _ | .delete _ _ => true
  | .search _ _ | .update _ _ => false

structure Thread.Runs (op : Op V) (th : Thread N V) : Prop where
  pc : th.pc.Runs op
  helps : op.helps = false → th.helps = []

variable {th th' : Thread N V} {cmd : Cmd N V (Thread N V)}

omit [DecidableEq N] in
lemma runs_plain {pc : Pc N V} (h : pc.Runs op) : (⟨[], pc⟩ : Thread N V).Runs op :=
  ⟨h, fun _ => rfl⟩

omit [DecidableEq N] in
lemma listInsert_runs {key : ℤ} {val w : V} (pc : InsertPc N) :
    (listInsert key val pc : Cmd N V (Thread N V)).All (Thread.Runs (.insert key w)) := by
  have hrun : ∀ pc, (⟨[], .insert key val pc⟩ : Thread N V).Runs (.insert key w) := fun pc =>
    runs_plain ⟨w, rfl⟩
  have hret : ∀ r, (⟨[], .returned r⟩ : Thread N V).Runs (.insert key w) := fun r =>
    runs_plain trivial
  have hnull : (⟨[], .null⟩ : Thread N V).Runs (.insert key w) := runs_plain trivial
  have hhelp : ∀ {f} {pc : Pc N V}, pc.Runs (.insert key w) →
      (⟨[f], pc⟩ : Thread N V).Runs (.insert key w) := fun h => ⟨h, fun h => by cases h⟩
  cases pc with
  | initSucc | initBacklink | initKey | initVal | store => exact hrun _
  | free => exact hret _
  | checkFirst | checkAgain =>
    intro k
    by_cases hk : k = key <;> simp only [hk, if_true, if_false] <;>
      first | exact hrun _ | exact hret _
  | alloc =>
    intro n
    cases n
    · exact hret _
    · exact hrun _
  | backlink =>
    intro n
    cases n
    · exact hnull
    · exact hrun _
  | load =>
    intro r
    cases hf : r.flagged <;> cases hn : r.node <;> simp only [hf, hn]
    · exact hrun _
    · exact hrun _
    · exact hnull
    · exact hhelp ⟨w, rfl⟩
  | cas => exact fun ok => of_cond ok (hret _) (hrun _)
  | marked => exact fun r => of_cond _ (hrun _) (runs_plain ⟨w, rfl⟩)
  | result =>
    intro r
    cases hf : r.isFlag <;> cases hn : r.node <;> simp only [hf, hn]
    · exact hrun _
    · exact hrun _
    · exact hnull
    · exact hhelp ⟨w, rfl⟩

omit [DecidableEq N] in
lemma tryFlag_runs {same : N → N → Bool} {key : ℤ} {val w : Bool} {prev target : N}
    (pc : TryFlagPc) : (tryFlag same key val prev target pc : Cmd N V (Thread N V)).All
      (Thread.Runs (.delete key w)) := by
  have hrun : ∀ prev pc,
      (⟨[], .tryFlag key val prev target pc⟩ : Thread N V).Runs (.delete key w) := fun prev pc =>
    runs_plain ⟨w, rfl⟩
  have hflag : ∀ deleted,
      (flagged key val prev target deleted : Thread N V).Runs (.delete key w) := fun deleted => by
    refine ⟨?_, fun h => by cases h⟩
    cases deleted
    · trivial
    · exact ⟨w, rfl⟩
  cases pc with
  | testNode | testMarked | marked => exact fun r => of_cond _ (hrun _ _) (hrun _ _)
  | testFlagged | cas | result => exact fun r => of_cond _ (hflag _) (hrun _ _)
  | backlink =>
    intro b
    cases b
    · exact runs_plain trivial
    · exact hrun _ _
  | key => exact fun k => runs_plain ⟨w, rfl⟩

omit [DecidableEq N] in
lemma runs_step {same : N → N → Bool} (h : th.Runs op) (hcmd : th.cmd same = some cmd) :
    cmd.All (Thread.Runs op) := by
  obtain ⟨helps, pc⟩ := th
  obtain ⟨hpc, hhelps⟩ := h
  cases helps with
  | cons f fs =>
    cases hcmd
    have hop : op.helps = true := by
      by_contra hno
      have := hhelps (by simpa using hno)
      simp at this
    refine Cmd.all_map.mpr (Cmd.all_of_forall (fun r => ?_) _)
    cases r with
    | none => exact runs_plain trivial
    | some gs => exact ⟨hpc, fun hno => by simp [hop] at hno⟩
  | nil =>
    cases pc with
    | idle | returned | null => cases hcmd
    | searchFrom ctx key pc =>
      cases hcmd
      refine Cmd.all_map.mpr (Cmd.all_of_forall (fun r => ?_) _)
      cases r with
      | null => exact runs_plain trivial
      | more pc' => exact runs_plain (by cases ctx <;> exact hpc)
      | ret curr next =>
        cases ctx with
        | tryFlag k val target =>
          cases hsame : same next target <;> simp only [found, hsame]
          · exact runs_plain trivial
          · exact runs_plain hpc
        | _ => exact runs_plain hpc
    | insert key val pc =>
      obtain ⟨w, rfl⟩ := hpc
      cases hcmd
      exact listInsert_runs pc
    | tryFlag key val prev target pc =>
      obtain ⟨w, rfl⟩ := hpc
      cases hcmd
      exact tryFlag_runs pc
    | delete key val del pc =>
      cases hcmd
      cases pc with
      | check prev =>
        intro k
        by_cases hk : k = key <;> simp only [hk, if_true, if_false]
        · exact runs_plain hpc
        · exact runs_plain trivial
      | read pc =>
        refine Cmd.all_map.mpr (Cmd.all_of_forall (fun r => ?_) _)
        cases r <;> exact runs_plain hpc
      | free v => exact runs_plain trivial
    | searchCheck key val curr =>
      cases hcmd
      intro k
      by_cases hk : k = key <;> simp only [hk, if_true, if_false]
      · exact of_cond _ (runs_plain hpc) (runs_plain trivial)
      · exact runs_plain trivial
    | searchRead key target pc =>
      cases hcmd
      refine Cmd.all_map.mpr (Cmd.all_of_forall (fun r => ?_) _)
      cases r
      · exact runs_plain hpc
      · exact runs_plain trivial
    | updateCheck key val curr =>
      cases hcmd
      intro k
      by_cases hk : k = key <;> simp only [hk, if_true, if_false]
      · exact runs_plain hpc
      · exact runs_plain trivial
    | updateWrite key val target pc =>
      cases hcmd
      refine Cmd.all_map.mpr (Cmd.all_of_forall (fun r => ?_) _)
      cases r
      · exact runs_plain trivial
      · exact runs_plain hpc

/-! ### What a call has met -/

/-- The nodes a search has come by were on the list during the search. -/
def SearchMet (met : N → Prop) (mem : N → Node N V) : SearchPc N → Prop
  | .differs curr _ => met curr ∧ (mem curr).succ.marked = true
  | .advance curr next => met curr ∧ met next
  | .load curr | .reload curr | .testKey curr _ | .nextMarked curr _ | .currMarked curr _
  | .agrees curr _ | .helpMarked curr _ _ => met curr

/-- What a place of a call says about the values on the list since the call was made. -/
def Pc.Knows (recent : List (LinkState N V × LinkAct N V)) (s : LinkState N V) (op : Op V) :
    Pc N V → Prop
  | .searchFrom (.search _) _ pc => SearchMet (Met recent s) s.node pc
  | .searchCheck _ _ curr => Met recent s curr
  | .searchRead key target pc => Met recent s target ∧ (s.node target).key = key ∧
      ∀ v, pc = .sub v → linkMachine.WasStored recent s key v
  | .delete key _ del (.read pc) => Met recent s del ∧ (s.node del).key = key ∧
      ∀ v, pc = .sub v → linkMachine.Removed recent key v
  | .delete key _ _ (.free v) => ∀ w, v = some w → linkMachine.Removed recent key w
  | .updateWrite key _ target _ => target ∈ s.linked ∧ (s.node target).key = key
  | .returned r => ∀ v, r = .ok (some v) →
      (∀ key val, op = .search key val → linkMachine.WasStored recent s key v) ∧
      ∀ key val, op = .delete key val → linkMachine.Removed recent key v
  | _ => True

lemma wasStored_cons {key : ℤ} {v : Option V} (h : linkMachine.WasStored recent s key v) :
    linkMachine.WasStored ((s, a) :: recent) s' key v := by
  rcases h with h | ⟨x, hx, h⟩
  · exact .inr ⟨(s, a), by simp, h⟩
  · exact .inr ⟨x, by simp [hx], h⟩

lemma removed_cons {key : ℤ} {v : Option V} (h : linkMachine.Removed recent key v) :
    linkMachine.Removed ((s, a) :: recent) key v := by
  obtain ⟨x, hx, h⟩ := h
  exact ⟨x, by simp [hx], h⟩

lemma Pc.Knows.cons {pc : Pc N V} (hseg : Segment recent s)
    (hev : Evolves s.node s.linked s'.node s'.linked) (h : pc.Knows recent s op) :
    pc.Knows ((s, a) :: recent) s' op := by
  have hkey : ∀ {n key}, n ∈ s.linked → (s.node n).key = key → (s'.node n).key = key :=
    fun hn hk => (hev.key _ hn).trans hk
  cases pc with
  | searchFrom ctx key pc =>
    cases ctx with
    | search val =>
      cases pc with
      | differs curr next =>
        obtain ⟨hmet, hm⟩ := h
        exact ⟨hmet.cons, hev.marked (hseg.linked _ hmet) hm⟩
      | advance curr next => exact ⟨h.1.cons, h.2.cons⟩
      | _ => exact Met.cons h
    | _ => trivial
  | searchCheck => exact Met.cons h
  | searchRead key target pc =>
    obtain ⟨hmet, hk, hv⟩ := h
    exact ⟨hmet.cons, hkey (hseg.linked _ hmet) hk, fun v hpc => wasStored_cons (hv v hpc)⟩
  | delete key val del pc =>
    cases pc with
    | check => trivial
    | read pc =>
      obtain ⟨hmet, hk, hv⟩ := h
      exact ⟨hmet.cons, hkey (hseg.linked _ hmet) hk, fun v hpc => removed_cons (hv v hpc)⟩
    | free v => exact fun w hw => removed_cons (h w hw)
  | updateWrite key val target pc => exact ⟨hev.grows _ h.1, hkey h.1 h.2⟩
  | returned r =>
    exact fun v hr => ⟨fun key val hop => wasStored_cons ((h v hr).1 key val hop),
      fun key val hop => removed_cons ((h v hr).2 key val hop)⟩
  | _ => trivial

lemma Segment.wasStored (hseg : Segment recent s) (hn : Met recent s n) :
    linkMachine.WasStored recent s (s.node n).key (s.node n).val := by
  rcases hseg.kept n hn with hlive | ⟨x, hx, u, -, hin, -, hk, hv⟩
  · exact .inl ⟨n, hlive, rfl, rfl⟩
  · exact .inr ⟨x, hx, n, hin, hk, hv⟩

lemma Segment.removed (h : LinkInv s c) (hseg : Segment recent s) (hn : Met recent s n)
    (hm : (s.node n).succ.marked = true) :
    linkMachine.Removed recent (s.node n).key (s.node n).val := by
  rcases hseg.kept n hn with hlive | ⟨x, hx, u, hu, hin, hout, hk, hv⟩
  · have := (h.alive_iff.mp hlive).2
    simp [hm] at this
  · exact ⟨x, hx, u, n, hu, hin, hout, hk, hv⟩

lemma head_alive (h : LinkInv s c) : linkMachine.Alive s s.head :=
  h.alive_iff.mpr ⟨h.chained.sub _ h.chained.head_mem, h.chained.head_unmarked⟩

variable {weak : Bool} {fresh : Option N}

lemma search_knows {val : Bool} {key : ℤ} {pc : SearchPc N} (h : LinkInv s c)
    (hseg : Segment recent s) (hok : SearchOk s.node s.linked key pc)
    (hmet : SearchMet (Met recent s) s.node pc)
    (hcmd : (Pc.searchFrom (.search val) key pc).cmd (· == ·) = some cmd) :
    (s.exec weak fresh cmd).2.pc.Knows recent s op := by
  cases pc with
  | load curr | reload curr =>
    cases hcmd
    simp only [searchFrom, Cmd.map, LinkState.exec, Function.comp]
    cases (s.node curr).succ.node with
    | none => trivial
    | some n => exact hmet
  | testKey curr next =>
    cases hcmd
    simp only [searchFrom, Cmd.map, LinkState.exec, Function.comp]
    split_ifs <;> exact hmet
  | nextMarked curr next =>
    cases hcmd
    simp only [searchFrom, Cmd.map, LinkState.exec, Function.comp]
    cases hm : (s.node next).succ.marked with
    | true => exact hmet
    | false => exact ⟨hmet, .inl (h.alive_iff.mpr ⟨hok.2, hm⟩)⟩
  | currMarked curr next =>
    cases hcmd
    simp only [searchFrom, Cmd.map, LinkState.exec, Function.comp]
    cases hm : (s.node curr).succ.marked with
    | true => exact ⟨hmet, hm⟩
    | false => exact hmet
  | differs curr next =>
    cases hcmd
    obtain ⟨hcurr, hm⟩ := hmet
    simp only [searchFrom, Cmd.map, LinkState.exec, Function.comp]
    cases hn : isNode (· == ·) (s.node curr).succ.node next with
    | false => exact hcurr
    | true =>
      -- the word of a marked node leads to a node that was on the list with it
      have hnext : (s.node curr).succ.node = some next := by
        obtain ⟨x, hx, heq⟩ := (Option.any_eq_true _ _).mp hn
        rw [hx, eq_of_beq heq]
      exact ⟨hcurr, hseg.after curr next hcurr hm hnext⟩
  | agrees curr next =>
    cases hcmd
    simp only [searchFrom, Cmd.map, LinkState.exec, Function.comp]
    cases isNode (· == ·) (s.node curr).succ.node next <;> exact hmet
  | helpMarked curr next pc =>
    cases hcmd
    refine (Cmd.all_map (P := fun th : Thread N V => th.pc.Knows recent s op).mpr
      (Cmd.all_map.mpr (Cmd.all_of_forall (fun r => ?_) _))).exec weak fresh
    cases r <;> exact hmet
  | advance curr next =>
    cases hcmd
    simp only [searchFrom, Cmd.map, LinkState.exec, Function.comp]
    split_ifs
    · exact hmet.2
    · exact hmet.1

omit [DecidableEq N] in
lemma listInsert_knows {P : Pc N V → Prop} {key : ℤ} {val : V} (pc : InsertPc N)
    (hinsert : ∀ pc, P (.insert key val pc)) (hnull : P .null)
    (hsearch : ∀ node pc, P (.searchFrom (.insertAgain val node) key pc))
    (hret : ∀ r : Res V, (∀ v, r ≠ .ok (some v)) → P (.returned r)) :
    (listInsert key val pc : Cmd N V (Thread N V)).All fun th => P th.pc := by
  have hcond : ∀ (b : Bool) {th th' : Thread N V}, P th.pc → P th'.pc →
      P (bif b then th else th').pc := of_cond (P := fun th : Thread N V => P th.pc)
  cases pc with
  | initSucc | initBacklink | initKey | initVal | store => exact hinsert _
  | free => exact hret _ (by simp)
  | checkFirst | checkAgain =>
    intro k
    by_cases hk : k = key <;> simp only [hk, if_true, if_false] <;>
      first | exact hinsert _ | exact hret _ (by simp)
  | alloc =>
    intro n
    cases n
    · exact hret _ (by simp)
    · exact hinsert _
  | backlink =>
    intro n
    cases n
    · exact hnull
    · exact hinsert _
  | load | result =>
    intro r
    cases hf : r.flagged <;> cases hm : r.marked <;> cases hn : r.node <;>
      simp only [hf, hm, hn, Ref.isFlag, Bool.not_true, Bool.not_false, Bool.and_true,
        Bool.and_false, cond_true, cond_false] <;>
      first | exact hinsert _ | exact hnull | exact hsearch _ _
  | cas => exact fun ok => hcond ok (hret _ (by simp)) (hinsert _)
  | marked => exact fun r => hcond _ (hinsert _) (hsearch _ _)

omit [DecidableEq N] in
lemma knows_failed {r : Res V} [DecidableEq N] (h : ∀ v, r ≠ .ok (some v)) :
    (Pc.returned r : Pc N V).Knows recent s op := fun v hr => absurd hr (h v)

lemma tryFlag_knows {key : ℤ} {val : Bool} {prev target : N} {pc : TryFlagPc} (h : LinkInv s c)
    (hok : PcOk s.node s.linked s.used (.tryFlag key val prev target pc : Pc N V))
    (hcmd : (Pc.tryFlag key val prev target pc).cmd (· == ·) = some cmd) :
    (s.exec weak fresh cmd).2.pc.Knows recent s op := by
  have hcond : ∀ (b : Bool) {th th' : Thread N V}, th.pc.Knows recent s op →
      th'.pc.Knows recent s op → (bif b then th else th').pc.Knows recent s op :=
    of_cond (P := fun th : Thread N V => th.pc.Knows recent s op)
  have hfail : (flagged key val prev target false : Thread N V).pc.Knows recent s op :=
    knows_failed (by simp)
  cases pc with
  | testNode | testMarked | marked =>
    cases hcmd
    exact hcond _ trivial trivial
  | testFlagged | result =>
    cases hcmd
    exact hcond _ hfail trivial
  | cas =>
    cases hcmd
    cases hcas : s.casOk weak (tryFlag (V := V) (· == ·) key val prev target .cas) with
    | false =>
      simp only [tryFlag] at hcas
      simp only [tryFlag, LinkState.exec, hcas, cond_false]
      trivial
    | true =>
      simp only [tryFlag] at hcas
      simp only [tryFlag, LinkState.exec, hcas, cond_true]
      obtain ⟨-, -, hp, ht, hk, -⟩ := hok
      have hword : (s.node prev).succ = getUnflaggedRef (some target) := by
        simp only [LinkState.casOk, Bool.and_eq_true, decide_eq_true_eq] at hcas
        exact hcas.2
      have hlive : linkMachine.Alive s target :=
        marks_next h hp.1 (by simp [hword]) (by simp [hword]) (by simp [hword])
      cases val with
      | true => exact ⟨.inl hlive, hk, fun v hv => by cases hv⟩
      | false => exact fun w hw => by cases hw
  | backlink =>
    cases hcmd
    simp only [tryFlag, LinkState.exec]
    cases (s.node prev).backlink <;> trivial
  | key =>
    cases hcmd
    trivial

lemma knows_step (h : LinkInv s c) (hseg : Segment recent s)
    (hok : ThreadOk s.node s.linked s.used th) (hdel : DeleteOk s.node s.linked th)
    (hruns : th.Runs op) (hknows : th.pc.Knows recent s op)
    (hcmd : th.cmd (· == ·) = some cmd) : (s.exec weak fresh cmd).2.pc.Knows recent s op := by
  have hall : cmd.All (fun th => th.pc.Knows recent s op) →
      (s.exec weak fresh cmd).2.pc.Knows recent s op := fun hall => hall.exec weak fresh
  have hnone : (Pc.returned (.ok none) : Pc N V).Knows recent s op := knows_failed (by simp)
  have hfail : ∀ e, (Pc.returned (.fail e) : Pc N V).Knows recent s op := fun e =>
    knows_failed (by simp)
  obtain ⟨helps, pc⟩ := th
  have hok := hok.pc
  cases helps with
  | cons f fs =>
    rcases (helps_all hcmd).exec (s := s) weak fresh with hsame | hnull
    · rw [hsame]
      exact hknows
    · rw [hnull]
      trivial
  | nil =>
    have hcmd : pc.cmd (· == ·) = some cmd := hcmd
    have hruns := hruns.pc
    cases pc with
    | idle | returned | null => cases hcmd
    | searchFrom ctx key pc =>
      cases ctx with
      | search val => exact search_knows h hseg hok.2.2.1 hknows hcmd
      | tryFlag k val target =>
        cases hcmd
        refine hall (Cmd.all_map.mpr (Cmd.all_of_forall (fun r => ?_) _))
        cases r with
        | ret curr next =>
          cases hsame : next == target <;> simp only [found, hsame]
          · exact hfail _
          · trivial
        | _ => trivial
      | _ =>
        cases hcmd
        refine hall (Cmd.all_map.mpr (Cmd.all_of_forall (fun r => ?_) _))
        cases r <;> trivial
    | insert key val pc =>
      cases hcmd
      exact hall (listInsert_knows pc (fun _ => trivial) trivial (fun _ _ => trivial)
        fun _ => knows_failed)
    | tryFlag key val prev target pc => exact tryFlag_knows h hok hcmd
    | delete key val del pc =>
      cases hcmd
      cases pc with
      | check prev =>
        refine hall fun k => ?_
        by_cases hk : k = key <;> simp only [hk, if_true, if_false]
        · trivial
        · exact hfail _
      | read pc =>
        obtain ⟨hmet, hk, hv⟩ := hknows
        have hgone := hdel.gone (d := del) rfl
        cases pc with
        | load =>
          refine hall fun r => ?_
          simp only [Function.comp]
          split_ifs <;> exact ⟨hmet, hk, fun v hv => by cases hv⟩
        | cas orig =>
          refine hall fun ok => ?_
          cases ok <;> exact ⟨hmet, hk, fun v hv => by cases hv⟩
        | copy =>
          refine ⟨hmet, hk, fun v hv => ?_⟩
          obtain rfl : (s.node del).val = v := by simpa using hv
          rw [← hk]
          exact hseg.removed h hmet hgone.marked
        | sub v =>
          refine fun w hw => ?_
          obtain rfl : v = w := by simpa using hw
          exact hv v rfl
      | free v =>
        obtain ⟨w, rfl⟩ := hruns
        refine fun v' hv' => ⟨fun key' val' hop => (by cases hop), fun key' val' hop => ?_⟩
        cases hop
        exact hknows v' (by simpa using hv')
    | searchCheck key val curr =>
      cases hcmd
      simp only [LinkState.exec]
      split_ifs with hk
      · cases val with
        | true => exact ⟨hknows, hk, fun v hv => by cases hv⟩
        | false => exact hnone
      · exact hfail _
    | searchRead key target pc =>
      cases hcmd
      obtain ⟨hmet, hk, hv⟩ := hknows
      cases pc with
      | load =>
        refine hall fun r => ?_
        simp only [Function.comp]
        split_ifs <;> exact ⟨hmet, hk, fun v hv => by cases hv⟩
      | cas orig =>
        refine hall fun ok => ?_
        cases ok <;> exact ⟨hmet, hk, fun v hv => by cases hv⟩
      | copy =>
        refine ⟨hmet, hk, fun v hv => ?_⟩
        obtain rfl : (s.node target).val = v := by simpa using hv
        rw [← hk]
        exact hseg.wasStored hmet
      | sub v =>
        obtain ⟨w, rfl⟩ := hruns
        refine fun v' hv' => ⟨fun key' val' hop => ?_, fun key' val' hop => by cases hop⟩
        cases hop
        obtain rfl : v = v' := by simpa using hv'
        exact hv v rfl
    | updateCheck key val curr =>
      cases hcmd
      simp only [LinkState.exec]
      split_ifs with hk
      · exact ⟨hok, hk⟩
      · exact hfail _
    | updateWrite key val target pc =>
      cases hcmd
      refine hall (Cmd.all_map.mpr (Cmd.all_of_forall (fun r => ?_) _))
      cases r
      · exact hnone
      · exact hknows

end CoopTasks.LockFreeList
