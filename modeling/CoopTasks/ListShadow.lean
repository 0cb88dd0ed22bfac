import CoopTasks.ListHistory
import CoopTasks.ListReuse

/-!
A list whose nodes are used again, seen as one whose nodes are not.

As long as no stale pointer is used, its steps are those of a list that has a node for each
allocation. A node that is being initialised agrees only in what has been written to it.
-/

namespace CoopTasks.LockFreeList

open CoopTasks.Machine ListMachine

variable {N A V R S : Type*}

/-! ### Accesses -/

lemma Ref.agrees_samePtr [DecidableEq A] (r r' : Ref (A × ℕ)) :
    r.agrees samePtr r' = decide (r = r') := by
  obtain ⟨n, m, f⟩ := r
  obtain ⟨n', m', f'⟩ := r'
  cases n <;> cases n' <;> simp [Ref.agrees, samePtr, Bool.and_comm, Bool.beq_eq_decide_eq]

lemma Cmd.node_map {f : R → S} (cmd : Cmd N V R) : (cmd.map f).node = cmd.node := by
  cases cmd <;> rfl

lemma cmd_access (same same' : N → N → Bool) (th : Thread N V) :
    (th.cmd same).map (Cmd.map fun _ => ()) = (th.cmd same').map (Cmd.map fun _ => ()) := by
  obtain ⟨helps, pc⟩ := th
  cases helps with
  | cons f fs => rfl
  | nil =>
    cases pc with
    | searchFrom ctx key pc =>
      cases pc with
      | helpMarked curr next pc => cases pc <;> rfl
      | _ => rfl
    | tryFlag key val prev target pc => cases pc <;> rfl
    | _ => rfl

lemma cmd_same {same : N → N → Bool} {th : Thread N V} {cmd : Cmd N V (Thread N V)}
    (h : th.cmd same = some cmd) (same' : N → N → Bool) : ∃ cmd', th.cmd same' = some cmd' ∧
      (cmd.map fun _ => ()) = cmd'.map fun _ => () := by
  have hsame := cmd_access same same' th
  rw [h] at hsame
  obtain ⟨cmd', hcmd', heq⟩ := Option.map_eq_some_iff.mp hsame.symm
  exact ⟨cmd', hcmd', heq.symm⟩

namespace ReuseState

variable [DecidableEq A] {s : ReuseState A V} {ok : Bool} {junk : A → Ref (A × ℕ)}

lemma write_map {f : R → S} (cmd : Cmd (A × ℕ) V R) :
    s.write ok junk (cmd.map f) = s.write ok junk cmd := by
  cases cmd <;> rfl

lemma write_congr {cmd cmd' : Cmd (A × ℕ) V R}
    (h : (cmd.map fun _ => ()) = cmd'.map fun _ => ()) :
    s.write ok junk cmd = s.write ok junk cmd' := by
  rw [← write_map (f := fun _ => ()) cmd, h, write_map]

end ReuseState

/-! ### The shadow -/

/-- The node that `list_alloc_node` has not written all of. -/
def Thread.raw (th : Thread N V) : Option N :=
  match th.helps, th.pc with
  | [], .insert _ _ (.initSucc _ _ n) | [], .insert _ _ (.initBacklink _ _ n)
  | [], .insert _ _ (.initKey _ _ n) | [], .insert _ _ (.initVal _ _ n) => some n
  | _, _ => none

/-- What has been written of a node agrees. -/
def Thread.Written (th : Thread N V) (x y : Node N V) : Prop :=
  match th.pc with
  | .insert _ _ (.initSucc _ _ _) => True
  | .insert _ _ (.initBacklink _ _ _) => x.succ = y.succ
  | .insert _ _ (.initKey _ _ _) => x.succ = y.succ ∧ x.backlink = y.backlink
  | .insert _ _ (.initVal _ _ _) => x.succ = y.succ ∧ x.backlink = y.backlink ∧ x.key = y.key
  | _ => x = y

lemma Thread.written_self (th : Thread N V) (x : Node N V) : th.Written x x := by
  unfold Thread.Written
  split <;> simp

lemma raw_holds {th : Thread N V} {n : N} (h : th.raw = some n) : th.pc.holds = some n := by
  unfold Thread.raw at h
  split at h <;> cases h <;> rename_i hpc <;> rw [hpc] <;> rfl

/-- A list that has a node for each allocation. -/
structure Shadow (s : ReuseState A V) (u : LinkState (A × ℕ) V) : Prop where
  head : u.head = s.head
  tail : u.tail = s.tail
  readers : u.readers = s.readers
  threads : u.threads = s.threads
  node : ∀ n ∈ s.live, (∀ t, (s.threads t).raw ≠ some n) → u.node n = s.mem n.1
  written : ∀ t n, (s.threads t).raw = some n → (s.threads t).Written (u.node n) (s.mem n.1)
  used : ∀ n ∈ s.live, n ∈ u.used
  count : ∀ n ∈ u.used, n.2 < s.count
  addr : (s.live.map Prod.fst ++ s.free).Nodup
  held : ∀ t n, (s.threads t).pc.holds = some n → n ∈ s.live
  gone : ∀ n ∈ u.linked, n ∉ s.live → Gone u.node u.linked n

variable {s s' : ReuseState A V} {u u' : LinkState (A × ℕ) V} {c c' : List (A × ℕ)} {n m : A × ℕ}
  {t : ℕ}

lemma Shadow.addr_inj (h : Shadow s u) (hn : n ∈ s.live) (hm : m ∈ s.live) (ha : n.1 = m.1) :
    n = m :=
  List.inj_on_of_nodup_map h.addr.of_append_left hn hm ha

lemma Shadow.not_free (h : Shadow s u) (hn : n ∈ s.live) : n.1 ∉ s.free := fun hf =>
  List.disjoint_of_nodup_append h.addr (List.mem_map_of_mem hn) hf

lemma Shadow.linked_node (h : Shadow s u) (hI : LinkInv u c) (hn : n ∈ u.linked)
    (hl : n ∈ s.live) : u.node n = s.mem n.1 :=
  h.node n hl fun t ht => by
    rw [← h.threads] at ht
    exact ((hI.threads t).pc.holds_fresh (raw_holds ht)).2 hn

variable [DecidableEq A]

lemma Shadow.chain_live (h : Shadow s u) (hI : LinkInv u c) (hn : n ∈ c) : n ∈ s.live := by
  by_contra hl
  exact (h.gone n (hI.chained.sub n hn) hl).not_mem hI.chained hn

lemma Shadow.mirrors (h : Shadow s u) (hI : LinkInv u c) :
    Mirrors reuseMachine linkMachine s u := by
  have hnode : ∀ n ∈ c, u.node n = s.mem n.1 := fun n hn =>
    h.linked_node hI (hI.chained.sub n hn) (h.chain_live hI hn)
  have hchain : s.chain = c := by
    refine follow_eq (m := s.tail) ?_ ?_ ?_ ?_ ?_
    · refine hI.chained.path.imp_of_mem_imp fun a b ha _ hs => ?_
      rw [← hnode a ha]
      exact hs
    · rw [← h.head]
      exact hI.chained.first
    · rw [← h.tail]
      exact hI.chained.last
    · rw [← h.tail, ← hnode _ hI.chained.tail_mem]
      simp [hI.chained.tail_succ]
    · exact hI.chained.nodup.length_le_of_subset fun n hn => h.chain_live hI hn
  have hlink : u.chain = c := hI.chain_eq
  refine ⟨hchain.trans hlink.symm, fun n hn => ?_, h.threads.symm⟩
  have hn : n ∈ s.chain := hn
  rw [hchain] at hn
  exact (hnode n hn).symm

/-! ### What a thread accesses -/

/-- An access to the pool. -/
def Cmd.pool : Cmd N V R → Bool
  | .alloc _ | .free _ _ => true
  | _ => false

lemma Cmd.pool_map {f : R → S} (cmd : Cmd N V R) : (cmd.map f).pool = cmd.pool := by
  cases cmd <;> rfl

lemma pool_cases {same : N → N → Bool} {th : Thread N V} {cmd : Cmd N V (Thread N V)}
    (hcmd : th.cmd same = some cmd) (hp : cmd.pool = true) :
    (∃ key val prev next, th = ⟨[], .insert key val (.alloc prev next)⟩) ∨
      (∃ key val n, th = ⟨[], .insert key val (.free n)⟩) ∨
      ∃ key val n v, th = ⟨[], .delete key val n (.free v)⟩ := by
  obtain ⟨helps, pc⟩ := th
  cases helps with
  | cons f fs =>
    cases hcmd
    obtain ⟨prev, del, pc⟩ := f
    rw [Cmd.pool_map] at hp
    cases pc with
    | tryMark pc => cases pc <;> cases hp
    | helpMarked pc => cases pc <;> cases hp
    | _ => cases hp
  | nil =>
    cases pc with
    | idle | returned | null => cases hcmd
    | searchFrom ctx key pc =>
      cases hcmd
      rw [Cmd.pool_map] at hp
      cases pc with
      | helpMarked curr next pc => cases pc <;> cases hp
      | _ => cases hp
    | insert key val pc =>
      cases hcmd
      cases pc with
      | alloc prev next => exact .inl ⟨_, _, _, _, rfl⟩
      | free n => exact .inr (.inl ⟨_, _, _, rfl⟩)
      | _ => cases hp
    | tryFlag key val prev target pc =>
      cases hcmd
      cases pc <;> cases hp
    | delete key val del pc =>
      cases hcmd
      cases pc with
      | check => cases hp
      | read pc => cases pc <;> cases hp
      | free v => exact .inr (.inr ⟨_, _, _, _, rfl⟩)
    | searchCheck | updateCheck =>
      cases hcmd
      cases hp
    | searchRead key target pc =>
      cases hcmd
      cases pc <;> cases hp
    | updateWrite key val target pc =>
      cases hcmd
      cases pc <;> cases hp

variable {moves : List (LinkState N V × LinkAct N V)}

/-- What a thread accesses is linked, or the node it holds. -/
lemma History.accessed [DecidableEq N] {u : LinkState N V} {n : N} (h : History moves u)
    {cmd : Cmd N V (Thread N V)} (hcmd : (u.threads t).cmd (· == ·) = some cmd)
    (hn : cmd.node = some n) : n ∈ u.linked ∨ (u.threads t).pc.holds = some n := by
  obtain ⟨c, hI⟩ := h.link
  have hok := hI.threads t
  have hdel := h.deletes t
  have hmet : ∀ {op recent n'}, linkMachine.Since moves t op recent → Met recent u n' →
      n' ∈ u.linked := fun hsince hmet => by
    obtain ⟨x, earlier, hmoves, -⟩ := hsince
    exact (h.segments _ _ hmoves).linked _ hmet
  have hcalled := h.called t
  have hthreads := h.threads t
  rcases hth : u.threads t with ⟨helps, pc⟩
  rw [hth] at hcmd hok hdel hcalled hthreads
  cases helps with
  | cons f fs =>
    cases hcmd
    have hf := hok.helps f (by simp)
    obtain ⟨prev, del, pc⟩ := f
    rw [Cmd.node_map] at hn
    cases pc with
    | backlink | test => obtain rfl := Option.some.inj hn; exact .inl hf.del
    | tryMark pc => cases pc <;> obtain rfl := Option.some.inj hn <;> exact .inl hf.del
    | helpMarked pc =>
      cases pc <;> obtain rfl := Option.some.inj hn
      · exact .inl hf.del
      · exact .inl hf.prev
  | nil =>
    have hpc := hok.pc
    cases pc with
    | idle | returned | null => cases hcmd
    | searchFrom ctx key pc =>
      cases hcmd
      rw [Cmd.node_map] at hn
      have hs := hpc.2.2.1
      cases pc with
      | load | reload => obtain rfl := Option.some.inj hn; exact .inl hs.1
      | testKey | nextMarked | advance => obtain rfl := Option.some.inj hn; exact .inl hs.2
      | currMarked | differs | agrees => obtain rfl := Option.some.inj hn; exact .inl hs.1.1
      | helpMarked curr next pc =>
        cases pc <;> obtain rfl := Option.some.inj hn
        · exact .inl hs.2.1
        · exact .inl hs.1.1
    | insert key val pc =>
      cases hcmd
      have hi := hpc.2.2
      cases pc with
      | alloc => cases hn
      | initSucc | initBacklink | initKey | initVal | store | free =>
        obtain rfl := Option.some.inj hn
        exact .inr rfl
      | _ => obtain rfl := Option.some.inj hn; exact .inl hi.1.1
    | tryFlag key val prev target pc =>
      cases hcmd
      cases pc with
      | key => obtain rfl := Option.some.inj hn; exact .inl hpc.2.2.2.1
      | _ => obtain rfl := Option.some.inj hn; exact .inl hpc.2.2.1.1
    | delete key val del pc =>
      cases hcmd
      cases pc with
      | check prev => obtain rfl := Option.some.inj hn; exact .inl hpc.2.2.2
      | free v => obtain rfl := Option.some.inj hn; exact .inl (hdel.gone (d := del) rfl).known
      | read pc =>
        have hknown := (hdel.gone (d := del) rfl).known
        cases pc with
        | copy => obtain rfl := Option.some.inj hn; exact .inl hknown
        | _ => cases hn
    | searchCheck key val curr =>
      cases hcmd
      obtain rfl := Option.some.inj hn
      obtain ⟨op, recent, hsince⟩ := hcalled rfl
      exact .inl (hmet hsince (hthreads op recent hsince).2)
    | searchRead key target pc =>
      cases hcmd
      obtain ⟨op, recent, hsince⟩ := hcalled rfl
      have hlinked := hmet hsince (hthreads op recent hsince).2.1
      cases pc with
      | copy => obtain rfl := Option.some.inj hn; exact .inl hlinked
      | _ => cases hn
    | updateCheck key val curr =>
      cases hcmd
      obtain rfl := Option.some.inj hn
      exact .inl hpc
    | updateWrite key val target pc =>
      cases hcmd
      cases pc with
      | copy => obtain rfl := Option.some.inj hn; exact .inl hpc
      | _ => cases hn

/-! ### One access of both -/

section Access

variable {weak ok : Bool} {junk : A → Ref (A × ℕ)} {fresh : Option (A × ℕ)}
  {cmd : Cmd (A × ℕ) V R}

lemma exec_node_ne (hn : cmd.node ≠ some m) : (u.exec weak fresh cmd).1.node m = u.node m := by
  have hne : ∀ {n}, cmd.node = some n → m ≠ n := fun h heq => hn (heq ▸ h)
  cases cmd with
  | cas n exp new k =>
    cases hok : u.casOk weak (.cas n exp new k) <;>
      simp only [LinkState.exec, hok, cond_false, cond_true]
    exact setSucc_ne (hne rfl)
  | store n r k => exact setSucc_ne (hne rfl)
  | storeKey n key k => exact Function.update_of_ne (hne rfl) ..
  | storeBacklink n b k => exact Function.update_of_ne (hne rfl) ..
  | storeVal n v k => exact Function.update_of_ne (hne rfl) ..
  | casReaders exp new k =>
    cases hok : !weak && decide (u.readers = exp) <;> simp [LinkState.exec, hok]
  | _ => rfl

lemma write_mem_ne (hp : cmd.pool = false) (hn : ∀ n ∈ cmd.node, m.1 ≠ n.1) :
    (s.write ok junk cmd).mem m.1 = s.mem m.1 := by
  cases cmd with
  | alloc | free => cases hp
  | cas n exp new k =>
    cases ok
    · rfl
    · exact Function.update_of_ne (hn n rfl) ..
  | store n r k => exact Function.update_of_ne (hn n rfl) ..
  | storeKey n key k => exact Function.update_of_ne (hn n rfl) ..
  | storeBacklink n b k => exact Function.update_of_ne (hn n rfl) ..
  | storeVal n v k => exact Function.update_of_ne (hn n rfl) ..
  | casReaders => cases ok <;> rfl
  | _ => rfl

lemma exec_agrees (hp : cmd.pool = false) (hn : cmd.node = some m) (hm : u.node m = s.mem m.1) :
    (u.exec weak fresh cmd).1.node m =
      (s.write (s.casOk samePtr weak cmd) junk cmd).mem m.1 := by
  cases cmd with
  | alloc | free => cases hp
  | cas n exp new k =>
    obtain rfl := Option.some.inj hn
    have hsame : u.casOk weak (.cas n exp new k) = s.casOk samePtr weak (.cas n exp new k) := by
      simp only [LinkState.casOk, ReuseState.casOk, Ref.agrees_samePtr, hm]
    cases hok : s.casOk samePtr weak (.cas n exp new k) <;> rw [hok] at hsame <;>
      simp only [LinkState.exec, ReuseState.write, hsame, cond_false, cond_true]
    · exact hm
    · simp [setSucc, ReuseState.setNode, hm]
  | store n r k =>
    obtain rfl := Option.some.inj hn
    simp [LinkState.exec, ReuseState.write, setSucc, ReuseState.setNode, hm]
  | storeKey n key k =>
    obtain rfl := Option.some.inj hn
    simp [LinkState.exec, ReuseState.write, ReuseState.setNode, hm]
  | storeBacklink n b k =>
    obtain rfl := Option.some.inj hn
    simp [LinkState.exec, ReuseState.write, setBacklink, ReuseState.setNode, hm]
  | storeVal n v k =>
    obtain rfl := Option.some.inj hn
    simp [LinkState.exec, ReuseState.write, ReuseState.setNode, hm]
  | load | loadKey | loadBacklink | loadVal => obtain rfl := Option.some.inj hn; exact hm
  | loadReaders | casReaders | subReaders | initReaders => cases hn

lemma exec_answer (hn : ∀ n ∈ cmd.node, u.node n = s.mem n.1) (hr : u.readers = s.readers) :
    (u.exec weak s.fresh cmd).2 = s.answer (s.casOk samePtr weak cmd) cmd := by
  cases cmd with
  | cas n exp new k =>
    have hsame : u.casOk weak (.cas n exp new k) = s.casOk samePtr weak (.cas n exp new k) := by
      simp only [LinkState.casOk, ReuseState.casOk, Ref.agrees_samePtr, hn n rfl]
    cases hok : s.casOk samePtr weak (.cas n exp new k) <;> rw [hok] at hsame <;>
      simp [LinkState.exec, ReuseState.answer, hsame]
  | load n k => simp [LinkState.exec, ReuseState.answer, hn n rfl]
  | loadKey n k => simp [LinkState.exec, ReuseState.answer, hn n rfl]
  | loadBacklink n k => simp [LinkState.exec, ReuseState.answer, hn n rfl]
  | loadVal n k => simp [LinkState.exec, ReuseState.answer, hn n rfl]
  | loadReaders k => simp [LinkState.exec, ReuseState.answer, hr]
  | casReaders exp new k =>
    cases hok : !weak && decide (s.readers = exp) <;>
      simp [LinkState.exec, ReuseState.answer, ReuseState.casOk, hr, hok]
  | _ => rfl

lemma exec_readers (hr : u.readers = s.readers) : (u.exec weak fresh cmd).1.readers =
    (s.write (s.casOk samePtr weak cmd) junk cmd).readers := by
  cases cmd with
  | cas n exp new k =>
    cases hok : u.casOk weak (.cas n exp new k) <;>
      cases s.casOk samePtr weak (.cas n exp new k) <;>
      simp [LinkState.exec, ReuseState.write, ReuseState.setNode, hok, hr]
  | casReaders exp new k =>
    cases hok : !weak && decide (s.readers = exp) <;>
      simp [LinkState.exec, ReuseState.write, ReuseState.casOk, hr, hok]
  | alloc k => cases hf : s.fresh <;> simp [LinkState.exec, ReuseState.write, hf, hr]
  | subReaders k => simp [LinkState.exec, ReuseState.write, hr]
  | initReaders k => rfl
  | _ => exact hr

lemma write_fixed (ok : Bool) (junk : A → Ref (A × ℕ)) (hp : cmd.pool = false) :
    (s.write ok junk cmd).live = s.live ∧
    (s.write ok junk cmd).free = s.free ∧ (s.write ok junk cmd).count = s.count := by
  cases cmd with
  | alloc | free => cases hp
  | cas => cases ok <;> exact ⟨rfl, rfl, rfl⟩
  | casReaders => cases ok <;> exact ⟨rfl, rfl, rfl⟩
  | _ => exact ⟨rfl, rfl, rfl⟩

lemma write_ends (ok : Bool) (junk : A → Ref (A × ℕ)) (cmd : Cmd (A × ℕ) V R) :
    (s.write ok junk cmd).head = s.head ∧ (s.write ok junk cmd).tail = s.tail := by
  cases cmd with
  | alloc k => cases hf : s.fresh <;> simp [ReuseState.write, hf]
  | cas => cases ok <;> exact ⟨rfl, rfl⟩
  | casReaders => cases ok <;> exact ⟨rfl, rfl⟩
  | _ => exact ⟨rfl, rfl⟩

lemma exec_used (hp : cmd.pool = false) : (u.exec weak fresh cmd).1.used = u.used := by
  cases cmd with
  | alloc | free => cases hp
  | cas n exp new k =>
    cases hok : u.casOk weak (.cas n exp new k) <;> simp [LinkState.exec, hok]
  | casReaders exp new k =>
    cases hok : !weak && decide (u.readers = exp) <;> simp [LinkState.exec, hok]
  | _ => rfl

end Access

end CoopTasks.LockFreeList
