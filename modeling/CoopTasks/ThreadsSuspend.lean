import CoopTasks.ListClean
import CoopTasks.ListReaders
import CoopTasks.Machine

/-!
Suspending and resuming threads, and their names.

`thrd_suspend` sends `SIGURG`, and the thread that receives it waits in `internal_signaled` for
its semaphore. `thrd_resume` finds the semaphore in the list `tcbs`, by a search that takes part
in `readers` like any other: the word is shared by all lists of the process. The threads are
started, so `tcbs` keeps its nodes; the other lists may change in any way.
-/

namespace CoopTasks.ThreadsSuspend

open CoopTasks.LockFreeList CoopTasks.Machine CoopTasks.ReadersWriters

variable {N V S R : Type*} [DecidableEq N] [DecidableEq S]

/-- The bytes of a name. -/
abbrev Name := List UInt8

/-- `struct thread_control_block`, but for what these calls do not use; `suspend` is the address
of the semaphore. -/
structure Tcb (S : Type*) where
  thr : ℤ
  name : Name
  suspend : S
  deriving DecidableEq, Repr

/-- `strncpy` from a string into an array. -/
def strncpy (dst src : Name) (n : ℕ) : Name :=
  src.take n ++ List.replicate (n - src.length) 0 ++ dst.drop n

/-- `SEM_VALUE_MAX`. -/
def semValueMax : ℕ := 2 ^ 31 - 1

/-- The value of a semaphore after `sem_post`, which fails with `EOVERFLOW` at `SEM_VALUE_MAX`. -/
def semPost (value : ℕ) : ℕ := if value < semValueMax then value + 1 else value

lemma semPost_eq {value : ℕ} (h : value < semValueMax) : semPost value = value + 1 := if_pos h

lemma semPost_full {value : ℕ} (h : ¬ value < semValueMax) : semPost value = value := if_neg h

lemma semPost_pos (value : ℕ) : 0 < semPost value := by
  unfold semPost semValueMax
  split <;> omega

/-- A call; `list` is one of the list operations on another list. -/
inductive Call (N V : Type*)
  | setName (thr : ℤ) (name : Name)
  | getName (thr : ℤ) (len : ℕ)
  | suspend (thr : ℤ)
  | resume (thr : ℤ)
  | list (head : N) (op : Op V)

inductive Errno
  | enoent
  | ebade
  deriving DecidableEq, Repr

/-- What a call returns: 0, with the name that `thrd_get_name` stored, or -1. -/
inductive Ret
  | ok (name : Option Name)
  | fail (errno : Errno)
  deriving DecidableEq, Repr

/-- Where a thread stands; a call on `tcbs` is a thread of the list. `null` is the place before
something is used that was never written. -/
inductive Pc (N V S : Type*)
  | idle
  | returned (r : Ret)
  | null
  | list (th : Thread N V)
  | setNameSearch (thr : ℤ) (name : Name) (th : Thread N (Tcb S))
  | setNameUpdate (thr : ℤ) (th : Thread N (Tcb S))
  | getName (thr : ℤ) (len : ℕ) (th : Thread N (Tcb S))
  | suspend (thr : ℤ)
  | resume (thr : ℤ) (th : Thread N (Tcb S))
  | post (a : S)
  deriving DecidableEq, Repr

/-- The nodes of `tcbs` and of the other lists, the word `readers`, and the threads, named by
their `thrd_t`. `suspend` is the thread-local variable, `none` for a thread that `thrd_create`
did not start; `stopped` are the threads inside `internal_signaled`. -/
structure State (N V S : Type*) where
  tcbs : N → Node N (Tcb S)
  head : N
  node : N → Node N V
  readers : ℕ
  threads : ℤ → Pc N V S
  suspend : ℤ → Option S
  sem : S → ℕ
  pending : ℤ → Bool
  stopped : ℤ → Bool

def State.go (s : State N V S) (t : ℤ) (pc : Pc N V S) : State N V S :=
  { s with threads := Function.update s.threads t pc }

/-- Make one access to the nodes of lists and to `readers`; `fresh` is what an allocation
returns. -/
def access (node : N → Node N V) (readers : ℕ) (weak : Bool) (fresh : Option N)
    (cmd : Cmd N V R) : (N → Node N V) × ℕ × R :=
  match cmd with
  | .load n k => (node, readers, k (node n).succ)
  | .cas n exp new k =>
    if !weak && (node n).succ = exp then (setSucc node n new, readers, k true)
    else (node, readers, k false)
  | .store n r k => (setSucc node n r, readers, k)
  | .loadKey n k => (node, readers, k (node n).key)
  | .storeKey n key k => (Function.update node n { node n with key := key }, readers, k)
  | .loadBacklink n k => (node, readers, k (node n).backlink)
  | .storeBacklink n b k => (setBacklink node n b, readers, k)
  | .loadVal n k => (node, readers, k (node n).val)
  | .storeVal n v k => (Function.update node n { node n with val := some v }, readers, k)
  | .alloc k => (node, readers, k fresh)
  | .free _ k => (node, readers, k)
  | .loadReaders k => (node, readers, k readers)
  | .casReaders exp new k =>
    if !weak && readers = exp then (node, new % 2 ^ 32, k true) else (node, readers, k false)
  | .subReaders k => (node, (readers + 2 ^ 32 - 1) % 2 ^ 32, k)
  | .initReaders k => (node, 0, k)

/-- `thrd_set_name` after a step of its `list_search`. -/
def setNameSearch (head : N) (thr : ℤ) (name : Name) (th : Thread N (Tcb S)) : Pc N V S :=
  match th.pc with
  | .returned (.ok (some (some tcb))) =>
    .setNameUpdate thr
      ⟨[], (Op.update thr { tcb with name := strncpy tcb.name name 15 }).pc head⟩
  | .returned (.ok _) => .null
  | .returned (.fail _) => .returned (.fail .enoent)
  | _ => .setNameSearch thr name th

/-- `thrd_set_name` after a step of its `list_update`. -/
def setNameUpdate (thr : ℤ) (th : Thread N (Tcb S)) : Pc N V S :=
  match th.pc with
  | .returned (.ok _) => .returned (.ok none)
  | .returned (.fail _) => .returned (.fail .ebade)
  | _ => .setNameUpdate thr th

/-- `thrd_get_name` after a step of its `list_search`. -/
def getName (thr : ℤ) (len : ℕ) (th : Thread N (Tcb S)) : Pc N V S :=
  match th.pc with
  | .returned (.ok (some (some tcb))) =>
    .returned (.ok (some (strncpy [] (tcb.name.takeWhile (· ≠ 0)) len)))
  | .returned (.ok _) => .null
  | .returned (.fail _) => .returned (.fail .enoent)
  | _ => .getName thr len th

/-- `thrd_resume` after a step of its `list_search`. -/
def resume (thr : ℤ) (th : Thread N (Tcb S)) : Pc N V S :=
  match th.pc with
  | .returned (.ok (some (some tcb))) => .post tcb.suspend
  | .returned (.ok _) => .null
  | .returned (.fail _) => .returned (.fail .enoent)
  | _ => .resume thr th

/-- One step of a call on `tcbs`. -/
def State.tcbsStep (s : State N V S) (t : ℤ) (weak : Bool) (after : Thread N (Tcb S) → Pc N V S)
    (th : Thread N (Tcb S)) : Option (State N V S) :=
  (th.cmd (· == ·)).map fun cmd =>
    let (tcbs, readers, th') := access s.tcbs s.readers weak none cmd
    { s with tcbs := tcbs, readers := readers }.go t (after th')

/-- A thread takes its next step, unless it is stopped. -/
def threadStep (s : State N V S) (t : ℤ) (weak : Bool) (fresh : Option N) :
    Option (State N V S) :=
  if s.stopped t then none
  else match s.threads t with
    | .idle | .returned _ | .null => none
    | .list th => (th.cmd (· == ·)).map fun cmd =>
      let (node, readers, th') := access s.node s.readers weak fresh cmd
      { s with node := node, readers := readers }.go t (.list th')
    | .setNameSearch thr name th =>
      s.tcbsStep t weak (ThreadsSuspend.setNameSearch s.head thr name) th
    | .setNameUpdate thr th => s.tcbsStep t weak (ThreadsSuspend.setNameUpdate thr) th
    | .getName thr len th => s.tcbsStep t weak (ThreadsSuspend.getName thr len) th
    | .suspend thr =>
      some ({ s with pending := Function.update s.pending thr true }.go t (.returned (.ok none)))
    | .resume thr th => s.tcbsStep t weak (ThreadsSuspend.resume thr) th
    | .post a =>
      some ({ s with sem := Function.update s.sem a (semPost (s.sem a)) }.go t
        (.returned (.ok none)))

/-- A call is made, a thread takes a step, `SIGURG` is delivered to a thread, a stopped thread
goes on, or the pools of the other lists write to their nodes. -/
inductive Act (N V : Type*)
  | call (t : ℤ) (c : Call N V)
  | step (t : ℤ) (weak : Bool) (fresh : Option N)
  | deliver (t : ℤ)
  | wake (t : ℤ)
  | pools (node : N → Node N V)

/-- Where a call begins. -/
def Call.pc (head : N) : Call N V → Pc N V S
  | .setName thr name => .setNameSearch thr name ⟨[], (Op.search thr true).pc head⟩
  | .getName thr len => .getName thr len ⟨[], (Op.search thr true).pc head⟩
  | .suspend thr => .suspend thr
  | .resume thr => .resume thr ⟨[], (Op.search thr true).pc head⟩
  | .list head' op => .list ⟨[], op.pc head'⟩

/-- The key that a call looks for in `tcbs`. -/
def Call.key : Call N V → Option ℤ
  | .setName thr _ | .getName thr _ | .resume thr => some thr
  | .suspend _ | .list _ _ => none

/-- Whether a thread is outside the calls. -/
def Pc.outside : Pc N V S → Bool
  | .idle | .returned _ => true
  | .list th => th.outside
  | _ => false

/-- Calls do not nest, and keys lie strictly between those of the sentinels; the handler of
`SIGURG` runs to its end before it runs again. -/
def next (s : State N V S) : Act N V → Option (State N V S)
  | .call t c =>
    if (s.threads t).outside ∧ s.stopped t = false ∧
        ∀ key ∈ c.key, intptrMin < key ∧ key < intptrMax then
      some (s.go t (c.pc s.head))
    else none
  | .step t weak fresh => threadStep s t weak fresh
  | .deliver t =>
    if s.pending t ∧ s.stopped t = false ∧ (s.suspend t).isSome then
      some { s with
        pending := Function.update s.pending t false
        stopped := Function.update s.stopped t true }
    else none
  | .wake t =>
    match s.stopped t, s.suspend t with
    | true, some a =>
      if 0 < s.sem a then
        some { s with
          sem := Function.update s.sem a (s.sem a - 1)
          stopped := Function.update s.stopped t false }
      else none
    | _, _ => none
  | .pools node => some { s with node := node }

/-- Where a thread stands with respect to `readers`. -/
def Pc.side : Pc N V S → Side
  | .list th => th.pc.side
  | .setNameSearch _ _ th | .setNameUpdate _ th | .getName _ _ th | .resume _ th => th.pc.side
  | _ => .out

/-- `SIGURG` is not delivered to a thread between its compare-exchange of `readers` to
`UINT32_MAX` and the `atomic_init` in `list_update`. -/
def NotWriting (s : State N V S) : Act N V → Prop
  | .deliver t => (s.threads t).side ≠ .write
  | _ => True

instance (s : State N V S) : (a : Act N V) → Decidable (NotWriting s a)
  | .deliver t => inferInstanceAs (Decidable ((s.threads t).side ≠ .write))
  | .call _ _ | .step _ _ _ | .wake _ | .pools _ => inferInstanceAs (Decidable True)

/-- What `tcbs` holds: a node for every thread that was started, with its semaphore. -/
structure Listed (s : State N V S) (tail : N) (chain : List N) : Prop where
  clean : Clean s.tcbs s.head tail chain
  tcb : ∀ n ∈ chain, intptrMin < (s.tcbs n).key → (s.tcbs n).key < intptrMax →
    ∃ tcb, (s.tcbs n).val = some tcb ∧ s.suspend (s.tcbs n).key = some tcb.suspend
  thread : ∀ t a, s.suspend t = some a →
    intptrMin < t ∧ t < intptrMax ∧ ∃ n ∈ chain, (s.tcbs n).key = t

/-- Threads were started, and none has made a call yet. -/
structure Started (s : State N V S) (tail : N) (chain : List N) : Prop where
  listed : Listed s tail chain
  readers : s.readers = 0
  threads : ∀ t, s.threads t = .idle
  stopped : ∀ t, s.stopped t = false

/-! ### The word `readers` -/

variable {s s' x : State N V S} {t u thr : ℤ} {node mem mem' : N → Node N V} {readers : ℕ}
  {weak : Bool} {fresh : Option N} {chain : List N} {tail : N} {n : N}

lemma access_all (node : N → Node N V) (readers : ℕ) (weak : Bool) (fresh : Option N)
    {P : R → Prop} {cmd : Cmd N V R} (h : cmd.All P) :
    P (access node readers weak fresh cmd).2.2 := by
  cases cmd with
  | cas m exp new k =>
    simp only [access]
    split <;> exact h _
  | casReaders exp new k =>
    simp only [access]
    split <;> exact h _
  | store | storeKey | storeBacklink | storeVal | free | subReaders | initReaders => exact h
  | load | loadKey | loadBacklink | loadVal | alloc | loadReaders => exact h _

lemma access_quiet {cmd : Cmd N V R} (h : cmd.quiet = true) :
    (access node readers weak fresh cmd).2.1 = readers := by
  cases cmd with
  | cas m exp new k =>
    simp only [access]
    split <;> rfl
  | casReaders | subReaders | initReaders => simp [Cmd.quiet] at h
  | _ => rfl

lemma held_access (node : N → Node N V) (weak : Bool) (fresh : Option N) {side : ℤ → Side}
    {cmd : Cmd N V (Thread N V)}
    (h : Held uint32Max readers side) (hs : SideStep (side t) cmd) :
    Held uint32Max (access node readers weak fresh cmd).2.1
      (Function.update side t (access node readers weak fresh cmd).2.2.pc.side) ∧
    (access node readers weak fresh cmd).2.2.ReadersOk := by
  have hsame : ∀ {k : Side}, k = side t → Held uint32Max readers (Function.update side t k) :=
    fun hk => h.congr fun u => by
      by_cases hu : u = t
      · simp [hu, hk]
      · simp [hu]
  cases hs with
  | same hquiet hall =>
    obtain ⟨hside, hok⟩ := access_all node readers weak fresh hall
    rw [access_quiet hquiet]
    exact ⟨hsame hside, hok⟩
  | @readLock orig k hne hside hin hout =>
    by_cases hcas : (!weak && decide (readers = orig)) = true
    · obtain ⟨rfl, rfl⟩ : weak = false ∧ readers = orig := by simpa using hcas
      have hmod : (readers + 1) % 2 ^ 32 = readers + 1 := by
        apply Nat.mod_eq_of_lt
        have hle := h.word_le
        unfold uint32Max at hne hle
        omega
      simp only [access, Bool.not_false, decide_true, Bool.and_self, if_true, hin.1, hmod]
      exact ⟨h.readLock hne hside, hin.2⟩
    · simp only [access, hcas]
      exact ⟨hsame (hout.side.trans hside.symm), hout.ok⟩
  | @readUnlock k hside hout =>
    obtain ⟨hpos, hheld⟩ := h.readUnlock hside
    have hmod : (readers + 2 ^ 32 - 1) % 2 ^ 32 = readers - 1 := by
      have hle := h.word_le
      unfold uint32Max at hle
      omega
    simp only [access, hout.side, hmod]
    exact ⟨hheld, hout.ok⟩
  | @writeLock k hside hin hout =>
    by_cases hcas : (!weak && decide (readers = 0)) = true
    · obtain ⟨rfl, rfl⟩ : weak = false ∧ readers = 0 := by simpa using hcas
      have hmod : uint32Max % 2 ^ 32 = uint32Max := rfl
      simp only [access, Bool.not_false, decide_true, Bool.and_self, if_true, hin.1, hmod]
      exact ⟨(h.writeLock (by decide)).2, hin.2⟩
    · simp only [access, hcas]
      exact ⟨hsame (hout.side.trans hside.symm), hout.ok⟩
  | @writeUnlock k hside hout =>
    simp only [access, hout.side]
    exact ⟨h.writeUnlock hside, hout.ok⟩

/-! ### The nodes of `tcbs` -/

variable {suspend : ℤ → Option S}

/-- A control block, if any, names the semaphore of its thread. -/
def Names (suspend : ℤ → Option S) (thr : ℤ) (v : Option (Tcb S)) : Prop :=
  ∃ tcb, v = some tcb ∧ suspend thr = some tcb.suspend

/-- What a call on `tcbs` relies on at its place. -/
def TcbsOk (mem : N → Node N (Tcb S)) (suspend : ℤ → Option S) (chain : List N) (thr : ℤ) :
    LockFreeList.Pc N (Tcb S) → Prop
  | .searchFrom (.search true) key pc => key = thr ∧ SearchAt mem chain thr pc
  | .searchFrom (.update tcb) key pc =>
    key = thr ∧ Names suspend thr (some tcb) ∧ SearchAt mem chain thr pc
  | .searchCheck key true curr => key = thr ∧ curr ∈ chain
  | .searchRead key target pc => key = thr ∧ target ∈ chain ∧ (mem target).key = thr ∧
      ∀ v, pc = .sub v → Names suspend thr v
  | .updateCheck key tcb curr => key = thr ∧ Names suspend thr (some tcb) ∧ curr ∈ chain
  | .updateWrite key tcb target _ =>
    key = thr ∧ Names suspend thr (some tcb) ∧ target ∈ chain ∧ (mem target).key = thr
  | .returned r => ∀ v, r = .ok (some v) → Names suspend thr v
  | _ => False

omit [DecidableEq N] [DecidableEq S] in
lemma TcbsOk.congr {mem mem' : N → Node N (Tcb S)} {pc : LockFreeList.Pc N (Tcb S)}
    (h : TcbsOk mem suspend chain thr pc) (hs : SameLinks mem mem') :
    TcbsOk mem' suspend chain thr pc := by
  unfold TcbsOk at h ⊢
  split at h
  · exact ⟨h.1, h.2.congr hs⟩
  · exact ⟨h.1, h.2.1, h.2.2.congr hs⟩
  · exact h
  · exact ⟨h.1, h.2.1, (hs.key _).trans h.2.2.1, h.2.2.2⟩
  · exact h
  · exact ⟨h.1, h.2.1, h.2.2.1, (hs.key _).trans h.2.2.2⟩
  · exact h
  · exact h.elim

/-- What an access of a call on `tcbs` does: it may write a control block. -/
structure TcbsStep (mem : N → Node N (Tcb S)) (suspend : ℤ → Option S) (chain : List N) (thr : ℤ)
    (mem' : N → Node N (Tcb S)) (th : Thread N (Tcb S)) : Prop where
  links : SameLinks mem mem'
  val : ∀ n, (mem' n).val = (mem n).val ∨
    (mem n).key = thr ∧ Names suspend thr (mem' n).val
  helps : th.helps = []
  ok : TcbsOk mem suspend chain thr th.pc

lemma access_peek {cmd : Cmd N V R} {r : R} (h : cmd.peek node = some r) :
    access node readers weak fresh cmd = (node, readers, r) := by
  unfold Cmd.peek at h
  split at h
  · obtain rfl := by simpa using h
    rfl
  · obtain rfl := by simpa using h
    rfl
  · simp at h

omit [DecidableEq S] in
lemma tcbs_search {mem : N → Node N (Tcb S)} {head : N} {pc : SearchPc N}
    {f : SearchRes N → Thread N (Tcb S)} (hc : Clean mem head tail chain) (hhi : thr < intptrMax)
    (hat : SearchAt mem chain thr pc)
    (hmore : ∀ pc', SearchAt mem chain thr pc' →
      (f (.more pc')).helps = [] ∧ TcbsOk mem suspend chain thr (f (.more pc')).pc)
    (hret : ∀ curr next, Between mem chain thr curr next →
      (f (.ret curr next)).helps = [] ∧ TcbsOk mem suspend chain thr (f (.ret curr next)).pc) :
    TcbsStep mem suspend chain thr
      (access mem readers weak fresh ((searchFrom (· == ·) thr pc).map f)).1
      (access mem readers weak fresh ((searchFrom (· == ·) thr pc).map f)).2.2 := by
  rcases searchFrom_clean (fun a b => a == b) hc hhi hat with
    ⟨pc', hpeek, hat', -⟩ | ⟨curr, nxt, hpeek, hb⟩
  · rw [access_peek (by rw [Cmd.peek_map, hpeek]; rfl)]
    obtain ⟨hh, hp⟩ := hmore pc' hat'
    exact ⟨.refl, fun _ => .inl rfl, hh, hp⟩
  · rw [access_peek (by rw [Cmd.peek_map, hpeek]; rfl)]
    obtain ⟨hh, hp⟩ := hret curr nxt hb
    exact ⟨.refl, fun _ => .inl rfl, hh, hp⟩

omit [DecidableEq S] in
/-- One step of a call on `tcbs`. -/
theorem tcbs_step (readers : ℕ) (weak : Bool) (fresh : Option N) {mem : N → Node N (Tcb S)}
    {head : N} {pc : LockFreeList.Pc N (Tcb S)} {cmd : Cmd N (Tcb S) (Thread N (Tcb S))}
    (hc : Clean mem head tail chain)
    (hval : ∀ n ∈ chain, (mem n).key = thr → Names suspend thr (mem n).val)
    (hhi : thr < intptrMax) (hok : TcbsOk mem suspend chain thr pc)
    (hcmd : (⟨[], pc⟩ : Thread N (Tcb S)).cmd (· == ·) = some cmd) :
    TcbsStep mem suspend chain thr (access mem readers weak fresh cmd).1
      (access mem readers weak fresh cmd).2.2 := by
  have hquiet : ∀ {th : Thread N (Tcb S)}, th.helps = [] → TcbsOk mem suspend chain thr th.pc →
      TcbsStep mem suspend chain thr mem th := fun hh hp => ⟨.refl, fun _ => .inl rfl, hh, hp⟩
  unfold TcbsOk at hok
  split at hok
  · obtain ⟨rfl, hat⟩ := hok
    obtain rfl := by simpa [Thread.cmd, LockFreeList.Pc.cmd] using hcmd
    exact tcbs_search hc hhi hat (fun pc' hat' => ⟨rfl, rfl, hat'⟩)
      fun curr nxt hb => ⟨rfl, rfl, hb.on⟩
  · obtain ⟨rfl, hname, hat⟩ := hok
    obtain rfl := by simpa [Thread.cmd, LockFreeList.Pc.cmd] using hcmd
    exact tcbs_search hc hhi hat (fun pc' hat' => ⟨rfl, rfl, hname, hat'⟩)
      fun curr nxt hb => ⟨rfl, rfl, hname, hb.on⟩
  · obtain ⟨rfl, hcurr⟩ := hok
    rename_i key curr
    obtain rfl := by simpa [Thread.cmd, LockFreeList.Pc.cmd] using hcmd
    simp only [access]
    by_cases hk : (mem curr).key = key
    · simp only [hk, if_true]
      exact hquiet rfl ⟨rfl, hcurr, hk, by rintro v ⟨⟩⟩
    · simp only [hk, if_false]
      exact hquiet rfl (by rintro v ⟨⟩)
  · obtain ⟨rfl, htarget, hk, hv⟩ := hok
    rename_i key target pc
    obtain rfl := by simpa [Thread.cmd, LockFreeList.Pc.cmd] using hcmd
    have hmore : ∀ pc', (∀ v, pc' = .sub v → Names suspend key v) →
        TcbsStep mem suspend chain key mem ⟨[], .searchRead key target pc'⟩ := fun pc' hv' =>
      hquiet rfl ⟨rfl, htarget, hk, hv'⟩
    cases pc with
    | load =>
      simp only [readVal, Cmd.map, access, Function.comp]
      by_cases hr : readers = uint32Max
      · simp only [hr, if_true]
        exact hmore _ (by rintro v ⟨⟩)
      · simp only [hr, if_false]
        exact hmore _ (by rintro v ⟨⟩)
    | cas orig =>
      simp only [readVal, Cmd.map, access, Function.comp]
      split
      · exact hmore _ (by rintro v ⟨⟩)
      · exact hmore _ (by rintro v ⟨⟩)
    | copy => exact hmore _ (by rintro v ⟨⟩; exact hval target htarget hk)
    | sub v => exact hquiet rfl (by rintro w ⟨⟩; exact hv v rfl)
  · obtain ⟨rfl, hname, hcurr⟩ := hok
    rename_i key tcb curr
    obtain rfl := by simpa [Thread.cmd, LockFreeList.Pc.cmd] using hcmd
    simp only [access]
    by_cases hk : (mem curr).key = key
    · simp only [hk, if_true]
      exact hquiet rfl ⟨rfl, hname, hcurr, hk⟩
    · simp only [hk, if_false]
      exact hquiet rfl (by rintro v ⟨⟩)
  · obtain ⟨rfl, hname, htarget, hk⟩ := hok
    rename_i key tcb target pc
    obtain rfl := by simpa [Thread.cmd, LockFreeList.Pc.cmd] using hcmd
    have hmore : ∀ pc', TcbsStep mem suspend chain key mem ⟨[], .updateWrite key tcb target pc'⟩ :=
      fun pc' => hquiet rfl ⟨rfl, hname, htarget, hk⟩
    cases pc with
    | load =>
      simp only [writeVal, Cmd.map, access, Function.comp]
      by_cases hr : readers = 0
      · simp only [hr, ne_eq, not_true, if_false]
        exact hmore _
      · simp only [hr, ne_eq, not_false_eq_true, if_true]
        exact hmore _
    | cas orig =>
      simp only [writeVal, Cmd.map, access, Function.comp]
      split
      · exact hmore _
      · exact hmore _
    | copy =>
      refine ⟨sameLinks_val tcb, fun n => ?_, rfl, rfl, hname, htarget, hk⟩
      by_cases hn : n = target
      · right
        subst hn
        exact ⟨hk, tcb, by simp [writeVal, Cmd.map, access], by simpa [Names] using hname⟩
      · left
        simp [writeVal, Cmd.map, access, hn]
    | init => exact hquiet rfl (by rintro v ⟨⟩)
  · simp [Thread.cmd, LockFreeList.Pc.cmd] at hcmd
  · exact hok.elim

/-! ### The invariant -/

/-- A call on `tcbs` that looks for a thread. -/
structure CallOk (mem : N → Node N (Tcb S)) (suspend : ℤ → Option S) (chain : List N) (thr : ℤ)
    (th : Thread N (Tcb S)) : Prop where
  readers : th.ReadersOk
  helps : th.helps = []
  low : intptrMin < thr
  high : thr < intptrMax
  ok : TcbsOk mem suspend chain thr th.pc

/-- What a thread relies on at its place. -/
def Pc.Ok (mem : N → Node N (Tcb S)) (suspend : ℤ → Option S) (chain : List N) :
    Pc N V S → Prop
  | .list th => th.ReadersOk
  | .setNameSearch thr _ th | .setNameUpdate thr th | .getName thr _ th | .resume thr th =>
    CallOk mem suspend chain thr th
  | _ => True

structure Inv (s : State N V S) (tail : N) (chain : List N) : Prop where
  listed : Listed s tail chain
  held : Held uint32Max s.readers fun t => (s.threads t).side
  ok : ∀ t, (s.threads t).Ok s.tcbs s.suspend chain

omit [DecidableEq N] [DecidableEq S] in
lemma started_inv (h : Started s tail chain) : Inv s tail chain where
  listed := h.listed
  held := by
    rw [h.readers]
    exact .free fun t => by simp [h.threads t, Pc.side]
  ok t := by
    rw [h.threads t]
    trivial

omit [DecidableEq N] [DecidableEq S] in
lemma Pc.Ok.congr {mem mem' : N → Node N (Tcb S)} {pc : Pc N V S}
    (h : pc.Ok mem suspend chain) (hs : SameLinks mem mem') : pc.Ok mem' suspend chain := by
  have hcall : ∀ {thr th}, CallOk mem suspend chain thr th → CallOk mem' suspend chain thr th :=
    fun h => ⟨h.readers, h.helps, h.low, h.high, h.ok.congr hs⟩
  cases pc with
  | setNameSearch thr name th => exact hcall h
  | setNameUpdate thr th => exact hcall h
  | getName thr len th => exact hcall h
  | resume thr th => exact hcall h
  | _ => exact h

/-- What follows a step of a call on `tcbs` keeps the place in the copying. -/
def AfterOk (mem : N → Node N (Tcb S)) (suspend : ℤ → Option S) (chain : List N) (thr : ℤ)
    (after : Thread N (Tcb S) → Pc N V S) : Prop :=
  ∀ th, CallOk mem suspend chain thr th →
    (after th).Ok mem suspend chain ∧ (after th).side = th.pc.side

omit [DecidableEq N] [DecidableEq S] in
lemma setNameSearch_after {mem : N → Node N (Tcb S)} {head : N} (hc : Clean mem head tail chain)
    (name : Name) :
    AfterOk mem suspend chain thr (setNameSearch head thr name : _ → Pc N V S) := by
  intro th h
  obtain ⟨hreaders, hhelps, hlo, hhi, hok⟩ := h
  unfold setNameSearch
  split
  · rename_i tcb hpc
    rw [hpc] at hok
    obtain ⟨tcb', heq, hname⟩ := hok _ rfl
    obtain rfl : tcb' = tcb := by simpa using heq.symm
    have hat : SearchAt mem chain thr (.load head) :=
      ⟨hc.head_mem, by rw [hc.head_key]; exact hlo.le⟩
    have hnew : Names suspend thr (some { tcb' with name := strncpy tcb'.name name 15 }) :=
      ⟨_, rfl, hname⟩
    refine ⟨⟨⟨fun _ => rfl, trivial⟩, rfl, hlo, hhi, rfl, hnew, hat⟩, ?_⟩
    rw [hpc]
    rfl
  · rename_i hpc
    rw [hpc]
    exact ⟨trivial, rfl⟩
  · rename_i hpc
    rw [hpc]
    exact ⟨trivial, rfl⟩
  · exact ⟨⟨hreaders, hhelps, hlo, hhi, hok⟩, rfl⟩

omit [DecidableEq N] [DecidableEq S] in
lemma setNameUpdate_after {mem : N → Node N (Tcb S)} :
    AfterOk mem suspend chain thr (setNameUpdate thr : _ → Pc N V S) := by
  intro th h
  unfold setNameUpdate
  split
  · rename_i hpc
    rw [hpc]
    exact ⟨trivial, rfl⟩
  · rename_i hpc
    rw [hpc]
    exact ⟨trivial, rfl⟩
  · exact ⟨h, rfl⟩

omit [DecidableEq N] [DecidableEq S] in
lemma getName_after {mem : N → Node N (Tcb S)} (len : ℕ) :
    AfterOk mem suspend chain thr (getName thr len : _ → Pc N V S) := by
  intro th h
  unfold getName
  split
  iterate 3
    · rename_i hpc
      rw [hpc]
      exact ⟨trivial, rfl⟩
  · exact ⟨h, rfl⟩

omit [DecidableEq N] [DecidableEq S] in
lemma resume_after {mem : N → Node N (Tcb S)} :
    AfterOk mem suspend chain thr (resume thr : _ → Pc N V S) := by
  intro th h
  unfold resume
  split
  iterate 3
    · rename_i hpc
      rw [hpc]
      exact ⟨trivial, rfl⟩
  · exact ⟨h, rfl⟩

omit [DecidableEq N] [DecidableEq S] in
lemma Inv.go (h : Inv s tail chain) {pc : Pc N V S} (hx : x.threads = s.threads)
    (hlisted : Listed x tail chain) (hs : SameLinks s.tcbs x.tcbs) (hsus : x.suspend = s.suspend)
    (hheld : Held uint32Max x.readers
      (Function.update (fun u => (s.threads u).side) t pc.side))
    (hpc : pc.Ok x.tcbs s.suspend chain) : Inv (x.go t pc) tail chain where
  listed := ⟨hlisted.clean, hlisted.tcb, hlisted.thread⟩
  held := by
    refine hheld.congr fun u => ?_
    by_cases hu : u = t
    · simp [State.go, hu]
    · simp [State.go, hu, hx]
  ok u := by
    show ((x.go t pc).threads u).Ok x.tcbs x.suspend chain
    rw [hsus]
    by_cases hu : u = t
    · simpa [State.go, hu] using hpc
    · simpa [State.go, hu, hx] using (h.ok u).congr hs

omit [DecidableEq S] in
lemma Inv.tcbsStep (h : Inv s tail chain) {th : Thread N (Tcb S)}
    {after : Thread N (Tcb S) → Pc N V S} (hside : (s.threads t).side = th.pc.side)
    (hth : CallOk s.tcbs s.suspend chain thr th)
    (hafter : AfterOk s.tcbs s.suspend chain thr after)
    (hs : s.tcbsStep t weak after th = some s') : Inv s' tail chain := by
  unfold State.tcbsStep at hs
  cases hcmd : th.cmd (· == ·) with
  | none => simp [hcmd] at hs
  | some cmd =>
    obtain rfl := by simpa [hcmd] using hs
    obtain ⟨helps, pc⟩ := th
    obtain rfl : helps = [] := hth.helps
    have hval : ∀ n ∈ chain, (s.tcbs n).key = thr → Names s.suspend thr (s.tcbs n).val :=
      fun n hn hk => by
        obtain ⟨tcb, hv, hname⟩ := h.listed.tcb n hn (hk ▸ hth.low) (hk ▸ hth.high)
        exact ⟨tcb, hv, hk ▸ hname⟩
    have hstep := tcbs_step s.readers weak none h.listed.clean hval hth.high hth.ok hcmd
    have hss := thread_side hth.readers hcmd
    rw [← hside] at hss
    obtain ⟨hheld, hreaders⟩ := held_access s.tcbs weak none h.held hss
    obtain ⟨hok, hsame⟩ := hafter _ ⟨hreaders, hstep.helps, hth.low, hth.high, hstep.ok⟩
    have hlisted : Listed { s with tcbs := (access s.tcbs s.readers weak none cmd).1
                                   readers := (access s.tcbs s.readers weak none cmd).2.1 }
        tail chain := by
      refine ⟨h.listed.clean.congr hstep.links, fun n hn hlo hhi => ?_, fun u a hu => ?_⟩
      · simp only [hstep.links.key] at hlo hhi ⊢
        rcases hstep.val n with hv | ⟨hk, tcb, hv, hname⟩
        · rw [hv]
          exact h.listed.tcb n hn hlo hhi
        · exact ⟨tcb, hv, hk ▸ hname⟩
      · simp only [hstep.links.key]
        exact h.listed.thread u a hu
    exact h.go rfl hlisted hstep.links rfl (by rw [hsame]; exact hheld) (hok.congr hstep.links)

omit [DecidableEq N] [DecidableEq S] in
lemma Inv.move (h : Inv s tail chain) {pc : Pc N V S} (hx : x.threads = s.threads)
    (htcbs : x.tcbs = s.tcbs) (hhead : x.head = s.head) (hsus : x.suspend = s.suspend)
    (hreaders : x.readers = s.readers) (hside : pc.side = (s.threads t).side)
    (hpc : pc.Ok s.tcbs s.suspend chain) : Inv (x.go t pc) tail chain := by
  have hlisted : Listed x tail chain := by
    obtain ⟨hclean, htcb, hthread⟩ := h.listed
    constructor
    · rw [htcbs, hhead]
      exact hclean
    · rw [htcbs, hsus]
      exact htcb
    · rw [htcbs, hsus]
      exact hthread
  refine h.go hx hlisted (by rw [htcbs]; exact .refl) hsus ?_ (by rw [htcbs]; exact hpc)
  rw [hreaders]
  refine h.held.congr fun u => ?_
  by_cases hu : u = t
  · simp [hu, hside]
  · simp [hu]

theorem threadStep_inv (h : Inv s tail chain) (hs : threadStep s t weak fresh = some s') :
    Inv s' tail chain := by
  unfold threadStep at hs
  split at hs
  · simp at hs
  have hok := h.ok t
  cases hpc : s.threads t with
  | idle | returned | null => simp [hpc] at hs
  | list th =>
    rw [hpc] at hs hok
    have hside : (s.threads t).side = th.pc.side := by rw [hpc]; rfl
    cases hcmd : th.cmd (· == ·) with
    | none => simp [hcmd] at hs
    | some cmd =>
      obtain rfl := by simpa [hcmd] using hs
      have hss := thread_side hok hcmd
      rw [← hside] at hss
      obtain ⟨hheld, hreaders⟩ :=
        held_access s.node weak fresh h.held hss
      exact h.go rfl ⟨h.listed.clean, h.listed.tcb, h.listed.thread⟩ .refl rfl hheld hreaders
  | setNameSearch thr name th =>
    rw [hpc] at hs hok
    exact h.tcbsStep (by rw [hpc]; rfl) hok (setNameSearch_after h.listed.clean name) hs
  | setNameUpdate thr th =>
    rw [hpc] at hs hok
    exact h.tcbsStep (by rw [hpc]; rfl) hok setNameUpdate_after hs
  | getName thr len th =>
    rw [hpc] at hs hok
    exact h.tcbsStep (by rw [hpc]; rfl) hok (getName_after len) hs
  | resume thr th =>
    rw [hpc] at hs hok
    exact h.tcbsStep (by rw [hpc]; rfl) hok resume_after hs
  | suspend thr =>
    rw [hpc] at hs
    obtain rfl := by simpa using hs
    exact h.move rfl rfl rfl rfl rfl (by rw [hpc]; rfl) trivial
  | post a =>
    rw [hpc] at hs
    obtain rfl := by simpa using hs
    exact h.move rfl rfl rfl rfl rfl (by rw [hpc]; rfl) trivial

omit [DecidableEq N] [DecidableEq S] in
lemma Pc.side_outside {pc : Pc N V S} (h : pc.outside = true) : pc.side = .out := by
  cases pc with
  | list th =>
    obtain ⟨helps, pc⟩ := th
    cases helps <;> cases pc <;>
      simp_all [Pc.outside, Thread.outside, Pc.side, LockFreeList.Pc.side]
  | _ => simp_all [Pc.outside, Pc.side]

omit [DecidableEq N] [DecidableEq S] in
lemma call_ok (suspend : ℤ → Option S) {c : Call N V} {mem : N → Node N (Tcb S)} {head : N}
    (hc : Clean mem head tail chain)
    (hkey : ∀ key ∈ c.key, intptrMin < key ∧ key < intptrMax) :
    (c.pc head : Pc N V S).Ok mem suspend chain ∧ (c.pc head : Pc N V S).side = .out := by
  have hcall : ∀ {thr}, thr ∈ c.key → CallOk mem suspend chain thr
      ⟨[], (Op.search thr true : Op (Tcb S)).pc head⟩ := fun {thr} hthr => by
    obtain ⟨hlo, hhi⟩ := hkey thr hthr
    exact ⟨⟨fun _ => rfl, trivial⟩, rfl, hlo, hhi, rfl, hc.head_mem, by
      rw [hc.head_key]
      exact hlo.le⟩
  cases c with
  | setName thr name => exact ⟨hcall rfl, rfl⟩
  | getName thr len => exact ⟨hcall rfl, rfl⟩
  | resume thr => exact ⟨hcall rfl, rfl⟩
  | suspend thr => exact ⟨trivial, rfl⟩
  | list head' op => cases op <;> exact ⟨⟨fun _ => rfl, trivial⟩, rfl⟩

theorem inv_step {a : Act N V} (h : Inv s tail chain) (hs : next s a = some s') :
    Inv s' tail chain := by
  cases a with
  | call t c =>
    simp only [next] at hs
    split at hs
    · rename_i hcall
      obtain ⟨hout, -, hkey⟩ := hcall
      obtain rfl := by simpa using hs
      obtain ⟨hok, hside⟩ := call_ok s.suspend h.listed.clean hkey
      exact h.move rfl rfl rfl rfl rfl (by rw [hside, Pc.side_outside hout]) hok
    · simp at hs
  | step t weak fresh => exact threadStep_inv h hs
  | deliver t =>
    simp only [next] at hs
    split at hs
    · obtain rfl := by simpa using hs
      exact ⟨⟨h.listed.clean, h.listed.tcb, h.listed.thread⟩, h.held, h.ok⟩
    · simp at hs
  | wake t =>
    simp only [next] at hs
    split at hs
    · split at hs
      · obtain rfl := by simpa using hs
        exact ⟨⟨h.listed.clean, h.listed.tcb, h.listed.thread⟩, h.held, h.ok⟩
      · simp at hs
    · simp at hs
  | pools node =>
    obtain rfl := by simpa [next] using hs
    exact ⟨⟨h.listed.clean, h.listed.tcb, h.listed.thread⟩, h.held, h.ok⟩

/-! ### Stopped threads -/

/-- No thread is stopped while it writes a value. -/
def StoppedOut (s : State N V S) : Prop := ∀ t, s.stopped t = true → (s.threads t).side ≠ .write

lemma threadStep_frame (hs : threadStep s t weak fresh = some s') :
    s.stopped t = false ∧ s'.stopped = s.stopped ∧ s'.suspend = s.suspend ∧
      ∀ u, u ≠ t → s'.threads u = s.threads u := by
  have hgo : ∀ {x : State N V S} {pc}, x.stopped = s.stopped → x.suspend = s.suspend →
      x.threads = s.threads → (x.go t pc).stopped = s.stopped ∧ (x.go t pc).suspend = s.suspend ∧
        ∀ u, u ≠ t → (x.go t pc).threads u = s.threads u := fun h1 h2 h3 =>
    ⟨h1, h2, fun u hu => by simp [State.go, hu, h3]⟩
  have htcbs : ∀ {after th}, s.tcbsStep t weak after th = some s' → s'.stopped = s.stopped ∧
      s'.suspend = s.suspend ∧ ∀ u, u ≠ t → s'.threads u = s.threads u := fun {after th} h => by
    obtain ⟨cmd, -, rfl⟩ := Option.map_eq_some_iff.mp h
    exact hgo rfl rfl rfl
  unfold threadStep at hs
  split at hs
  · simp at hs
  · rename_i hst
    refine ⟨by simpa using hst, ?_⟩
    cases hpc : s.threads t with
    | idle | returned | null => simp [hpc] at hs
    | list th =>
      rw [hpc] at hs
      obtain ⟨cmd, -, rfl⟩ := Option.map_eq_some_iff.mp hs
      exact hgo rfl rfl rfl
    | setNameSearch | setNameUpdate | getName | resume =>
      rw [hpc] at hs
      exact htcbs hs
    | suspend | post =>
      rw [hpc] at hs
      obtain rfl := by simpa using hs
      exact hgo rfl rfl rfl

/-- A stopped thread was stopped before and has not moved, or `SIGURG` was delivered to it. -/
lemma stopped_step {a : Act N V} (hs : next s a = some s') (ht : s'.stopped t = true) :
    (s.stopped t = true ∨ a = .deliver t ∧ (s.suspend t).isSome) ∧
      s'.threads t = s.threads t ∧ s'.suspend t = s.suspend t := by
  cases a with
  | call u c =>
    simp only [next] at hs
    split at hs
    · rename_i hcall
      obtain rfl := by simpa using hs
      have hut : t ≠ u := by
        rintro rfl
        exact absurd ht (by simp [State.go, hcall.2.1])
      exact ⟨.inl ht, by simp [State.go, hut], rfl⟩
    · simp at hs
  | step u weak fresh =>
    obtain ⟨hst, hstopped, hsus, hothers⟩ := threadStep_frame hs
    rw [hstopped] at ht
    have hut : t ≠ u := by
      rintro rfl
      simp [hst] at ht
    exact ⟨.inl ht, hothers t hut, by rw [hsus]⟩
  | deliver u =>
    simp only [next] at hs
    split at hs
    · rename_i hdel
      obtain rfl := by simpa using hs
      by_cases hut : t = u
      · subst hut
        exact ⟨.inr ⟨rfl, hdel.2.2⟩, rfl, rfl⟩
      · exact ⟨.inl (by simpa [hut] using ht), rfl, rfl⟩
    · simp at hs
  | wake u =>
    simp only [next] at hs
    split at hs
    · split at hs
      · obtain rfl := by simpa using hs
        have hut : t ≠ u := by
          rintro rfl
          simp at ht
        exact ⟨.inl (by simpa [hut] using ht), rfl, rfl⟩
      · simp at hs
    · simp at hs
  | pools node =>
    obtain rfl := by simpa [next] using hs
    exact ⟨.inl ht, rfl, rfl⟩

theorem stoppedOut_step {a : Act N V} (h : StoppedOut s) (hok : NotWriting s a)
    (hs : next s a = some s') : StoppedOut s' := by
  intro t ht
  obtain ⟨hst, hpc, -⟩ := stopped_step hs ht
  rw [hpc]
  rcases hst with hst | ⟨rfl, -⟩
  · exact h t hst
  · exact hok

/-- A stopped thread has a semaphore. -/
def StoppedSem (s : State N V S) : Prop := ∀ t, s.stopped t = true → (s.suspend t).isSome

theorem stoppedSem_step {a : Act N V} (h : StoppedSem s) (hs : next s a = some s') :
    StoppedSem s' := by
  intro t ht
  obtain ⟨hst, -, hsus⟩ := stopped_step hs ht
  rw [hsus]
  rcases hst with hst | ⟨rfl, hsem⟩
  · exact h t hst
  · exact hsem

end CoopTasks.ThreadsSuspend
