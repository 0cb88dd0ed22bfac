import CoopTasks.ListClean
import CoopTasks.Machine
import CoopTasks.ReadersWriters

/-!
Copying values in and out of lists: `list_search` and `list_update` on keys that stay.

All lists of the process share the word `readers`. A value is copied one byte at a time, and any
thread may take a step between two bytes. No call of `list_insert` or `list_delete` is under way,
so the nodes of a list stay where they are; only the bytes of their values change.
-/

namespace CoopTasks.ListCopy

open CoopTasks.LockFreeList CoopTasks.Machine CoopTasks.ReadersWriters

variable {ι N R : Type*} [DecidableEq ι] [DecidableEq N]

/-- A value. -/
abbrev Bytes := List UInt8

/-- `struct list`, but for what these calls do not use. -/
structure Desc (N : Type*) where
  head : N
  valBytes : ℕ

/-- Which function is called: `val` of `list_search` tells whether its pointer is not null, and
`val` of `list_update` is `none` for a null pointer. -/
inductive Func
  | search (val : Bool)
  | update (val : Option Bytes)
  deriving DecidableEq, Repr

structure Call (ι : Type*) where
  list : ι
  key : ℤ
  func : Func
  deriving DecidableEq, Repr

/-- What a call returns: 0, with the bytes it stored through `val`, or -1 with `ENOENT`. -/
inductive Res
  | ok (val : Option Bytes)
  | enoent
  deriving DecidableEq, Repr

/-- Where a copy out of a node stands; `copy` is the place of the `memcpy`, with the bytes copied
so far, and of the `atomic_fetch_sub` after it. -/
inductive ReadPc
  | load
  | cas (orig : ℕ)
  | copy (buf : Bytes)
  deriving DecidableEq, Repr

/-- Where a copy into a node stands; `copy` is the place of the `memcpy`, with the number of bytes
copied so far, and of the `atomic_init` after it. -/
inductive WritePc
  | load
  | cas (orig : ℕ)
  | copy (i : ℕ)
  deriving DecidableEq, Repr

/-- Where a call stands. -/
inductive Pc (N : Type*)
  | searchFrom (pc : SearchPc N)
  | check (curr : N)
  | read (target : N) (pc : ReadPc)
  | write (val : Bytes) (target : N) (pc : WritePc)
  | returned (r : Res)
  | null
  deriving DecidableEq, Repr

inductive Thread (ι N : Type*)
  | idle
  | call (c : Call ι) (pc : Pc N)
  deriving DecidableEq, Repr

/-- The lists of the process, the bytes of their nodes' values, and the threads. `stored` are the
values stored under a key of a list so far, the last one first. -/
structure State (ι N : Type*) where
  lists : ι → Desc N
  node : N → Node N Empty
  bytes : N → ℕ → UInt8
  readers : ℕ
  threads : ℕ → Thread ι N
  stored : ι → ℤ → List Bytes

def State.go (s : State ι N) (t : ℕ) (c : Call ι) (pc : Pc N) : State ι N :=
  { s with threads := Function.update s.threads t (.call c pc) }

/-- The value in a node of a list. -/
def State.value (s : State ι N) (l : ι) (n : N) : Bytes :=
  (List.range (s.lists l).valBytes).map (s.bytes n)

/-- One of the accesses that `search_from` makes. -/
def State.exec (s : State ι N) (weak : Bool) : Cmd N Empty R → Option (State ι N × R)
  | .load n k => some (s, k (s.node n).succ)
  | .loadKey n k => some (s, k (s.node n).key)
  | .cas n exp new k =>
    if !weak && (s.node n).succ = exp then some ({ s with node := setSucc s.node n new }, k true)
    else some (s, k false)
  | _ => none

/-- What follows when `search` has found the node. -/
def Func.found (target : N) : Func → Pc N
  | .search true => .read target .load
  | .update (some val) => .write val target .load
  | .search false | .update none => .returned (.ok none)

/-- One step of copying the value out of a node. -/
def readVal (s : State ι N) (t : ℕ) (c : Call ι) (n : N) (weak : Bool) : ReadPc → State ι N
  | .load => s.go t c (.read n (if s.readers = uint32Max then .load else .cas s.readers))
  | .cas orig =>
    if !weak && s.readers = orig then
      { s with readers := (orig + 1) % 2 ^ 32 }.go t c (.read n (.copy []))
    else s.go t c (.read n .load)
  | .copy buf =>
    if buf.length < (s.lists c.list).valBytes then
      s.go t c (.read n (.copy (buf ++ [s.bytes n buf.length])))
    else { s with readers := (s.readers + 2 ^ 32 - 1) % 2 ^ 32 }.go t c (.returned (.ok (some buf)))

/-- One step of copying a value into a node. -/
def writeVal (s : State ι N) (t : ℕ) (c : Call ι) (val : Bytes) (n : N) (weak : Bool) :
    WritePc → State ι N
  | .load => s.go t c (.write val n (if s.readers ≠ 0 then .load else .cas s.readers))
  | .cas orig =>
    if !weak && s.readers = orig then
      { s with
        readers := uint32Max
        stored := Function.update s.stored c.list
          (Function.update (s.stored c.list) c.key (val :: s.stored c.list c.key)) }.go t c
        (.write val n (.copy 0))
    else s.go t c (.write val n .load)
  | .copy i =>
    if i < (s.lists c.list).valBytes then
      { s with
        bytes := Function.update s.bytes n (Function.update (s.bytes n) i (val.getD i 0)) }.go t c
        (.write val n (.copy (i + 1)))
    else { s with readers := 0 }.go t c (.returned (.ok none))

/-- A thread takes its next step. -/
def threadStep (s : State ι N) (t : ℕ) (weak : Bool) : Option (State ι N) :=
  match s.threads t with
  | .idle | .call _ (.returned _) | .call _ .null => none
  | .call c (.searchFrom pc) =>
    (s.exec weak (searchFrom (· == ·) c.key pc)).map fun (s', r) => s'.go t c <|
      match r with
      | .more pc' => .searchFrom pc'
      | .ret curr _ => .check curr
      | .null => .null
  | .call c (.check curr) =>
    some (s.go t c (if (s.node curr).key = c.key then c.func.found curr else .returned .enoent))
  | .call c (.read n pc) => some (readVal s t c n weak pc)
  | .call c (.write val n pc) => some (writeVal s t c val n weak pc)

/-- A call is made, or a thread takes a step. -/
inductive Act (ι : Type*)
  | call (t : ℕ) (c : Call ι)
  | step (t : ℕ) (weak : Bool)

def Thread.outside : Thread ι N → Bool
  | .idle | .call _ (.returned _) => true
  | _ => false

/-- Whether the buffer of an update has the size of the list's values. -/
def Func.fits (valBytes : ℕ) : Func → Bool
  | .update (some val) => val.length == valBytes
  | _ => true

/-- Keys lie strictly between those of the sentinels, and calls do not nest. -/
def next (s : State ι N) : Act ι → Option (State ι N)
  | .call t c =>
    if (s.threads t).outside ∧ intptrMin < c.key ∧ c.key < intptrMax ∧
        c.func.fits (s.lists c.list).valBytes then
      some (s.go t c (.searchFrom (.load (s.lists c.list).head)))
    else none
  | .step t weak => threadStep s t weak

/-- Where a thread stands with respect to `readers`. -/
def Thread.side : Thread ι N → Side
  | .call _ (.read _ (.copy _)) => .read
  | .call _ (.write _ _ (.copy _)) => .write
  | _ => .out

/-- Lists with keys inserted: `chain` are the nodes of each, and under each key only the value of
the insert was stored. -/
structure Inserted (s : State ι N) (chain : ι → List N) : Prop where
  clean : ∀ l, ∃ tail, Clean s.node (s.lists l).head tail (chain l)
  apart : ∀ l l', l ≠ l' → ∀ n ∈ chain l, n ∉ chain l'
  stored : ∀ l, ∀ n ∈ chain l, intptrMin < (s.node n).key → (s.node n).key < intptrMax →
    s.stored l (s.node n).key = [s.value l n]
  readers : s.readers = 0
  threads : ∀ t, s.threads t = .idle

variable {s s' x : State ι N} {chain : ι → List N} {t u : ℕ} {c : Call ι} {pc pc' : Pc N} {n : N}

/-! ### The invariant -/

/-- The node that a call has found. -/
structure Target (s : State ι N) (chain : ι → List N) (c : Call ι) (n : N) : Prop where
  on : n ∈ chain c.list
  key : (s.node n).key = c.key

/-- What a copy out of a node relies on. -/
def ReadOk (s : State ι N) (c : Call ι) (n : N) : ReadPc → Prop
  | .load => True
  | .cas orig => orig ≠ uint32Max
  | .copy buf => buf.length ≤ (s.lists c.list).valBytes ∧
      buf = (List.range buf.length).map (s.bytes n)

/-- What a copy into a node relies on. -/
def WriteOk (s : State ι N) (c : Call ι) (val : Bytes) (n : N) : WritePc → Prop
  | .load => True
  | .cas orig => orig = 0
  | .copy i => i ≤ (s.lists c.list).valBytes ∧ (s.stored c.list c.key).head? = some val ∧
      ∀ j < i, s.bytes n j = val.getD j 0

/-- What a call relies on at its place. -/
def PcOk (s : State ι N) (chain : ι → List N) (c : Call ι) : Pc N → Prop
  | .searchFrom pc => SearchAt s.node (chain c.list) c.key pc
  | .check curr => curr ∈ chain c.list
  | .read n pc => Target s chain c n ∧ ReadOk s c n pc
  | .write val n pc => Target s chain c n ∧ c.func = .update (some val) ∧ WriteOk s c val n pc
  | .returned r => ∀ buf, r = .ok (some buf) → buf ∈ s.stored c.list c.key
  | .null => False

structure CallOk (s : State ι N) (chain : ι → List N) (c : Call ι) (pc : Pc N) : Prop where
  low : intptrMin < c.key
  high : c.key < intptrMax
  fits : c.func.fits (s.lists c.list).valBytes = true
  pc : PcOk s chain c pc

/-- The node whose value a thread is writing. -/
def Thread.writes : Thread ι N → Option N
  | .call _ (.write _ n (.copy _)) => some n
  | _ => none

/-- Nobody writes the value of a node, and it is the one stored last. -/
def Settled (s : State ι N) (l : ι) (n : N) : Prop :=
  (s.stored l (s.node n).key).head? = some (s.value l n)

structure Inv (s : State ι N) (chain : ι → List N) : Prop where
  clean : ∀ l, ∃ tail, Clean s.node (s.lists l).head tail (chain l)
  apart : ∀ l l', l ≠ l' → ∀ n ∈ chain l, n ∉ chain l'
  held : Held uint32Max s.readers fun t => (s.threads t).side
  calls : ∀ t c pc, s.threads t = .call c pc → CallOk s chain c pc
  settled : ∀ l, ∀ n ∈ chain l, intptrMin < (s.node n).key → (s.node n).key < intptrMax →
    (∃ t, (s.threads t).writes = some n) ∨ Settled s l n

omit [DecidableEq ι] [DecidableEq N] in
lemma side_of_writes {th : Thread ι N} (h : th.writes = some n) : th.side = .write := by
  unfold Thread.writes at h
  split at h
  · rfl
  · simp at h

omit [DecidableEq ι] [DecidableEq N] in
lemma inserted_inv (h : Inserted s chain) : Inv s chain where
  clean := h.clean
  apart := h.apart
  held := by
    rw [h.readers]
    exact .free fun t => by simp [h.threads t, Thread.side]
  calls t c pc ht := by simp [h.threads t] at ht
  settled l n hn hlo hhi := .inr (by simp [Settled, h.stored l n hn hlo hhi])

omit [DecidableEq ι] [DecidableEq N] in
lemma Inv.target_list (h : Inv s chain) {l : ι} (hn : Target s chain c n) (hl : n ∈ chain l) :
    l = c.list := by
  by_contra hne
  exact h.apart l c.list hne n hl hn.on

omit [DecidableEq ι] [DecidableEq N] in
lemma Inv.target_eq (h : Inv s chain) {m : N} (hn : Target s chain c n) (hm : m ∈ chain c.list)
    (hk : (s.node m).key = c.key) : m = n := by
  obtain ⟨tail, hclean⟩ := h.clean c.list
  exact hclean.key_inj hm hn.on (hk.trans hn.key.symm)

/-! ### One step -/

/-- What a step leaves to another thread: the nodes, and the values if it is inside the copying. -/
structure Kept (s s' : State ι N) (side : Side) : Prop where
  lists : s'.lists = s.lists
  node : s'.node = s.node
  stored : ∀ l k, ∀ v ∈ s.stored l k, v ∈ s'.stored l k
  inside : side ≠ .out → s'.bytes = s.bytes ∧ s'.stored = s.stored

omit [DecidableEq ι] [DecidableEq N] in
lemma CallOk.kept (h : CallOk s chain c pc)
    (hk : Kept s s' (Thread.call c pc : Thread ι N).side) : CallOk s' chain c pc := by
  obtain ⟨hlists, hnode, hstored, hinside⟩ := hk
  have htarget : ∀ {m}, Target s chain c m → Target s' chain c m := fun ht =>
    ⟨ht.on, by rw [hnode]; exact ht.key⟩
  refine ⟨h.low, h.high, by rw [hlists]; exact h.fits, ?_⟩
  have hpc := h.pc
  cases pc with
  | searchFrom pc =>
    unfold PcOk
    rw [hnode]
    exact hpc
  | check curr => exact hpc
  | null => exact hpc
  | returned r => exact fun buf hr => hstored _ _ _ (hpc buf hr)
  | read m pc =>
    refine ⟨htarget hpc.1, ?_⟩
    cases pc with
    | load => trivial
    | cas orig => exact hpc.2
    | copy buf =>
      obtain ⟨hbytes, -⟩ := hinside (by simp [Thread.side])
      unfold ReadOk
      rw [hbytes, hlists]
      exact hpc.2
  | write val m pc =>
    refine ⟨htarget hpc.1, hpc.2.1, ?_⟩
    cases pc with
    | load => trivial
    | cas orig => exact hpc.2.2
    | copy i =>
      obtain ⟨hbytes, hst⟩ := hinside (by simp [Thread.side])
      unfold WriteOk
      rw [hbytes, hst, hlists]
      exact hpc.2.2

omit [DecidableEq ι] [DecidableEq N] in
lemma Kept.refl (side : Side) : Kept s s side :=
  ⟨rfl, rfl, fun _ _ _ hv => hv, fun _ => ⟨rfl, rfl⟩⟩

omit [DecidableEq ι] [DecidableEq N] in
lemma Inv.go (h : Inv s chain) (hk : ∀ u, u ≠ t → Kept s x (s.threads u).side)
    (hx : x.threads = s.threads)
    (hheld : Held uint32Max x.readers
      (Function.update (fun u => (s.threads u).side) t (Thread.call c pc : Thread ι N).side))
    (hpc : CallOk x chain c pc)
    (hset : ∀ l, ∀ n ∈ chain l, intptrMin < (s.node n).key → (s.node n).key < intptrMax →
      (∃ u, u ≠ t ∧ (s.threads u).writes = some n) ∨
      (Thread.call c pc : Thread ι N).writes = some n ∨ Settled x l n)
    (hnode : x.node = s.node) (hlists : x.lists = s.lists) : Inv (x.go t c pc) chain where
  clean l := by
    show ∃ tail, Clean x.node (x.lists l).head tail (chain l)
    rw [hnode, hlists]
    exact h.clean l
  apart := h.apart
  held := by
    refine hheld.congr fun u => ?_
    by_cases hu : u = t
    · simp [State.go, hu]
    · simp [State.go, hu, hx]
  calls u c' pc' hu := by
    by_cases hut : u = t
    · obtain ⟨rfl, rfl⟩ : c = c' ∧ pc = pc' := by simpa [State.go, hut] using hu
      exact hpc.kept ⟨rfl, rfl, fun _ _ _ hv => hv, fun _ => ⟨rfl, rfl⟩⟩
    · have hs : s.threads u = .call c' pc' := by simpa [State.go, hut, hx] using hu
      have hkept := hk u hut
      rw [hs] at hkept
      exact ((h.calls u c' pc' hs).kept hkept).kept
        ⟨rfl, rfl, fun _ _ _ hv => hv, fun _ => ⟨rfl, rfl⟩⟩
  settled l n hn hlo hhi := by
    have hnx : (x.go t c pc).node n = s.node n := by
      show x.node n = s.node n
      rw [hnode]
    rw [hnx] at hlo hhi
    rcases hset l n hn hlo hhi with ⟨u, hu, hw⟩ | hw | hs
    · exact .inl ⟨u, by simpa [State.go, hu, hx] using hw⟩
    · exact .inl ⟨t, by simpa [State.go] using hw⟩
    · exact .inr hs

omit [DecidableEq ι] [DecidableEq N] in
lemma Inv.pass {k : ℕ} (h : Inv s chain) (hpc : CallOk s chain c pc)
    (hw : (Thread.call c pc : Thread ι N).writes = (s.threads t).writes)
    (hheld : Held uint32Max k
      (Function.update (fun u => (s.threads u).side) t (Thread.call c pc : Thread ι N).side)) :
    Inv ({ s with readers := k }.go t c pc) chain := by
  have hkept : ∀ side, Kept s { s with readers := k } side := fun _ =>
    ⟨rfl, rfl, fun _ _ _ hv => hv, fun _ => ⟨rfl, rfl⟩⟩
  refine h.go (fun u _ => hkept _) rfl hheld (hpc.kept (hkept _)) (fun l n hn hlo hhi => ?_) rfl rfl
  rcases h.settled l n hn hlo hhi with ⟨u, hu⟩ | hs
  · by_cases hut : u = t
    · exact .inr (.inl (by rw [hw, ← hut, hu]))
    · exact .inl ⟨u, hut, hu⟩
  · exact .inr (.inr hs)

omit [DecidableEq ι] [DecidableEq N] in
lemma Inv.move (h : Inv s chain) (hpc : CallOk s chain c pc)
    (hw : (Thread.call c pc : Thread ι N).writes = (s.threads t).writes)
    (hside : (Thread.call c pc : Thread ι N).side = (s.threads t).side) :
    Inv (s.go t c pc) chain := by
  refine h.pass hpc hw (h.held.congr fun u => ?_)
  by_cases hu : u = t
  · simp [hu, hside]
  · simp [hu]

omit [DecidableEq ι] [DecidableEq N] in
theorem readVal_inv (h : Inv s chain) {weak : Bool} {pc : ReadPc}
    (ht : s.threads t = .call c (.read n pc)) : Inv (readVal s t c n weak pc) chain := by
  obtain ⟨hlo, hhi, hfits, htarget, hpc⟩ := h.calls t c _ ht
  have hok : ∀ {pc'}, ReadOk s c n pc' → CallOk s chain c (.read n pc') := fun hpc' =>
    ⟨hlo, hhi, hfits, htarget, hpc'⟩
  have hle := h.held.word_le
  cases pc with
  | load =>
    simp only [readVal]
    by_cases hne : s.readers = uint32Max
    · rw [if_pos hne]
      exact h.move (hok trivial) (by rw [ht]) (by rw [ht])
    · rw [if_neg hne]
      exact h.move (hok hne) (by rw [ht]; rfl) (by rw [ht]; rfl)
  | cas orig =>
    simp only [readVal]
    split
    · rename_i hcas
      obtain ⟨-, rfl⟩ : weak = false ∧ s.readers = orig := by simpa using hcas
      have hmod : (s.readers + 1) % 2 ^ 32 = s.readers + 1 := by
        apply Nat.mod_eq_of_lt
        have : s.readers ≠ uint32Max := hpc
        unfold uint32Max at *
        omega
      have hheld := h.held.readLock (t := t) hpc (by simp [ht, Thread.side])
      rw [← hmod] at hheld
      exact h.pass (hok ⟨Nat.zero_le _, by simp⟩) (by rw [ht]; rfl) hheld
    · exact h.move (hok trivial) (by rw [ht]; rfl) (by rw [ht]; rfl)
  | copy buf =>
    obtain ⟨hlen, hbuf⟩ := hpc
    have hside : (s.threads t).side = .read := by simp [ht, Thread.side]
    simp only [readVal]
    split
    · rename_i hlt
      refine h.move (hok ⟨?_, ?_⟩) (by rw [ht]; rfl) (by rw [ht]; rfl)
      · rw [List.length_append, List.length_singleton]
        omega
      · rw [List.length_append, List.length_singleton, List.range_succ, List.map_append, ← hbuf]
        rfl
    · obtain ⟨hpos, hheld⟩ := h.held.readUnlock hside
      have hmod : (s.readers + 2 ^ 32 - 1) % 2 ^ 32 = s.readers - 1 := by
        unfold uint32Max at hle
        omega
      rw [← hmod] at hheld
      refine h.pass ⟨hlo, hhi, hfits, ?_⟩ (by rw [ht]; rfl) hheld
      -- a reader is inside, so nobody writes the value, and it was copied to the last byte
      rintro _ ⟨⟩
      have hlast : Settled s c.list n := by
        rcases h.settled _ n htarget.on (htarget.key ▸ hlo) (htarget.key ▸ hhi) with ⟨u, hu⟩ | hs
        · have hwrite := side_of_writes hu
          have hne : t ≠ u := by
            rintro rfl
            simp [hside] at hwrite
          have hout := h.held.alone hwrite hne
          simp [hside] at hout
        · exact hs
      unfold Settled at hlast
      rw [htarget.key] at hlast
      have hall : buf.length = (s.lists c.list).valBytes := by omega
      have hval : buf = s.value c.list n := by
        unfold State.value
        rw [← hall]
        exact hbuf
      rw [hval]
      exact List.mem_of_mem_head? hlast

omit [DecidableEq ι] [DecidableEq N] in
/-- Two lists do not share a node, so a key of a list tells a node. -/
lemma Inv.ne_target (h : Inv s chain) {l : ι} {m : N} (hn : Target s chain c n) (hm : m ∈ chain l)
    (hne : m ≠ n) : l ≠ c.list ∨ (s.node m).key ≠ c.key := by
  by_contra hcon
  obtain ⟨rfl, hk⟩ : l = c.list ∧ (s.node m).key = c.key := by simpa [not_or] using hcon
  exact hne (h.target_eq hn hm hk)

omit [DecidableEq ι] [DecidableEq N] in
lemma Inv.settled_ne (h : Inv s chain) (hout : ∀ u, u ≠ t → (s.threads u).side = .out)
    (hw : ∀ m, (s.threads t).writes = some m → m = n) {l : ι} {m : N} (hm : m ∈ chain l)
    (hlo : intptrMin < (s.node m).key) (hhi : (s.node m).key < intptrMax) (hne : m ≠ n) :
    Settled s l m := by
  rcases h.settled l m hm hlo hhi with ⟨u, hu⟩ | hs
  · by_cases hut : u = t
    · exact absurd (hw m (hut ▸ hu)) hne
    · have hwrite := side_of_writes hu
      rw [hout u hut] at hwrite
      cases hwrite
  · exact hs

theorem writeVal_inv (h : Inv s chain) {weak : Bool} {val : Bytes} {pc : WritePc}
    (ht : s.threads t = .call c (.write val n pc)) : Inv (writeVal s t c val n weak pc) chain := by
  obtain ⟨hlo, hhi, hfits, htarget, hfunc, hpc⟩ := h.calls t c _ ht
  have hok : ∀ {pc'}, WriteOk s c val n pc' → CallOk s chain c (.write val n pc') := fun hpc' =>
    ⟨hlo, hhi, hfits, htarget, hfunc, hpc'⟩
  have hlen : val.length = (s.lists c.list).valBytes := by
    rw [hfunc] at hfits
    simpa [Func.fits] using hfits
  cases pc with
  | load =>
    simp only [writeVal]
    by_cases hne : s.readers = 0
    · rw [if_neg (not_not.mpr hne)]
      exact h.move (hok hne) (by rw [ht]; rfl) (by rw [ht]; rfl)
    · rw [if_pos hne]
      exact h.move (hok trivial) (by rw [ht]) (by rw [ht])
  | cas orig =>
    simp only [writeVal]
    split
    · rename_i hcas
      obtain ⟨-, rfl⟩ : weak = false ∧ s.readers = orig := by simpa using hcas
      have hzero : s.readers = 0 := hpc
      have hfree := h.held
      rw [hzero] at hfree
      obtain ⟨hout, hheld⟩ := hfree.writeLock (t := t) (by decide)
      refine h.go (fun u hu => ⟨rfl, rfl, fun l k v hv => ?_, fun hin => absurd (hout u) hin⟩) rfl
        hheld ⟨hlo, hhi, hfits, ⟨htarget.on, htarget.key⟩, hfunc, Nat.zero_le _, ?_, by simp⟩
        (fun l m hm hmlo hmhi => ?_) rfl rfl
      · by_cases hl : l = c.list
        · subst hl
          by_cases hk : k = c.key
          · subst hk
            simp [hv]
          · simpa [hk] using hv
        · simpa [hl] using hv
      · simp
      · by_cases hmn : m = n
        · exact .inr (.inl (by rw [hmn]; rfl))
        · have hs := h.settled_ne (t := t) (fun u _ => hout u) (by simp [ht, Thread.writes])
            hm hmlo hmhi hmn
          refine .inr (.inr ?_)
          rcases h.ne_target htarget hm hmn with hl | hk
          · simpa [Settled, State.value, hl] using hs
          · by_cases hl : l = c.list
            · subst hl
              simpa [Settled, State.value, hk] using hs
            · simpa [Settled, State.value, hl] using hs
    · exact h.move (hok trivial) (by rw [ht]; rfl) (by rw [ht]; rfl)
  | copy i =>
    obtain ⟨hi, hstored, hbytes⟩ := hpc
    have hside : (s.threads t).side = .write := by simp [ht, Thread.side]
    have hout : ∀ u, u ≠ t → (s.threads u).side = .out := fun u hu => h.held.alone hside hu
    have hothers := fun l m => h.settled_ne (n := n) (l := l) (m := m) hout
      (by simp [ht, Thread.writes])
    simp only [writeVal]
    split
    · rename_i hlt
      refine h.go (fun u hu => ⟨rfl, rfl, fun l k v hv => hv, fun hin => absurd (hout u hu) hin⟩)
        rfl ?_ ⟨hlo, hhi, hfits, ⟨htarget.on, htarget.key⟩, hfunc, hlt, hstored, fun j hj => ?_⟩
        (fun l m hm hmlo hmhi => ?_) rfl rfl
      · refine h.held.congr fun u => ?_
        by_cases hu : u = t
        · rw [hu, Function.update_self, hside]
          rfl
        · simp [hu]
      · by_cases hji : j = i
        · simp [hji]
        · simpa [hji] using hbytes j (by omega)
      · by_cases hmn : m = n
        · exact .inr (.inl (by rw [hmn]; rfl))
        · have hs := hothers l m hm hmlo hmhi hmn
          exact .inr (.inr (by simpa [Settled, State.value, hmn] using hs))
    · refine h.go (x := { s with readers := 0 })
        (fun u hu => ⟨rfl, rfl, fun l k v hv => hv, fun _ => ⟨rfl, rfl⟩⟩) rfl
        (h.held.writeUnlock hside) ⟨hlo, hhi, hfits, by rintro _ ⟨⟩⟩
        (fun l m hm hmlo hmhi => .inr (.inr ?_)) rfl rfl
      show Settled s l m
      by_cases hmn : m = n
      · -- the last byte was copied
        subst hmn
        obtain rfl := h.target_list htarget hm
        have hall : i = (s.lists c.list).valBytes := by omega
        have hval : s.value c.list m = val := by
          refine List.ext_getElem (by simp [State.value, hlen]) fun j hj hj' => ?_
          simp only [State.value, List.getElem_map, List.getElem_range]
          rw [hbytes j (by omega), List.getD_eq_getElem?_getD, List.getElem?_eq_getElem hj']
          rfl
        unfold Settled
        rw [htarget.key, hstored, hval]
      · exact hothers l m hm hmlo hmhi hmn

omit [DecidableEq ι] in
lemma exec_peek {weak : Bool} {cmd : Cmd N Empty R} {r : R} (h : cmd.peek s.node = some r) :
    s.exec weak cmd = some (s, r) := by
  unfold Cmd.peek at h
  split at h
  · obtain rfl := by simpa using h
    rfl
  · obtain rfl := by simpa using h
    rfl
  · simp at h

theorem threadStep_inv (h : Inv s chain) {weak : Bool} (hs : threadStep s t weak = some s') :
    Inv s' chain := by
  unfold threadStep at hs
  cases ht : s.threads t with
  | idle => simp [ht] at hs
  | call c pc =>
    rw [ht] at hs
    obtain ⟨hlo, hhi, hfits, hpc⟩ := h.calls t c pc ht
    cases pc with
    | returned r => simp at hs
    | null => simp at hs
    | read n pc =>
      obtain rfl : readVal s t c n weak pc = s' := by simpa using hs
      exact readVal_inv h ht
    | write val n pc =>
      obtain rfl : writeVal s t c val n weak pc = s' := by simpa using hs
      exact writeVal_inv h ht
    | check curr =>
      obtain rfl := by simpa using hs
      by_cases hk : (s.node curr).key = c.key
      · rw [if_pos hk]
        have htarget : Target s chain c curr := ⟨hpc, hk⟩
        cases hf : c.func with
        | search val =>
          cases val with
          | false =>
            exact h.move ⟨hlo, hhi, hfits, by rintro _ ⟨⟩⟩ (by rw [ht]; rfl) (by rw [ht]; rfl)
          | true =>
            exact h.move ⟨hlo, hhi, hfits, htarget, trivial⟩ (by rw [ht]; rfl) (by rw [ht]; rfl)
        | update val =>
          cases val with
          | none =>
            exact h.move ⟨hlo, hhi, hfits, by rintro _ ⟨⟩⟩ (by rw [ht]; rfl) (by rw [ht]; rfl)
          | some val =>
            exact h.move ⟨hlo, hhi, hfits, htarget, hf, trivial⟩ (by rw [ht]; rfl) (by rw [ht]; rfl)
      · rw [if_neg hk]
        exact h.move ⟨hlo, hhi, hfits, by rintro _ ⟨⟩⟩ (by rw [ht]; rfl) (by rw [ht]; rfl)
    | searchFrom pc =>
      obtain ⟨tail, hclean⟩ := h.clean c.list
      rcases searchFrom_clean (fun a b => a == b) hclean hhi hpc with
        ⟨pc', hpeek, hat, -⟩ | ⟨curr, nxt, hpeek, hbetween⟩
      · simp only [exec_peek hpeek, Option.map_some] at hs
        obtain rfl := by simpa using hs
        exact h.move ⟨hlo, hhi, hfits, hat⟩ (by rw [ht]; rfl) (by rw [ht]; rfl)
      · simp only [exec_peek hpeek, Option.map_some] at hs
        obtain rfl := by simpa using hs
        exact h.move ⟨hlo, hhi, hfits, hbetween.on⟩ (by rw [ht]; rfl) (by rw [ht]; rfl)

/-! ### Any run -/

theorem inv_step {a : Act ι} (h : Inv s chain) (hs : next s a = some s') : Inv s' chain := by
  cases a with
  | call t c =>
    simp only [next] at hs
    split at hs
    · rename_i hcall
      obtain ⟨hout, hlo, hhi, hfits⟩ := hcall
      obtain rfl := by simpa using hs
      obtain ⟨tail, hclean⟩ := h.clean c.list
      have hside : (s.threads t).side = .out ∧ (s.threads t).writes = none := by
        unfold Thread.outside at hout
        split at hout <;> simp_all [Thread.side, Thread.writes]
      refine h.move ⟨hlo, hhi, hfits, hclean.head_mem, ?_⟩ (by rw [hside.2]; rfl)
        (by rw [hside.1]; rfl)
      rw [hclean.head_key]
      exact hlo.le
    · simp at hs
  | step t weak => exact threadStep_inv h hs

/-- What holds of `readers` and of the values that `list_search` delivers. -/
structure NotTorn (s : State ι N) : Prop where
  alone : ∀ t u, (s.threads t).side = .write → u ≠ t → (s.threads u).side = .out
  writer : ∀ t, (s.threads t).side = .write → s.readers = uint32Max
  readers : (∀ t, (s.threads t).side ≠ .write) → {t | (s.threads t).side = .read}.Finite ∧
    s.readers = {t | (s.threads t).side = .read}.ncard
  bound : s.readers ≤ uint32Max
  whole : ∀ t c buf, s.threads t = .call c (.returned (.ok (some buf))) →
    buf ∈ s.stored c.list c.key

/-- **Values are never torn**: whoever writes one is alone, `readers` tells who is inside, and
every value delivered was stored as a whole. -/
theorem list_values_whole {s₀ : State ι N} (h₀ : Inserted s₀ chain)
    (h : Reach next (fun _ _ => True) s₀ s) : NotTorn s := by
  have hinv : Inv s chain :=
    h.inv (I := fun s => Inv s chain) (inserted_inv h₀) fun _ _ _ ht _ => inv_step ht
  exact {
    alone := fun t u ht hu => hinv.held.alone ht hu
    writer := fun t ht => hinv.held.word_eq_top ht
    readers := fun hno => ⟨hinv.held.finite, hinv.held.word_eq_ncard hno⟩
    bound := hinv.held.word_le
    whole := fun t c buf ht => (hinv.calls t c _ ht).pc buf rfl }

/-- Two lists with one key each, whose values are two bytes long. -/
def twoLists : State Bool ℕ where
  lists l := ⟨bif l then 3 else 0, 2⟩
  node n :=
    ⟨⟨if n % 3 = 2 then none else some (n + 1), false, false⟩, none,
      if n % 3 = 0 then intptrMin else if n % 3 = 1 then 5 else intptrMax, none⟩
  bytes _ _ := 0
  readers := 0
  threads _ := .idle
  stored _ _ := [[0, 0]]

lemma twoLists_inserted :
    Inserted twoLists fun l => bif l then [3, 4, 5] else [0, 1, 2] where
  clean l := by
    cases l
    · refine ⟨2, ⟨?_, ?_, ?_, ?_, ?_, ?_, ?_, ?_, ?_, ?_, ?_, ?_, ?_, ?_⟩, ?_, ?_⟩ <;>
        simp [twoLists, getUnmarkedRef, getFlaggedRef, intptrMin, intptrMax]
    · refine ⟨5, ⟨?_, ?_, ?_, ?_, ?_, ?_, ?_, ?_, ?_, ?_, ?_, ?_, ?_, ?_⟩, ?_, ?_⟩ <;>
        simp [twoLists, getUnmarkedRef, getFlaggedRef, intptrMin, intptrMax]
  apart l l' hne n hn := by
    cases l <;> cases l' <;> simp_all <;> omega
  stored l n hn hlo hhi := by
    simp [twoLists, State.value]
  readers := rfl
  threads t := rfl

/-- A thread updates the value of 5 byte by byte while a search of 5 waits to read it. -/
theorem list_values_whole_two : ∃ s, Reach next (fun _ _ => True) twoLists s ∧
    s.threads 2 = .call ⟨true, 5, .search true⟩ (.returned (.ok (some [1, 2]))) ∧ NotTorn s := by
  obtain ⟨s, hs, hp⟩ := exists_reach next (fun _ _ => True) twoLists
    (fun s => decide (s.threads 2 = .call ⟨true, 5, .search true⟩ (.returned (.ok (some [1, 2])))))
    (List.flatten [[.call 1 ⟨true, 5, .update (some [1, 2])⟩, .call 2 ⟨true, 5, .search true⟩],
      List.replicate 9 (.step 1 false), List.replicate 10 (.step 2 true),
      List.replicate 3 (.step 1 false), List.replicate 2 (.step 2 true),
      List.replicate 5 (.step 2 false)]) (by decide +kernel)
  exact ⟨s, hs, of_decide_eq_true hp, list_values_whole twoLists_inserted hs⟩

end CoopTasks.ListCopy
