import CoopTasks.ThreadsSuspend

/-!
Threads that rename threads.

`thrd_set_name` copies a thread's control block out of `tcbs`, puts the name into the copy, tells
the system, and writes the whole copy back. Each of the three is one step here, as the list makes
its own calls look; nothing is held in between. `asked` is the name that the last thread to tell
the system was given.
-/

namespace CoopTasks.ThreadNames

open CoopTasks.Machine
open CoopTasks.ThreadsSuspend (Name Errno strncpy)

/-- A string, without the byte that ends it. -/
def CString : Type := { bytes : List UInt8 // ∀ b ∈ bytes, b ≠ 0 }

/-- The string in an array. -/
def cString (name : Name) : Name := name.takeWhile (· ≠ 0)

/-- `struct thread_control_block`; functions and objects are their addresses. -/
structure Tcb where
  tid : ℤ
  ptid : ℤ
  thr : ℤ
  pthr : ℤ
  func : ℕ
  arg : ℕ
  name : Name
  prms : ℕ
  suspend : ℕ
  deriving DecidableEq

/-- Where a call of `thrd_set_name` stands; after the search it has its copy, renamed. -/
inductive Call
  | idle
  | search (thr : ℤ) (name : CString)
  | setName (thr : ℤ) (name : CString) (tcb : Tcb)
  | update (thr : ℤ) (tcb : Tcb)
  | returned (res : Except Errno Unit)

/-- The entries of `tcbs`, what the system was told last, and the calls. -/
structure State where
  tcbs : ℤ → Option Tcb
  system : ℤ → Option Name
  asked : ℤ → Option CString
  calls : ℕ → Call

inductive Act
  | call (t : ℕ) (thr : ℤ) (name : CString)
  | step (t : ℕ)

def State.setCall (s : State) (t : ℕ) (c : Call) : State :=
  { s with calls := Function.update s.calls t c }

/-- The thread that a call in progress renames. -/
def Call.target : Call → Option ℤ
  | .search thr _ | .setName thr _ _ | .update thr _ => some thr
  | .idle | .returned _ => none

/-- The thread `t` takes the next step of its `thrd_set_name`. -/
def thrdSetName (s : State) (t : ℕ) : Option State :=
  match s.calls t with
  | .idle | .returned _ => none
  | .search thr name =>
    match s.tcbs thr with
    | none => some (s.setCall t (.returned (.error .enoent)))
    | some tcb => some (s.setCall t (.setName thr name
        { tcb with name := strncpy tcb.name name.1 15 }))
  | .setName thr name tcb =>
    some ({ s with
      system := Function.update s.system tcb.thr (some (cString tcb.name))
      asked := Function.update s.asked tcb.thr (some name) }.setCall t (.update thr tcb))
  | .update thr tcb =>
    match s.tcbs thr with
    | none => some (s.setCall t (.returned (.error .ebade)))
    | some _ =>
      some ({ s with tcbs := Function.update s.tcbs thr (some tcb) }.setCall t (.returned (.ok ())))

def next (s : State) : Act → Option State
  | .call t thr name =>
    if (s.calls t).target = none then some (s.setCall t (.search thr name)) else none
  | .step t => thrdSetName s t

/-- `thrd_get_name` into an array. -/
def thrdGetName (s : State) (thr : ℤ) (name : Name) (len : ℕ) : Except Errno Name :=
  match s.tcbs thr with
  | none => .error .enoent
  | some tcb => .ok (strncpy name (cString tcb.name) len)

/-- No call has begun, and the threads are registered as `internal_entry` does it. -/
structure Start (registered : ℤ → Option Tcb) (s : State) : Prop where
  tcbs : s.tcbs = registered
  system : ∀ thr, s.system thr = none
  asked : ∀ thr, s.asked thr = none
  calls : ∀ t, s.calls t = .idle
  own : ∀ thr tcb, registered thr = some tcb → tcb.thr = thr ∧ tcb.name = List.replicate 16 0

/-- Whether a call still has a name to tell the system, or the one that it told is the one that
the system has. -/
def Call.Current (system : ℤ → Option Name) (thr : ℤ) : Call → Prop
  | .search thr' _ | .setName thr' _ _ => thr' = thr
  | .update thr' tcb => thr' = thr ∧ system thr = some (cString tcb.name)
  | .idle | .returned _ => False

/-- A name that the system has no longer is written back only while another call is current. -/
def InTime (s : State) : Act → Prop
  | .step t =>
    match s.calls t with
    | .update thr tcb =>
      s.system thr = some (cString tcb.name) ∨ ∃ u, u ≠ t ∧ (s.calls u).Current s.system thr
    | _ => True
  | .call _ _ _ => True

/-- Two control blocks differ in their names at most. -/
def Tcb.Like (tcb tcb' : Tcb) : Prop := { tcb with name := tcb'.name } = tcb'

/-- A name of at most 15 bytes, and a byte that stays zero. -/
def Terminated (name : Name) : Prop := name.drop 15 = [0]

variable {s s' s₀ : State} {registered : ℤ → Option Tcb} {tcb tcb' : Tcb} {name : CString}
  {buf : Name} {thr : ℤ} {t u : ℕ} {a : Act}

@[simp] lemma setCall_self {c : Call} : (s.setCall t c).calls t = c := by simp [State.setCall]
lemma setCall_ne {c : Call} (h : u ≠ t) : (s.setCall t c).calls u = s.calls u := by
  simp [State.setCall, h]
@[simp] lemma setCall_tcbs {c : Call} : (s.setCall t c).tcbs = s.tcbs := rfl
@[simp] lemma setCall_system {c : Call} : (s.setCall t c).system = s.system := rfl
@[simp] lemma setCall_asked {c : Call} : (s.setCall t c).asked = s.asked := rfl

/-! ### Names in arrays -/

lemma cString_append_zeros (k : ℕ) (rest : Name) {bytes : Name} (h : ∀ b ∈ bytes, b ≠ 0) :
    cString (bytes ++ List.replicate (k + 1) 0 ++ rest) = bytes := by
  unfold cString
  rw [List.append_assoc, List.takeWhile_append_of_pos fun b hb => by simpa using h b hb]
  simp [List.replicate_succ]

lemma take_ne_zero (name : CString) (n : ℕ) : ∀ b ∈ name.1.take n, b ≠ 0 := fun b hb =>
  name.2 b (List.mem_of_mem_take hb)

lemma terminated_strncpy (h : Terminated buf) : Terminated (strncpy buf name.1 15) := by
  have hlen : (name.1.take 15 ++ List.replicate (15 - name.1.length) 0).length = 15 := by
    rw [List.length_append, List.length_take, List.length_replicate]
    omega
  unfold Terminated strncpy
  rw [List.drop_left' hlen]
  exact h

lemma cString_strncpy (h : Terminated buf) :
    cString (strncpy buf name.1 15) = name.1.take 15 := by
  unfold strncpy
  rw [h, List.append_assoc, ← List.replicate_succ', ← List.append_nil (_ ++ _)]
  exact cString_append_zeros _ _ (take_ne_zero name 15)

/-! ### One step -/

/-- What can happen: a call begins, finds its control block or does not, tells the system a name,
writes its copy back or finds the entry gone. -/
inductive Step (s : State) : Act → State → Prop
  | begin {t : ℕ} {thr : ℤ} {name : CString} (h : (s.calls t).target = none) :
      Step s (.call t thr name) (s.setCall t (.search thr name))
  | missing {t : ℕ} {thr : ℤ} {name : CString}
      (hc : s.calls t = .search thr name) (h : s.tcbs thr = none) :
      Step s (.step t) (s.setCall t (.returned (.error .enoent)))
  | copy {t : ℕ} {thr : ℤ} {name : CString} {tcb : Tcb}
      (hc : s.calls t = .search thr name) (h : s.tcbs thr = some tcb) :
      Step s (.step t)
        (s.setCall t (.setName thr name { tcb with name := strncpy tcb.name name.1 15 }))
  | tell {t : ℕ} {thr : ℤ} {name : CString} {tcb : Tcb}
      (hc : s.calls t = .setName thr name tcb) :
      Step s (.step t) ({ s with
        system := Function.update s.system tcb.thr (some (cString tcb.name))
        asked := Function.update s.asked tcb.thr (some name) }.setCall t (.update thr tcb))
  | gone {t : ℕ} {thr : ℤ} {tcb : Tcb}
      (hc : s.calls t = .update thr tcb) (h : s.tcbs thr = none) :
      Step s (.step t) (s.setCall t (.returned (.error .ebade)))
  | write {t : ℕ} {thr : ℤ} {tcb tcb' : Tcb}
      (hc : s.calls t = .update thr tcb) (h : s.tcbs thr = some tcb') :
      Step s (.step t)
        ({ s with tcbs := Function.update s.tcbs thr (some tcb) }.setCall t (.returned (.ok ())))

lemma next_step (hs : next s a = some s') : Step s a s' := by
  cases a with
  | call t thr name =>
    simp only [next] at hs
    split at hs
    · rename_i h
      obtain rfl := by simpa using hs
      exact .begin h
    · simp at hs
  | step t =>
    simp only [next, thrdSetName] at hs
    split at hs
    · simp at hs
    · simp at hs
    · rename_i hc
      split at hs <;> rename_i h <;> obtain rfl := by simpa using hs
      · exact .missing hc h
      · exact .copy hc h
    · rename_i hc
      obtain rfl := by simpa using hs
      exact .tell hc
    · rename_i hc
      split at hs <;> rename_i h <;> obtain rfl := by simpa using hs
      · exact .gone hc h
      · exact .write hc h

/-! ### What every run keeps -/

/-- A control block of the thread `thr`, as it was registered but for its name. -/
def Of (registered : ℤ → Option Tcb) (thr : ℤ) (tcb : Tcb) : Prop :=
  ∃ tcb₀, registered thr = some tcb₀ ∧ tcb.Like tcb₀ ∧ tcb.thr = thr ∧ Terminated tcb.name

/-- The copy that a call holds. -/
def Call.Ok (registered : ℤ → Option Tcb) : Call → Prop
  | .setName thr name tcb => Of registered thr tcb ∧ cString tcb.name = name.1.take 15
  | .update thr tcb => Of registered thr tcb
  | _ => True

structure Inv (registered : ℤ → Option Tcb) (s : State) : Prop where
  stored : ∀ thr tcb, s.tcbs thr = some tcb → Of registered thr tcb
  kept : ∀ thr, registered thr ≠ none → s.tcbs thr ≠ none
  copies : ∀ t, (s.calls t).Ok registered
  told : ∀ thr, s.system thr = (s.asked thr).map fun name => name.1.take 15

lemma Start.inv (h : Start registered s) : Inv registered s where
  stored thr tcb ht := by
    rw [h.tcbs] at ht
    obtain ⟨hown, hname⟩ := h.own thr tcb ht
    exact ⟨tcb, ht, rfl, hown, by rw [hname]; rfl⟩
  kept thr ht := by rwa [h.tcbs]
  copies t := by rw [h.calls]; trivial
  told thr := by rw [h.system, h.asked]; rfl

lemma Of.rename (h : Of registered thr tcb) (name : CString) :
    Of registered thr { tcb with name := strncpy tcb.name name.1 15 } := by
  obtain ⟨tcb₀, hreg, hlike, hthr, hterm⟩ := h
  exact ⟨tcb₀, hreg, hlike, hthr, terminated_strncpy hterm⟩

lemma Inv.setCall (h : Inv registered s) {c : Call} (hc : c.Ok registered) :
    Inv registered (s.setCall t c) where
  stored := h.stored
  kept := h.kept
  told := h.told
  copies u := by
    by_cases hu : u = t
    · rw [hu, setCall_self]
      exact hc
    · rw [setCall_ne hu]
      exact h.copies u

lemma inv_step (h : Inv registered s) (hs : Step s a s') : Inv registered s' := by
  cases hs with
  | begin | missing | gone => exact h.setCall trivial
  | copy hc ht =>
    have hof := h.stored _ _ ht
    exact h.setCall ⟨hof.rename _, cString_strncpy hof.choose_spec.2.2.2⟩
  | @tell t thr name tcb hc =>
    obtain ⟨hof, hname⟩ : (Call.setName thr name tcb).Ok registered := hc ▸ h.copies t
    refine Inv.setCall ?_ (show (Call.update thr tcb).Ok registered from hof)
    refine ⟨h.stored, h.kept, h.copies, fun thr' => ?_⟩
    by_cases ht : thr' = tcb.thr
    · subst ht
      simp [hname]
    · simp [ht, h.told]
  | @write t thr tcb tcb' hc ht =>
    have hof : Of registered thr tcb := by
      have := h.copies t
      rwa [hc] at this
    refine Inv.setCall ?_ (show (Call.returned _).Ok registered from trivial)
    refine ⟨fun thr' tcb'' ht' => ?_, fun thr' hreg => ?_, h.copies, h.told⟩
    · by_cases hthr : thr' = thr
      · subst hthr
        obtain rfl : tcb = tcb'' := by simpa using ht'
        exact hof
      · exact h.stored thr' tcb'' (by simpa [hthr] using ht')
    · by_cases hthr : thr' = thr
      · simp [hthr]
      · simpa [hthr] using h.kept thr' hreg

/-! ### The name that stays -/

lemma Call.Current.target {c : Call} {system : ℤ → Option Name} (h : c.Current system thr) :
    c.target = some thr := by
  cases c with
  | search | setName => exact congrArg some h
  | update => exact congrArg some h.1
  | idle | returned => exact h.elim

lemma Call.Current.congr {c : Call} {system system' : ℤ → Option Name}
    (h : c.Current system thr) (he : system' thr = system thr) : c.Current system' thr := by
  cases c with
  | search | setName => exact h
  | update => exact ⟨h.1, he.trans h.2⟩
  | idle | returned => exact h.elim

/-- The stored name is the system's, unless a call will see to that. -/
def Agrees (thr : ℤ) (s : State) : Prop :=
  s.system thr = none ∨ (∃ tcb, s.tcbs thr = some tcb ∧ s.system thr = some (cString tcb.name)) ∨
    ∃ u, (s.calls u).Current s.system thr

/-- The stored name is another than the system's, and no call will see to that. -/
def Lost (thr : ℤ) (s : State) : Prop :=
  (∃ tcb, s.tcbs thr = some tcb ∧ s.system thr ≠ some (cString tcb.name)) ∧
    ∀ u, ¬ (s.calls u).Current s.system thr

lemma Agrees.go (h : Agrees thr s) {x : State} {c : Call} (hcalls : x.calls = s.calls)
    (htcbs : x.tcbs thr = s.tcbs thr) (hsys : x.system thr = s.system thr)
    (hc : (s.calls t).Current s.system thr → c.Current s.system thr) :
    Agrees thr (x.setCall t c) := by
  obtain hnone | ⟨tcb, hstored, hname⟩ | ⟨u, hu⟩ := h
  · exact .inl (hsys.trans hnone)
  · exact .inr (.inl ⟨tcb, htcbs.trans hstored, hsys.trans hname⟩)
  · refine .inr (.inr ⟨u, ?_⟩)
    by_cases hut : u = t
    · subst hut
      rw [setCall_self]
      exact (hc hu).congr hsys
    · rw [setCall_ne hut, hcalls]
      exact hu.congr hsys

lemma agrees_step (hI : Inv registered s) (hreg : registered thr ≠ none) (h : Agrees thr s)
    (hok : InTime s a) (hs : Step s a s') : Agrees thr s' := by
  have hother : ∀ {t thr'}, (s.calls t).target = some thr' → thr ≠ thr' → ∀ {c : Call},
      (s.calls t).Current s.system thr → c.Current s.system thr := fun ht hne _ hcur =>
    absurd (by simpa [ht] using hcur.target.symm) hne
  cases hs with
  | begin ht => exact h.go rfl rfl rfl fun hcur => by simp [hcur.target] at ht
  | @missing t thr' name hc hnone | @gone t thr' tcb hc hnone =>
    by_cases hthr : thr = thr'
    · exact absurd (hthr ▸ hnone) (hI.kept thr hreg)
    · exact h.go rfl rfl rfl (hother (by rw [hc]; rfl) hthr)
  | copy hc ht =>
    refine h.go rfl rfl rfl fun hcur => ?_
    rw [hc] at hcur
    exact hcur
  | @tell t thr' name tcb hc =>
    obtain ⟨⟨-, -, -, hown, -⟩, -⟩ : (Call.setName thr' name tcb).Ok registered :=
      hc ▸ hI.copies t
    by_cases hthr : thr = thr'
    · -- the call has told the system its name, and has it in its copy
      refine .inr (.inr ⟨t, ?_⟩)
      rw [setCall_self]
      exact ⟨hthr.symm, by simp [hthr, hown]⟩
    · exact h.go rfl rfl (by simp [hown, hthr]) (hother (by rw [hc]; rfl) hthr)
  | @write t thr' tcb tcb' hc ht =>
    by_cases hthr : thr = thr'
    · subst hthr
      simp only [InTime, hc] at hok
      obtain hname | ⟨u, hu, hcur⟩ := hok
      · exact .inr (.inl ⟨tcb, by simp, hname⟩)
      · exact .inr (.inr ⟨u, by rw [setCall_ne hu]; exact hcur⟩)
    · exact h.go rfl (by simp [hthr]) rfl (hother (by rw [hc]; rfl) hthr)

lemma lost_step (hI : Inv registered s) (h : Lost thr s) (hs : Step s (.step t) s') :
    Lost thr s' := by
  obtain ⟨⟨tcb₀, hstored, hname⟩, hlost⟩ := h
  have hcalls : ∀ {x : State} {c : Call}, x.calls = s.calls → x.system thr = s.system thr →
      ¬ c.Current s.system thr → ∀ u, ¬ ((x.setCall t c).calls u).Current x.system thr := by
    intro x c hx hsys hc u hu
    have hu := hu.congr hsys.symm
    by_cases hut : u = t
    · rw [hut, setCall_self] at hu
      exact hc hu
    · rw [setCall_ne hut, hx] at hu
      exact hlost u hu
  have hcur := hlost t
  cases hs with
  | missing | gone => exact ⟨⟨tcb₀, hstored, hname⟩, hcalls rfl rfl id⟩
  | copy hc ht =>
    rw [hc] at hcur
    exact ⟨⟨tcb₀, hstored, hname⟩, hcalls rfl rfl hcur⟩
  | @tell _ thr' name tcb hc =>
    obtain ⟨⟨-, -, -, hown, -⟩, -⟩ : (Call.setName thr' name tcb).Ok registered :=
      hc ▸ hI.copies t
    rw [hc] at hcur
    have hthr : thr ≠ tcb.thr := fun he => hcur (hown.symm.trans he.symm)
    have hsys : (Function.update s.system tcb.thr (some (cString tcb.name))) thr = s.system thr :=
      Function.update_of_ne hthr _ _
    refine ⟨⟨tcb₀, hstored, fun he => hname (hsys.symm.trans he)⟩, hcalls rfl hsys ?_⟩
    exact fun hc' => hcur hc'.1
  | @write _ thr' tcb tcb' hc ht =>
    rw [hc] at hcur
    refine ⟨?_, hcalls rfl rfl id⟩
    by_cases hthr : thr = thr'
    · subst hthr
      exact ⟨tcb, by simp, fun he => hcur ⟨rfl, he⟩⟩
    · exact ⟨tcb₀, by simpa [hthr] using hstored, hname⟩

lemma lost_of_late (hI : Inv registered s) (hlate : ¬ InTime s a) (hs : Step s a s') :
    ∃ t thr tcb, a = .step t ∧ s.calls t = .update thr tcb ∧ registered thr ≠ none ∧
      Lost thr s' := by
  cases hs with
  | begin => exact absurd trivial hlate
  | missing hc | copy hc | tell hc => exact absurd (by simp [InTime, hc]) hlate
  | @gone t thr tcb hc hnone =>
    obtain ⟨tcb₀, hreg, -⟩ : (Call.update thr tcb).Ok registered := hc ▸ hI.copies t
    exact absurd hnone (hI.kept thr (by simp [hreg]))
  | @write t thr tcb tcb' hc ht =>
    obtain ⟨tcb₀, hreg, -⟩ : (Call.update thr tcb).Ok registered := hc ▸ hI.copies t
    simp only [InTime, hc, not_or, not_exists, not_and] at hlate
    refine ⟨t, thr, tcb, rfl, hc, by simp [hreg], ⟨tcb, by simp, hlate.1⟩, fun u hu => ?_⟩
    by_cases hut : u = t
    · rw [hut, setCall_self] at hu
      exact hu
    · rw [setCall_ne hut] at hu
      exact hlate.2 u hut hu

/-! ### Runs -/

lemma inv_of_reach {ok : State → Act → Prop} (h₀ : Start registered s₀)
    (h : Reach next ok s₀ s) : Inv registered s :=
  h.inv h₀.inv fun _ _ _ hI _ hs => inv_step hI (next_step hs)

/-- **Other fields**: whatever calls are under way, a control block is the one that was registered
but for its name. -/
theorem thrd_set_name_keeps (h₀ : Start registered s₀) (h : Reach next (fun _ _ => True) s₀ s)
    (hreg : registered thr = some tcb) : ∃ tcb', s.tcbs thr = some tcb' ∧ tcb'.Like tcb := by
  have hI := inv_of_reach h₀ h
  obtain ⟨tcb', hstored⟩ := Option.ne_none_iff_exists'.mp (hI.kept thr (by simp [hreg]))
  obtain ⟨tcb₀, hreg₀, hlike, -⟩ := hI.stored thr tcb' hstored
  obtain rfl : tcb = tcb₀ := by simpa [hreg] using hreg₀
  exact ⟨tcb', hstored, hlike⟩

lemma agrees_of_reach (h₀ : Start registered s₀) (h : Reach next InTime s₀ s)
    (hreg : registered thr ≠ none) : Agrees thr s := by
  have hrun : Inv registered s ∧ Agrees thr s := by
    apply h.inv (I := fun s => Inv registered s ∧ Agrees thr s) ⟨h₀.inv, .inl (h₀.system thr)⟩
    rintro u a v ⟨hI, hagrees⟩ hok hs
    exact ⟨inv_step hI (next_step hs), agrees_step hI hreg hagrees hok (next_step hs)⟩
  exact hrun.2

lemma thrdGetName_eq (hs : s.tcbs thr = some tcb) (hname : cString tcb.name = name.1.take 15)
    (buf : Name) : ∃ out, thrdGetName s thr buf 16 = .ok out ∧ cString out = name.1.take 15 := by
  refine ⟨strncpy buf (name.1.take 15) 16, by simp only [thrdGetName, hs, hname], ?_⟩
  obtain ⟨k, hk⟩ : ∃ k, 16 - (name.1.take 15).length = k + 1 := by
    rw [List.length_take]
    exact ⟨15 - min 15 name.1.length, by omega⟩
  unfold strncpy
  rw [hk, List.take_of_length_le (by rw [List.length_take]; omega)]
  exact cString_append_zeros k _ (take_ne_zero name 15)

/-- Whether an action is a step of a call that has begun. -/
def Act.isStep : Act → Bool
  | .step _ => true
  | .call _ _ _ => false

/-- **Renames agree**: where names that the system has no longer are written back in time only,
a thread that no call is renaming has the name that the system was told last. Where one is
written back late, the calls under way leave it there. -/
theorem thrd_set_name_agrees (h₀ : Start registered s₀) (h : Reach next InTime s₀ s) :
    (∀ thr tcb₀, registered thr = some tcb₀ → (∀ t, (s.calls t).target ≠ some thr) →
      ∃ tcb, s.tcbs thr = some tcb ∧ tcb.Like tcb₀ ∧ ∀ name, s.asked thr = some name →
        cString tcb.name = name.1.take 15 ∧ s.system thr = some (name.1.take 15) ∧
        ∀ buf, ∃ out, thrdGetName s thr buf 16 = .ok out ∧ cString out = name.1.take 15) ∧
    ∀ a s', ¬ InTime s a → next s a = some s' →
      ∃ t thr tcb, a = .step t ∧ s.calls t = .update thr tcb ∧
        ∀ s'', Reach next (fun _ a => a.isStep = true) s' s'' →
          ∃ tcb', s''.tcbs thr = some tcb' ∧ s''.system thr ≠ some (cString tcb'.name) := by
  have hI := inv_of_reach h₀ h
  refine ⟨fun thr tcb₀ hreg hquiet => ?_, fun a s' hlate hs => ?_⟩
  · obtain ⟨tcb, hstored, hlike⟩ :=
      thrd_set_name_keeps h₀ (h.mono fun _ _ _ => trivial) hreg
    refine ⟨tcb, hstored, hlike, fun name hasked => ?_⟩
    have htold : s.system thr = some (name.1.take 15) := by rw [hI.told, hasked]; rfl
    obtain hnone | ⟨tcb', hstored', hname⟩ | ⟨u, hu⟩ :=
      agrees_of_reach h₀ h (show registered thr ≠ none by simp [hreg])
    · rw [hnone] at htold
      exact absurd htold (by simp)
    · obtain rfl : tcb = tcb' := by simpa [hstored] using hstored'
      obtain heq : name.1.take 15 = cString tcb.name := by simpa [htold] using hname
      exact ⟨heq.symm, htold, thrdGetName_eq hstored heq.symm⟩
    · exact absurd hu.target (hquiet u)
  · obtain ⟨t, thr, tcb, rfl, hc, -, hlost⟩ := lost_of_late hI hlate (next_step hs)
    refine ⟨t, thr, tcb, rfl, hc, fun s'' hrun => ?_⟩
    have hrest : Inv registered s'' ∧ Lost thr s'' := by
      apply hrun.inv (I := fun s => Inv registered s ∧ Lost thr s)
        ⟨inv_step hI (next_step hs), hlost⟩
      rintro u b v ⟨hI', hl⟩ hb hv
      cases b with
      | call => simp [Act.isStep] at hb
      | step => exact ⟨inv_step hI' (next_step hv), lost_step hI' hl (next_step hv)⟩
    exact hrest.2.1

/-! ### Two threads rename a third -/

/-- The thread 7 as it was registered. -/
def seven : Tcb := ⟨70, 10, 7, 1, 4096, 0, List.replicate 16 0, 8192, 12288⟩

/-- Only the thread 7 is registered. -/
def onlySeven (thr : ℤ) : Option Tcb := if thr = 7 then some seven else none

def start : State := ⟨onlySeven, fun _ => none, fun _ => none, fun _ => .idle⟩

lemma start_start : Start onlySeven start where
  tcbs := rfl
  system _ := rfl
  asked _ := rfl
  calls _ := rfl
  own thr tcb h := by
    obtain ⟨rfl, rfl⟩ : thr = 7 ∧ seven = tcb := by simpa [onlySeven] using h
    exact ⟨rfl, rfl⟩

def alpha : CString := ⟨[97], by simp⟩

def beta : CString := ⟨[98], by simp⟩

/-- The calls that have begun have returned 0. -/
def Returned (s : State) : Prop := ∀ t, s.calls t = .idle ∨ s.calls t = .returned (.ok ())

lemma Returned.target_ne (h : Returned s) (t : ℕ) : (s.calls t).target ≠ some thr := by
  rcases h t with hc | hc <;> simp [hc, Call.target]

lemma returned_of_two (h1 : s.calls 1 = .returned (.ok ())) (h2 : s.calls 2 = .returned (.ok ()))
    (hidle : ∀ t, t ≠ 1 → t ≠ 2 → s.calls t = .idle) : Returned s := fun t => by
  by_cases ht1 : t = 1
  · exact .inr (ht1 ▸ h1)
  · by_cases ht2 : t = 2
    · exact .inr (ht2 ▸ h2)
    · exact .inl (hidle t ht1 ht2)

/-- The second thread writes its copy back last, after the first did so late but in time. -/
theorem thrd_set_name_agrees_two : ∃ s, Reach next InTime start s ∧ Returned s ∧
    s.asked 7 = some beta ∧ ∃ tcb, s.tcbs 7 = some tcb ∧ tcb.Like seven ∧
      cString tcb.name = [98] ∧ s.system 7 = some [98] := by
  obtain ⟨s, hrun, hret, hasked⟩ : ∃ s, Reach next InTime start s ∧ Returned s ∧
      s.asked 7 = some beta := by
    refine ⟨_, ((((((((Reach.refl (s := start)).step (l := .call 1 7 alpha) trivial rfl).step
      (l := .call 2 7 beta) trivial rfl).step (l := .step 1) trivial rfl).step
      (l := .step 2) trivial rfl).step (l := .step 1) trivial rfl).step
      (l := .step 2) trivial rfl).step (l := .step 1) ?_ rfl).step (l := .step 2) ?_ rfl, ?_, rfl⟩
    · exact .inr ⟨2, by decide, rfl, rfl⟩
    · exact .inl rfl
    · exact returned_of_two rfl rfl fun t h1 h2 => by simp [State.setCall, h1, h2, start]
  obtain ⟨tcb, hstored, hlike, hname⟩ :=
    (thrd_set_name_agrees start_start hrun).1 7 seven rfl fun t => hret.target_ne t
  obtain ⟨hstr, hsys, -⟩ := hname beta hasked
  exact ⟨s, hrun, hret, hasked, tcb, hstored, hlike, hstr, hsys⟩

/-- The first thread tells the system its name before the second, and writes its copy back after
it: the second name is the system's, and the first is stored. -/
theorem thrd_set_name_differs : ¬ ∀ (registered : ℤ → Option Tcb) (s₀ s : State),
    Start registered s₀ → Reach next (fun _ _ => True) s₀ s → Returned s →
    ∀ thr tcb₀, registered thr = some tcb₀ →
      ∃ tcb, s.tcbs thr = some tcb ∧ tcb.Like tcb₀ ∧ ∀ name, s.asked thr = some name →
        cString tcb.name = name.1.take 15 := by
  intro hall
  obtain ⟨s, hrun, hret, hasked, hstored⟩ : ∃ s, Reach next (fun _ _ => True) start s ∧
      Returned s ∧ s.asked 7 = some beta ∧
      (s.tcbs 7).map (fun tcb => cString tcb.name) = some [97] := by
    refine ⟨_, ((((((((Reach.refl (s := start)).step (l := .call 1 7 alpha) trivial rfl).step
      (l := .call 2 7 beta) trivial rfl).step (l := .step 1) trivial rfl).step
      (l := .step 2) trivial rfl).step (l := .step 1) trivial rfl).step
      (l := .step 2) trivial rfl).step (l := .step 2) trivial rfl).step (l := .step 1) trivial rfl,
      ?_, rfl, rfl⟩
    exact returned_of_two rfl rfl fun t h1 h2 => by simp [State.setCall, h1, h2, start]
  obtain ⟨tcb, htcb, -, hname⟩ := hall onlySeven start s start_start hrun hret 7 seven rfl
  rw [htcb, Option.map_some, hname beta hasked] at hstored
  exact absurd hstored (by decide)

end CoopTasks.ThreadNames
