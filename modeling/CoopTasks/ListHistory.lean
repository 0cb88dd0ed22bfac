import CoopTasks.ListValues

/-!
Runs of a list whose nodes are never given back: keys are kept apart.
-/

namespace CoopTasks.LockFreeList

open CoopTasks.Machine ListMachine

variable {N V : Type*} [DecidableEq N] {s s' s₀ : LinkState N V} {a : LinkAct N V} {c : List N}
  {n m p : N} {t : ℕ} {op : Op V} {mem mem' : N → Node N V} {linked : List N} {e : Effect N}
  {th : Thread N V} {recent moves : List (LinkState N V × LinkAct N V)}

/-! ### Runs -/

/-- What is so after a run with these moves. -/
structure History (moves : List (LinkState N V × LinkAct N V)) (s : LinkState N V) : Prop where
  link : ∃ c, LinkInv s c
  deletes : ∀ t, DeleteOk s.node s.linked (s.threads t)
  segments : ∀ recent earlier, moves = recent ++ earlier → Segment recent s
  called : ∀ t, (s.threads t).outside = false → ∃ op recent, linkMachine.Since moves t op recent
  threads : ∀ t op recent, linkMachine.Since moves t op recent →
    (s.threads t).Runs op ∧ (s.threads t).pc.Knows recent s op
  wanted : ∀ p ∈ s.linked, ∀ n, (s.node p).succ = getFlaggedRef (some n) →
    (s.node n).succ.marked = false → linkMachine.Wanted moves n

lemma history_created (h : LinkCreated s) : History [] s where
  link := ⟨_, created_linkInv h⟩
  deletes t := .of_plain (by
    rcases outside_cases (h.threads t) with ht | ⟨r, ht⟩ <;> rw [ht] <;> rfl)
  segments recent earlier heq := by
    obtain ⟨rfl, -⟩ := List.append_eq_nil_iff.mp heq.symm
    exact segment_nil (created_linkInv h)
  called t hout := by simp [h.threads t] at hout
  threads t op recent hsince := by
    obtain ⟨x, earlier, heq, -⟩ := hsince
    simp at heq
  wanted p hp n hs := by
    have := h.unflagged p
    simp [hs, getFlaggedRef] at this

lemma Move.flags (h : Move mem linked e mem') (hp : p ∈ linked)
    (hs : (mem' p).succ = getFlaggedRef (some n)) (hf : (mem p).succ.flagged = false) :
    e = .flagged n := by
  have hset : ∀ {q r}, r.flagged = false → (setSucc mem q r p).succ = getFlaggedRef (some n) →
      False := fun {q r} hr hs => by
    by_cases hpq : p = q
    · subst hpq
      simp [getFlaggedRef] at hs
      simp [hs] at hr
    · rw [setSucc_ne hpq] at hs
      simp [hs, getFlaggedRef] at hf
  cases h with
  | outside hsame =>
    rw [(hsame p hp).1] at hs
    simp [hs, getFlaggedRef] at hf
  | backlink =>
    rw [setBacklink_succ] at hs
    simp [hs, getFlaggedRef] at hf
  | link | mark | unlink => exact (hset rfl hs).elim
  | @flag q d hq hqs hd =>
    by_cases hpq : p = q
    · subst hpq
      simpa [getFlaggedRef, eq_comm] using hs
    · rw [setSucc_ne hpq] at hs
      simp [hs, getFlaggedRef] at hf

omit [DecidableEq N] in
lemma effect_flagged {th : Thread N V} (h : th.effect = .flagged n) :
    ∃ key val prev, th = ⟨[], .tryFlag key val prev n .cas⟩ := by
  obtain ⟨helps, pc⟩ := th
  unfold Thread.effect at h
  simp only [] at h
  split at h <;> cases h
  exact ⟨_, _, _, rfl⟩

lemma history_threads (h : History moves s) (hok : Orderly s a) (hs : s.next a = some s')
    (hsince : linkMachine.Since ((s, a) :: moves) t op recent) :
    (s'.threads t).Runs op ∧ (s'.threads t).pc.Knows recent s' op := by
  obtain ⟨c, hI⟩ := h.link
  obtain ⟨c', hI', -, hev⟩ := linkInv_step hI hok.oneWord hs
  have hkeep : ∀ {r}, linkMachine.Since moves t op r → s'.threads t = s.threads t →
      (s'.threads t).Runs op ∧ (s'.threads t).pc.Knows ((s, a) :: r) s' op := fun {r} hr hsame => by
    rw [hsame]
    obtain ⟨hruns, hknows⟩ := h.threads t op r hr
    obtain ⟨x, earlier, hmoves, -⟩ := hr
    exact ⟨hruns, hknows.cons (h.segments r _ hmoves) hev⟩
  cases a with
  | call u op' =>
    simp only [LinkState.next] at hs
    split at hs
    · cases hs
      rcases since_cons hsince with ⟨hcall, rfl⟩ | ⟨hne, r, rfl, hr⟩
      · obtain ⟨rfl, rfl⟩ := Prod.mk.inj (Option.some.inj hcall)
        simp only [Function.update_self]
        have hhead := head_alive hI'
        refine ⟨runs_plain (by cases op' <;> simp [Op.pc, Pc.Runs]), ?_⟩
        cases op' with
        | search key val => exact Or.inl hhead
        | _ => trivial
      · have htu : t ≠ u := by
          rintro rfl
          exact hne op' rfl
        exact hkeep hr (Function.update_of_ne htu ..)
    · cases hs
  | step u weak fresh =>
    rcases since_cons hsince with ⟨hcall, -⟩ | ⟨-, r, rfl, hr⟩
    · cases hcall
    · obtain ⟨cmd, hcmd, -, -, -, hth⟩ := next_step hs
      by_cases htu : t = u
      · subst htu
        obtain ⟨hruns, hknows⟩ := h.threads t op r hr
        have hseg : Segment r s := by
          obtain ⟨x, earlier, hmoves, -⟩ := hr
          exact h.segments r _ hmoves
        rw [hth, Function.update_self]
        exact ⟨(runs_step hruns hcmd).exec weak fresh,
          (knows_step hI hseg (hI.threads t) (h.deletes t) hruns hknows hcmd).cons hseg hev⟩
      · exact hkeep hr (by rw [hth, Function.update_of_ne htu])

lemma history_called (h : History moves s) (hs : s.next a = some s')
    (hout : (s'.threads t).outside = false) :
    ∃ op recent, linkMachine.Since ((s, a) :: moves) t op recent := by
  cases a with
  | call u op =>
    by_cases htu : t = u
    · subst htu
      exact ⟨op, [], since_call rfl⟩
    · simp only [LinkState.next] at hs
      split at hs
      · cases hs
        obtain ⟨op', r, hr⟩ := h.called t (by simpa [Function.update_of_ne htu] using hout)
        refine ⟨op', _, hr.cons fun op'' heq => ?_⟩
        exact htu (Prod.mk.inj (Option.some.inj heq)).1.symm
      · cases hs
  | step u weak fresh =>
    obtain ⟨cmd, hcmd, -, -, -, hth⟩ := next_step hs
    have hold : (s.threads t).outside = false := by
      by_cases htu : t = u
      · subst htu
        by_contra hno
        rcases outside_cases (by simpa using hno) with ht | ⟨r, ht⟩ <;> rw [ht] at hcmd <;>
          cases hcmd
      · rwa [hth, Function.update_of_ne htu] at hout
    obtain ⟨op', r, hr⟩ := h.called t hold
    exact ⟨op', _, hr.cons fun op'' heq => by cases heq⟩

lemma history_wanted (h : History moves s) (hok : Orderly s a) (hs : s.next a = some s')
    (hp : p ∈ s'.linked) (hflag : (s'.node p).succ = getFlaggedRef (some n))
    (hm : (s'.node n).succ.marked = false) : linkMachine.Wanted ((s, a) :: moves) n := by
  obtain ⟨c, hI⟩ := h.link
  obtain ⟨c', -, hst, hev⟩ := linkInv_step hI hok.oneWord hs
  rw [hst.linked] at hp
  obtain ⟨hp, hpm, hpn⟩ := hst.move.pointed hp hflag
  have hn : n ∈ s.linked := hI.chained.sub _ (hI.chained.succ_mem (hI.chained.kept p hp hpm) hpn)
  have hlive : linkMachine.Alive s n := by
    refine hI.alive_iff.mpr ⟨hn, ?_⟩
    by_contra hold
    simp [hev.marked hn (by simpa using hold)] at hm
  cases hpf : (s.node p).succ.flagged with
  | true =>
    have hword : (s.node p).succ = getFlaggedRef (some n) := by
      rw [getFlaggedRef, ← hpn, ← hpm, ← hpf]
    exact (h.wanted p hp n hword (hI.alive_iff.mp hlive).2).cons hlive
  | false =>
    obtain ⟨t, fresh, rfl, heff⟩ := effect_step (hst.move.flags hp hflag hpf) (by simp)
    obtain ⟨key, val, prev, hth⟩ := effect_flagged heff
    obtain ⟨op, r, hr⟩ := h.called t (by rw [hth]; rfl)
    have hruns := (h.threads t op r hr).1.pc
    have hpc := (hI.threads t).pc
    rw [hth] at hruns hpc
    obtain ⟨w, rfl⟩ := hruns
    obtain rfl : (s.node n).key = key := hpc.2.2.2.2.1
    exact wanted_step rfl hr hlive

theorem history_step (h : History moves s) (hok : Orderly s a) (hs : s.next a = some s') :
    History ((s, a) :: moves) s' := by
  obtain ⟨c, hI⟩ := h.link
  obtain ⟨c', hI', -, -⟩ := linkInv_step hI hok.oneWord hs
  refine ⟨⟨c', hI'⟩, deletes_step hI h.deletes hok.oneWord hok.unlinks hs,
    fun recent earlier heq => ?_, fun t => history_called h hs,
    fun t op recent => history_threads h hok hs,
    fun p hp n hflag => history_wanted h hok hs hp hflag⟩
  cases recent with
  | nil => exact segment_nil hI'
  | cons x r =>
    obtain ⟨rfl, rfl⟩ := List.cons.inj heq
    exact (h.segments r earlier rfl).cons hI hok hs

lemma history_trace (h₀ : LinkCreated s₀) (h : Trace LinkState.next Orderly s₀ moves s) :
    History moves s :=
  h.inv (history_created h₀) fun _ _ _ _ hI hok hs => history_step hI hok hs

/-! ### What the calls do -/

lemma History.delivered (h : History moves s) : linkMachine.Delivered moves s where
  search t key recent v hsince hth := by
    have hknows := (h.threads t _ recent hsince).2
    have hpc : (s.threads t).pc = .returned (.ok (some v)) := by
      have : s.threads t = ⟨[], .returned (.ok (some v))⟩ := hth
      rw [this]
    rw [hpc] at hknows
    exact (hknows v rfl).1 key true rfl
  delete t key recent v hsince hth := by
    have hknows := (h.threads t _ recent hsince).2
    have hpc : (s.threads t).pc = .returned (.ok (some v)) := by
      have : s.threads t = ⟨[], .returned (.ok (some v))⟩ := hth
      rw [this]
    rw [hpc] at hknows
    exact (hknows v rfl).2 key true rfl

omit [DecidableEq N] in
lemma Thread.Runs.effect {key : ℤ} {val : V} (h : th.Runs (.update key val)) :
    th.effect = .none := by
  obtain ⟨helps, pc⟩ := th
  obtain rfl : helps = [] := h.helps rfl
  have hpc := h.pc
  cases pc with
  | insert k v pc => obtain ⟨w, hw⟩ := hpc; cases hw
  | tryFlag k v prev target pc => obtain ⟨w, hw⟩ := hpc; cases hw
  | _ => rfl

lemma overwrites_key {key : ℤ} {val : V} (hruns : th.Runs (.update key val))
    (hknows : th.pc.Knows recent s (.update key val)) (h : th.overwrites = some n) :
    (s.node n).key = key := by
  obtain ⟨helps, pc⟩ := th
  obtain rfl : helps = [] := hruns.helps rfl
  cases pc with
  | updateWrite key' val' target pc =>
    cases pc with
    | copy =>
      obtain rfl : target = n := Option.some.inj h
      obtain ⟨w, hw⟩ := hruns.pc
      cases hw
      exact hknows.2
    | _ => cases h
  | _ => cases h

lemma History.spares (h : History moves s) (hok : Orderly s a) (hs : s.next a = some s') :
    linkMachine.Spares moves s a s' where
  update t key val recent hsince hmover k v hk := by
    obtain ⟨c, hI⟩ := h.link
    obtain ⟨c', hI', hst, hev⟩ := linkInv_step hI hok.oneWord hs
    obtain ⟨hruns, hknows⟩ := h.threads t _ recent hsince
    cases a with
    | call u op => cases hmover
    | step u weak fresh =>
      obtain rfl : u = t := Option.some.inj hmover
      have heff : s.effect (.step u weak fresh) = .none := by
        simp only [LinkState.effect, hruns.effect]
        cases ((s.threads u).cmd (· == ·)).any (s.casOk weak) <;> rfl
      have hlinked : s'.linked = s.linked := by rw [hst.linked, heff]; rfl
      have halive : ∀ n, linkMachine.Alive s' n ↔ linkMachine.Alive s n := fun n => by
        rw [hI.alive_iff, hI'.alive_iff, hlinked]
        refine and_congr_right fun hn => ?_
        cases hm : (s.node n).succ.marked with
        | true => simp [hev.marked hn hm]
        | false =>
          by_contra hm'
          have he := (hst.move.marks hn hm (by simpa using hm')).1
          rw [heff] at he
          cases he
      have hval : ∀ n, linkMachine.Alive s n → (s.node n).key = k →
          (s'.node n).val = (s.node n).val := fun n hn hnk => by
        refine next_val hI hs (hI.alive_iff.mp hn).1 fun t' weak' fresh' ha hover => ?_
        obtain ⟨rfl, -, -⟩ := LinkAct.step.inj ha
        exact hk (hnk.symm.trans (overwrites_key hruns hknows hover))
      have hkey : ∀ n, linkMachine.Alive s n → (s'.node n).key = (s.node n).key := fun n hn =>
        hev.key n (hI.alive_iff.mp hn).1
      constructor
      · rintro ⟨n, hn, hnk, hv⟩
        have hn := (halive n).mp hn
        have hnk : (s.node n).key = k := (hkey n hn).symm.trans hnk
        exact ⟨n, hn, hnk, (hval n hn hnk).symm.trans hv⟩
      · rintro ⟨n, hn, hnk, hv⟩
        exact ⟨n, (halive n).mpr hn, (hkey n hn).trans hnk, (hval n hn hnk).trans hv⟩
  mark n hn hgone := by
    obtain ⟨c, hI⟩ := h.link
    obtain ⟨c', hI', hst, hev⟩ := linkInv_step hI hok.oneWord hs
    obtain ⟨hl, hm⟩ := hI.alive_iff.mp hn
    have hm' : (s'.node n).succ.marked = true := by
      by_contra hno
      exact hgone (hI'.alive_iff.mpr ⟨hev.grows n hl, by simpa using hno⟩)
    obtain ⟨-, ⟨p, hp, hflag⟩, -⟩ := hst.move.marks hl hm hm'
    exact h.wanted p hp n hflag hm

end CoopTasks.LockFreeList
