import CoopTasks.PoolCreate

/-!
Calls of the pool run alone: each of their steps is possible, and they come to an end once the
compare-exchanges stop failing spuriously.
-/

namespace CoopTasks.Pool

open CoopTasks.Chain CoopTasks.Append CoopTasks.Advance CoopTasks.Alone

variable {D : Type*} {s s' : PoolState D} {n t : ℕ} {c c' : List ℕ} {C C' : Cells ℕ D}
  {E E' : Ends ℕ} {weak : Bool}

/-- What a call has read is still there. -/
def Call.Alone (E : Ends ℕ) (C : Cells ℕ D) : Call D → Prop
  | .alloc _ (.loop pc) => TakeAlone E C pc
  | .free _ pc => pc.Alone E C
  | _ => True

def Call.rank : Call D → ℕ
  | .alloc _ (.loop pc) => takeRank pc + 3
  | .alloc _ (.count _) => 2
  | .free _ pc => pc.rank + 1
  | _ => 0

lemma callAlone_fresh {call : Call D} (h : call.Alone E C) (hs : ∀ pc, call ≠ .setup pc) :
    CallFresh weak E C c call := by
  cases call with
  | idle | returned => trivial
  | alloc o pc =>
    cases pc with
    | loop pc => exact takeAlone_fresh h
    | count => trivial
  | free f pc =>
    cases pc with
    | init | count => trivial
    | loop pc => exact putAlone_fresh h
  | setup pc => exact absurd rfl (hs pc)

/-- A step of a call run alone. `mempool_alloc` fails only with one fragment on the chain. -/
theorem threadStep_alone (weak : Bool) (hI : Inv s n c) (hlive : Live s)
    (hout : (s.calls t).outside = false) (ha : (s.calls t).Alone s.pool.ends s.cells)
    (hnear : TailNear s.pool.ends s.cells) :
    ∃ s', threadStep s t weak = some s' ∧ (s'.calls t).Alone s'.pool.ends s'.cells ∧
      TailNear s'.pool.ends s'.cells ∧
      (weak = false → 6 * lag s'.pool.ends s'.cells + (s'.calls t).rank <
        6 * lag s.pool.ends s.cells + (s.calls t).rank) ∧
      (∀ o pc, s.calls t = .alloc o pc → s'.calls t = .returned none →
        c.length = 1 ∧ (s.calls t).held = none) := by
  have hok := hI.calls t
  unfold threadStep
  cases hcall : s.calls t with
  | idle | returned => simp [hcall, Call.outside] at hout
  | setup pc => exact absurd hcall (hlive t pc)
  | alloc o pc =>
    rw [hcall] at ha hok
    cases pc with
    | loop pc =>
      obtain ⟨E', r, hstep, hn', hmore, hempty, hrank, hlag⟩ :=
        take_alone weak hI.linked hok ha hnear
      simp only [internalMempoolPick, hstep, Option.map_some]
      cases r with
      | more pc' =>
        refine ⟨_, rfl, ?_, hn', fun hw => ?_, by simp⟩
        · simpa [Call.Alone] using hmore pc' rfl
        · have := hrank pc' rfl hw
          simp only [setCall_self, Call.rank]
          simpa using by omega
      | empty =>
        refine ⟨_, rfl, by simp [Call.Alone], hn', fun hw => ?_, fun _ _ _ _ => ⟨hempty rfl, rfl⟩⟩
        have := hlag (by simp)
        have hr : 0 < takeRank pc := by cases pc <;> simp [takeRank]
        simp only [setCall_self, Call.rank]
        simpa using by omega
      | took k buf =>
        refine ⟨_, rfl, by simp [Call.Alone], hn', fun hw => ?_, by simp⟩
        have := hlag (by simp)
        simp only [setCall_self, Call.rank]
        have hr : 0 < takeRank pc := by cases pc <;> simp [takeRank]
        simpa using by omega
    | count f =>
      exact ⟨_, rfl, by simp [Call.Alone], hnear, fun _ => by simp [Call.rank], by simp⟩
  | free f pc =>
    rw [hcall] at ha hok
    obtain ⟨P, C, r, hput, hn', ha', hrank⟩ := internalMempoolPut_alone weak hok hI.linked
      (fun hf => hI.not_mem_of_held (t := t) (by rw [hcall]; exact hf)) ha hnear
    simp only [hput, Option.map_some]
    cases r with
    | none =>
      refine ⟨_, rfl, by simp [Call.Alone], hn', fun hw => ?_, by simp⟩
      have := hrank hw
      simp only [Option.elim_none, setCall_self, Call.rank] at this ⊢
      simpa using by omega
    | some pc' =>
      refine ⟨_, rfl, by simpa [Call.Alone] using ha' pc' rfl, hn', fun hw => ?_, by simp⟩
      have := hrank hw
      simp only [Option.elim_some, setCall_self, Call.rank] at this ⊢
      simpa using by omega

/-- With no call holding a fragment and only client 0, the chain and the client share all of
them. -/
lemma Inv.length_add (hI : Inv s n c) (hheld : ∀ t, (s.calls t).held = none)
    (howns : ∀ o, o ≠ 0 → s.owns o = []) : c.length + (s.owns 0).length = n := by
  have hperm : (c ++ s.owns 0).Perm (List.range n) := by
    refine (List.perm_ext_iff_of_nodup ?_ List.nodup_range).mpr fun f => ?_
    · exact List.nodup_append.mpr ⟨hI.linked.nodup, hI.nodup 0, fun f hf g hg hfg =>
        hI.not_owned_of_mem hf 0 (hfg ▸ hg)⟩
    · rw [List.mem_append, List.mem_range]
      constructor
      · rintro (hf | hf)
        · exact hI.placed.mem f .chain hf
        · exact hI.placed.mem f (.client 0) hf
      · intro hf
        obtain ⟨p, hp⟩ := hI.placed.one f hf
        cases p with
        | chain => exact .inl hp
        | call t => simp [At, hheld t] at hp
        | client o =>
          by_cases ho : o = 0
          · subst ho; exact .inr hp
          · simp [At, howns o ho] at hp
  simpa using hperm.length_eq

end CoopTasks.Pool
