import CoopTasks.ListShadowSteps

/-!
Operations on one key of a list leave other keys alone, in runs that use no stale pointer.
-/

namespace CoopTasks.LockFreeList

open CoopTasks.Machine ListMachine

variable {A V : Type*} [DecidableEq A] {s s₀ : ReuseState A V} {capacity : ℕ}
  {moves : List (ReuseState A V × ReuseAct A V)}

lemma created_shadow (h : ReuseCreated capacity s) :
    LinkCreated { (LinkState.new s.head s.tail : LinkState (A × ℕ) V) with threads := s.threads } ∧
      Shadow s { (LinkState.new s.head s.tail : LinkState (A × ℕ) V) with
        threads := s.threads } := by
  have hne : s.head ≠ s.tail := fun heq => by
    have := h.addr
    simp [heq] at this
  have hidle : ∀ t, (s.threads t).raw = none ∧ (s.threads t).pc.holds = none := fun t => by
    rcases outside_cases (h.threads t) with ht | ⟨r, ht⟩ <;> rw [ht] <;> exact ⟨rfl, rfl⟩
  have hmem : ∀ n, n ∈ [s.head, s.tail] ↔ n ∈ s.live := fun n => by rw [h.live]
  refine ⟨{ (new_created hne) with threads := h.threads }, rfl, rfl, h.readers.symm, rfl,
    fun n hn _ => ?_, fun t n hn => ?_, fun n hn => ?_, fun n hn => ?_, ?_, fun t n hn => ?_,
    fun n hn hl => ?_⟩
  · rcases List.mem_pair.mp ((hmem n).mpr hn) with rfl | rfl
    · simp [LinkState.new, h.head]
    · simp [LinkState.new, hne.symm, h.tail]
  · simp [(hidle t).1] at hn
  · exact (hmem n).mpr hn
  · exact h.count n ((hmem n).mp hn)
  · rw [h.live]
    exact h.addr
  · simp [(hidle t).2] at hn
  · exact absurd ((hmem n).mp hn) hl

/-- A run that uses no stale pointer is followed by a list whose nodes are never given back. -/
theorem reuse_follows (h₀ : ReuseCreated capacity s₀)
    (h : Trace ReuseState.next ReuseState.Orderly s₀ moves s) : ∃ u₀ moves' u,
    LinkCreated u₀ ∧ Trace LinkState.next Orderly u₀ moves' u ∧ Shadow s u ∧
      List.Forall₂ (Follows reuseMachine linkMachine) moves moves' := by
  obtain ⟨hcreated, hshadow⟩ := created_shadow h₀
  have hstep : ∀ s a s' ls u, Trace LinkState.next Orderly _ ls u →
      (Shadow s u ∧ ∃ c, LinkInv u c) → s.Orderly a → s.next a = some s' →
      ∃ a' u', Orderly u a' ∧ u.next a' = some u' ∧
        (reuseMachine.call a = linkMachine.call a' ∧
          reuseMachine.mover a = linkMachine.mover a') ∧ Shadow s' u' ∧ ∃ c, LinkInv u' c :=
    fun s a s' ls u htrace hR hok hs => by
      have hist := history_trace hcreated htrace
      obtain ⟨c, hI⟩ := hist.link
      have hoku := hR.1.orderly hI hok
      obtain ⟨u', hu, hshadow'⟩ := hR.1.step hist hok hs
      obtain ⟨c', hI', -, -⟩ := linkInv_step hI hoku.oneWord hu
      refine ⟨s.shadow a, u', hoku, hu, ?_, hshadow', c', hI'⟩
      cases a <;> exact ⟨rfl, rfl⟩
  obtain ⟨moves', u, htrace, hR, hall⟩ :=
    h.simulate hstep ⟨hshadow, _, created_linkInv hcreated⟩
  refine ⟨_, moves', u, hcreated, htrace, hR.1, hall.imp fun x x' hx => ?_⟩
  obtain ⟨⟨hs, c, hI⟩, ⟨hcall, hmover⟩, t, t', ht, ht', hsh, c', hI'⟩ := hx
  exact ⟨hs.mirrors hI, hcall, hmover, t, t', ht, ht', hsh.mirrors hI'⟩

/-- **Keys are kept apart** as long as no stale pointer is used: a search delivers a value that was
stored under its key meanwhile, a deletion the one that it took off the list, and no step of an
update or a deletion touches another key. -/
theorem list_keys_apart (h₀ : ReuseCreated capacity s₀)
    (h : Trace ReuseState.next ReuseState.Orderly s₀ moves s) :
    reuseMachine.Delivered moves s ∧
      ∀ a s', s.Orderly a → s.next a = some s' → reuseMachine.Spares moves s a s' := by
  obtain ⟨u₀, moves', u, hcreated, htrace, hshadow, hall⟩ := reuse_follows h₀ h
  have hist := history_trace hcreated htrace
  obtain ⟨c, hI⟩ := hist.link
  have hmirrors := hshadow.mirrors hI
  refine ⟨hist.delivered.mirror hall hmirrors, fun a s' hok hs => ?_⟩
  have hoku := hshadow.orderly hI hok
  obtain ⟨u', hu, hshadow'⟩ := hshadow.step hist hok hs
  obtain ⟨c', hI', -, -⟩ := linkInv_step hI hoku.oneWord hu
  refine (hist.spares hoku hu).mirror hall hmirrors (hshadow'.mirrors hI') ?_
  cases a <;> rfl

/-! ### A list with room for one key -/

def oneKeyList : ReuseState ℕ ℕ := .new 0 1 [2, 3]

lemma oneKeyList_created : ReuseCreated 1 oneKeyList := by
  constructor <;> simp [oneKeyList, ReuseState.new, Thread.outside]

/-- Steps of a thread that do not fail spuriously. -/
def reuseSteps (t k : ℕ) : List (ReuseAct ℕ ℕ) :=
  List.replicate k (.step t false fun _ => ⟨none, false, false⟩)

/-- A call and its first steps. -/
def reuseCall (t : ℕ) (op : Op ℕ) (k : ℕ) : List (ReuseAct ℕ ℕ) := .call t op :: reuseSteps t k

/-- The node of 5 is used again for 9, whose value is updated and then delivered by a search that
was called before 9 was inserted. -/
theorem list_keys_apart_reused : ∃ moves s, ReuseCreated 1 oneKeyList ∧
    Trace ReuseState.next ReuseState.Orderly oneKeyList moves s ∧
    s.live = [(2, 3), (0, 0), (1, 0)] ∧
    s.threads 1 = ⟨[], .returned (.ok (some (some 91)))⟩ ∧
    reuseMachine.Delivered moves s ∧
      ∀ a s', s.Orderly a → s.next a = some s' → reuseMachine.Spares moves s a s' := by
  obtain ⟨moves, s, h, -, hp⟩ := exists_trace ReuseState.next ReuseState.Orderly oneKeyList
    (fun s => decide (s.live = [(2, 3), (0, 0), (1, 0)]) &&
      decide (s.threads 1 = ⟨[], .returned (.ok (some (some 91)))⟩))
    (List.flatten [reuseCall 0 (.insert 5 50) 11, reuseCall 2 (.delete 5 true) 20,
      reuseCall 0 (.insert 7 70) 11, reuseCall 2 (.delete 7 true) 20,
      reuseCall 1 (.search 9 true) 0, reuseCall 0 (.insert 9 90) 11,
      reuseCall 2 (.update 9 91) 11, reuseSteps 1 11])
    (by decide +kernel)
  simp only [Bool.and_eq_true, decide_eq_true_eq] at hp
  exact ⟨moves, s, oneKeyList_created, h, hp.1, hp.2, list_keys_apart oneKeyList_created h⟩

/-- Not stored: the value 90 under the key 5. -/
def Without (s : ReuseState ℕ ℕ) : Prop :=
  ∀ n ∈ s.chain, (s.mem n.1).succ.marked = false → (s.mem n.1).key = 5 → (s.mem n.1).val ≠ some 90

instance (s : ReuseState ℕ ℕ) : Decidable (Without s) := by
  unfold Without
  infer_instance

lemma Without.not_stored {s : ReuseState ℕ ℕ} (h : Without s) :
    ¬ reuseMachine.Stored s 5 (some 90) := by
  rintro ⟨n, ⟨hn, hm⟩, hk, hv⟩
  exact h n hn hm hk hv

/-- A search has found the node of 5 when 5 is deleted; 7 is inserted and deleted, and 9 inserted
into that node, whose value the search delivers. -/
theorem list_search_reused : ¬ ∀ (capacity : ℕ) (s₀ s : ReuseState ℕ ℕ) moves,
    ReuseCreated capacity s₀ → Trace ReuseState.next (fun _ _ => True) s₀ moves s →
    reuseMachine.Delivered moves s ∧
      ∀ a s', s.next a = some s' → reuseMachine.Spares moves s a s' := by
  intro hall
  obtain ⟨moves, s, h, hlabels, hp⟩ := exists_trace ReuseState.next (fun s _ => Without s)
    oneKeyList
    (fun s => decide (Without s) &&
      decide (s.threads 1 = ⟨[], .returned (.ok (some (some 90)))⟩))
    (reuseCall 0 (.insert 5 50) 11 ++ .call 1 (.search 5 true) ::
      List.flatten [reuseSteps 1 7, reuseCall 2 (.delete 5 true) 20,
        reuseCall 0 (.insert 7 70) 11, reuseCall 2 (.delete 7 true) 20,
        reuseCall 0 (.insert 9 90) 11, reuseSteps 1 4])
    (by decide +kernel)
  simp only [Bool.and_eq_true, decide_eq_true_eq] at hp
  simp only [List.reverse_append, List.reverse_cons, List.append_assoc, List.singleton_append]
    at hlabels
  obtain ⟨recent, hsince, hsub⟩ := ListMachine.since_of_labels (M := reuseMachine) hlabels rfl
    (by decide)
  have hsearch := (hall 1 oneKeyList s moves oneKeyList_created (h.mono fun _ _ _ => trivial)).1
  rcases hsearch.search 1 5 recent (some 90) hsince hp.2 with hs | ⟨x, hx, hs⟩
  · exact hp.1.not_stored hs
  · exact (h.all x (hsub x hx)).not_stored hs

end CoopTasks.LockFreeList
