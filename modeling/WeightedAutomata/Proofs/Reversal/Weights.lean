import WeightedAutomata.Proofs.Reversal.Adjoint

/-!
The reversal gives a string the weight that the automaton gives to the string read backwards, and
has the same total.
-/
namespace WeightedAutomata.Automaton

variable {L S T W : Type}

section Cycles

/-- No path returns to the state it started from, reachable or not. -/
def Cycleless (A : Automaton Id L S T W) : Prop :=
  ∀ s ts, ts ≠ [] → A.IsPath s ts → A.endpoint s ts ≠ s

/-- No path without labels returns to the state it started from, reachable or not. -/
def EpsilonCycleless (A : Automaton Id L S T W) : Prop :=
  ∀ s ts, ts ≠ [] → A.IsPath s ts → A.labels ts = [] → A.endpoint s ts ≠ s

variable [Zero W] {A : Automaton Id L S T W} {back : Backward Id S T} (h : A.TwoWay back)
include h

theorem Cycleless.reversal (hA : A.Cycleless) : (A.reversal back).Cycleless := by
  intro s ts hne hpath hend
  obtain ⟨hpath, hend⟩ := (isPath_reversal h.lawful h.retraces).1 ⟨hpath, hend⟩
  exact hA s ts.reverse (by simpa using hne) hpath hend

theorem EpsilonCycleless.reversal (hA : A.EpsilonCycleless) :
    (A.reversal back).EpsilonCycleless := by
  intro s ts hne hpath hlabels hend
  obtain ⟨hpath, hend⟩ := (isPath_reversal h.lawful h.retraces).1 ⟨hpath, hend⟩
  have hlabels : A.labels ts.reverse = [] :=
    List.filterMap_reverse.trans (List.reverse_eq_nil_iff.2 hlabels)
  exact hA s ts.reverse (by simpa using hne) hpath hlabels hend

end Cycles

section Answers

variable {m : Type → Type} [Monad m] [LawfulMonad m] [StepLimited m] [Semiring W]
variable [BEq S] [LawfulBEq S] [Hashable S] [BEq W] [LawfulBEq W]
variable {A : Automaton Id L S T W} {back : Backward Id S T} {F : Finset S}
variable (hF : Encloses F A back) (h : A.TwoWay back)
include hF h

variable (m) in
theorem Encloses.exists_stringWeight [BEq L] [LawfulBEq L] (hA : A.EpsilonCycleless)
    {closure : S → ℕ} (hc : (A.epsilonPart []).Bounded (· ∈ F) closure) (queue : Queue W)
    (x : List L) : ∃ n, ∀ budget, n ≤ budget →
      A.lift.stringWeight budget ⟨queue, .exact⟩ x = (pure (A.stringTotal closure x) : m W) := by
  have hc := hc.restrict (closed_epsilonPart [] A.closed_reachable) fun _ => hF.mem_of_reachable
  exact (lift_answers_reachable m A).exists_stringWeight_eq h.lawful hF.finite (fun s _ => hA s) hc
    queue x

variable (m) in
theorem Encloses.exists_completeDistance {size : S → ℕ} (hb : A.Bounded (· ∈ F) size)
    (queue : Queue W) : ∃ n, ∀ budget, n ≤ budget →
      A.lift.completeDistance budget ⟨queue, .exact⟩ = (pure (A.total size) : m W) := by
  have hb := hb.restrict A.closed_reachable fun _ => hF.mem_of_reachable
  exact (lift_answers_reachable m A).exists_completeDistance_eq h.lawful hb queue

end Answers

variable {m : Type → Type} [Monad m] [LawfulMonad m] [StepLimited m] [CommSemiring W]
variable [BEq S] [LawfulBEq S] [Hashable S] [BEq W] [LawfulBEq W]
variable {A : Automaton Id L S T W} {back : Backward Id S T} {F : Finset S}

variable (m) in
/-- What is computed for a string, and on the reversal for the string read backwards. -/
theorem exists_stringWeights_reversal [BEq L] [LawfulBEq L] (hF : Encloses F A back)
    (h : (1 : W) ≠ 0 → A.TwoWay back) (hA : A.EpsilonCycleless) (x : List L) :
    ∃ v, ∀ queue : Queue W, ∃ n, ∀ budget, n ≤ budget →
      A.lift.stringWeight budget ⟨queue, .exact⟩ x = (pure v : m W) ∧
      (A.reversal back).lift.stringWeight budget ⟨queue, .exact⟩ x.reverse = (pure v : m W) := by
  rcases subsingleton_or_nontrivial W with hW | hW
  · have hlift := lift_answers_reachable m A
    have hlift' := lift_answers_reachable m (A.reversal back)
    exact ⟨0, fun queue => ⟨1, fun budget hbudget =>
      ⟨hlift.stringWeight_of_subsingleton _ x hbudget,
        hlift'.stringWeight_of_subsingleton _ x.reverse hbudget⟩⟩⟩
  · have h := h one_ne_zero
    have hR := hA.reversal h
    obtain ⟨closure, hc⟩ :=
      hF.closed.exists_bounded_epsilonPart F.finite_toSet fun s _ => hA s
    obtain ⟨closure', hc'⟩ :=
      hF.closed_back.exists_bounded_epsilonPart F.finite_toSet fun s _ => hR s
    refine ⟨A.stringTotal closure x, fun queue => ?_⟩
    obtain ⟨n, hn⟩ := hF.exists_stringWeight m h hA hc queue x
    obtain ⟨n', hn'⟩ := hF.reversal.exists_stringWeight m h.reversal hR hc' queue x.reverse
    refine ⟨n + n', fun budget hbudget => ⟨hn budget (by omega), ?_⟩⟩
    rw [hn' budget (by omega), stringTotal_reversal h hF hc hc']

variable (m) in
/-- What is computed in total, forward and backward. -/
theorem exists_completeDistances_reversal (hF : Encloses F A back)
    (h : (1 : W) ≠ 0 → A.TwoWay back) (hA : A.Cycleless) :
    ∃ v, ∀ queue : Queue W, ∃ n, ∀ budget, n ≤ budget →
      A.lift.completeDistance budget ⟨queue, .exact⟩ = (pure v : m W) ∧
      (A.reversal back).lift.completeDistance budget ⟨queue, .exact⟩ = (pure v : m W) := by
  rcases subsingleton_or_nontrivial W with hW | hW
  · have hlift := lift_answers_reachable m A
    have hlift' := lift_answers_reachable m (A.reversal back)
    obtain ⟨n, hn⟩ := exists_atMost hF.finite
    obtain ⟨n', hn'⟩ := exists_atMost hF.reversal.finite
    exact ⟨0, fun queue => ⟨n + n' + 1, fun budget hbudget =>
      ⟨hlift.completeDistance_of_subsingleton hn _ (by omega),
        hlift'.completeDistance_of_subsingleton hn' _ (by omega)⟩⟩⟩
  · have h := h one_ne_zero
    have hR := hA.reversal h
    obtain ⟨size, hb⟩ := exists_bounded hF.closed F.finite_toSet fun s _ => hA s
    obtain ⟨size', hb'⟩ := exists_bounded hF.closed_back F.finite_toSet fun s _ => hR s
    refine ⟨A.total size, fun queue => ?_⟩
    obtain ⟨n, hn⟩ := hF.exists_completeDistance m h hb queue
    obtain ⟨n', hn'⟩ := hF.reversal.exists_completeDistance m h.reversal hb' queue
    refine ⟨n + n', fun budget hbudget => ⟨hn budget (by omega), ?_⟩⟩
    rw [hn' budget (by omega), total_reversal h hF hb hb']

variable (m) in
/-- The reversal of a reversible automaton gives each string the weight of the string read
backwards, and where there are no cycles both have the same total. -/
theorem reversal_reads_backwards [BEq L] [LawfulBEq L] (A : Automaton Id L S T W)
    (hA : A.Reversible) (hepsilon : A.EpsilonCycleless) :
    ∃ R, (A.lift : Automaton m L S T W).reverse? = some R ∧
      (∀ x, ∃ v, ∀ queue : Queue W, ∃ n, ∀ budget, n ≤ budget →
        A.lift.stringWeight budget ⟨queue, .exact⟩ x = (pure v : m W) ∧
        R.stringWeight budget ⟨queue, .exact⟩ x.reverse = pure v) ∧
      (A.Cycleless → ∃ v, ∀ queue : Queue W, ∃ n, ∀ budget, n ≤ budget →
        A.lift.completeDistance budget ⟨queue, .exact⟩ = (pure v : m W) ∧
        R.completeDistance budget ⟨queue, .exact⟩ = pure v) := by
  obtain ⟨back, F, haccess, hF, h⟩ := hA.exists_backward
  exact ⟨_, reverse?_lift m haccess, exists_stringWeights_reversal m hF h hepsilon,
    exists_completeDistances_reversal m hF h⟩

section Shortcut

/-- Two transitions to the final state, and an epsilon transition past them. -/
def shortcut : Explicit Bool ℕ := Graph.explicit
  { states := #[⟨2, 0⟩, ⟨0, 0⟩, ⟨0, 3⟩]
    edges := #[⟨0, 1, some true, 5⟩, ⟨1, 2, some false, 7⟩, ⟨0, 2, none, 11⟩]
    endpoints := by decide }

theorem cycleless_shortcut : (shortcut.automaton : Automaton Id _ _ _ _).Cycleless := by
  have hedges : ∀ e ∈ shortcut.edges.toList, e.source < e.target := by decide
  refine fun s ts hne hpath => endpoint_ne_of_lt (fun s t ht => ?_) hne hpath
  obtain ⟨e, he, rfl⟩ := (shortcut.mem_edgesBy fun e he => shortcut.source_lt he).1 ht
  have hlt := hedges e (List.mem_of_getElem? (i := t) (by simpa using he))
  have htarget : (shortcut.automaton : Automaton Id Bool ℕ ℕ ℕ).target t = e.target := by
    simp only [Explicit.automaton, he, Option.elim_some]
  rwa [htarget]

theorem epsilonCycleless_shortcut :
    (shortcut.automaton : Automaton Id _ _ _ _).EpsilonCycleless :=
  fun s ts hne hpath _ => cycleless_shortcut s ts hne hpath

/-- More than the paths from each state. -/
def shortcutSize : ℕ → ℕ
  | 0 => 4
  | 1 => 2
  | _ => 1

/-- The two labels are read at weight 2 · 5 · 7 · 3. -/
theorem stringWeight_shortcut (queue : Queue ℕ) : ∃ n, ∀ budget, n ≤ budget →
    (shortcut.automaton.lift : Automaton Option Bool ℕ ℕ ℕ).stringWeight budget ⟨queue, .exact⟩
      [true, false] = some 210 := by
  have hF := encloses_explicit shortcut
  have hsize : ((shortcut.automaton : Automaton Id Bool ℕ ℕ ℕ).epsilonPart []).Bounded
      (· ∈ Finset.range shortcut.states.size) shortcutSize :=
    ⟨closed_epsilonPart [] hF.closed, by decide⟩
  have hvalue : (shortcut.automaton : Automaton Id Bool ℕ ℕ ℕ).stringTotal shortcutSize
      [true, false] = 210 := by decide
  rw [← hvalue]
  exact hF.exists_stringWeight Option (twoWay_explicit one_ne_zero shortcut)
    epsilonCycleless_shortcut hsize queue [true, false]

/-- In total the epsilon transition adds 2 · 11 · 3. -/
theorem completeDistance_shortcut (queue : Queue ℕ) : ∃ n, ∀ budget, n ≤ budget →
    (shortcut.automaton.lift : Automaton Option Bool ℕ ℕ ℕ).completeDistance budget
      ⟨queue, .exact⟩ = some 276 := by
  have hF := encloses_explicit shortcut
  have hsize : (shortcut.automaton : Automaton Id Bool ℕ ℕ ℕ).Bounded
      (· ∈ Finset.range shortcut.states.size) shortcutSize := ⟨hF.closed, by decide⟩
  have hvalue : (shortcut.automaton : Automaton Id Bool ℕ ℕ ℕ).total shortcutSize = 276 := by
    decide
  rw [← hvalue]
  exact hF.exists_completeDistance Option (twoWay_explicit one_ne_zero shortcut) hsize queue

theorem reversal_reads_shortcut :
    ∃ R, (shortcut.automaton.lift : Automaton Option Bool ℕ ℕ ℕ).reverse? = some R ∧
      (∀ queue : Queue ℕ, ∃ n, ∀ budget, n ≤ budget →
        shortcut.automaton.lift.stringWeight budget ⟨queue, .exact⟩ [true, false] = some 210 ∧
        R.stringWeight budget ⟨queue, .exact⟩ [false, true] = some 210) ∧
      ∀ queue : Queue ℕ, ∃ n, ∀ budget, n ≤ budget →
        shortcut.automaton.lift.completeDistance budget ⟨queue, .exact⟩ = some 276 ∧
        R.completeDistance budget ⟨queue, .exact⟩ = some 276 := by
  obtain ⟨R, hR, hstrings, htotal⟩ := reversal_reads_backwards Option shortcut.automaton
    (.explicit shortcut) epsilonCycleless_shortcut
  obtain ⟨v, hv⟩ := hstrings [true, false]
  obtain ⟨w, hw⟩ := htotal cycleless_shortcut
  have hstring : v = 210 := eq_of_large_budgets
    ((hv .fifo).imp fun _ hn budget hbudget => (hn budget hbudget).1) (stringWeight_shortcut .fifo)
  have hcomplete : w = 276 := eq_of_large_budgets
    ((hw .fifo).imp fun _ hn budget hbudget => (hn budget hbudget).1)
    (completeDistance_shortcut .fifo)
  subst hstring hcomplete
  exact ⟨R, hR, hv, hw⟩

end Shortcut

end WeightedAutomata.Automaton
