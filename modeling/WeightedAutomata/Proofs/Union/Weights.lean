import WeightedAutomata.Proofs.Union.Basic
import WeightedAutomata.Proofs.Union.Rooting

/-!
The weights of strings and the totals of unions, which add up, and of single-initial views, which
stay what they were.
-/
namespace WeightedAutomata.Automaton

variable {L S T W : Type}

section Totals

variable [Semiring W]

section Union

variable {n : ℕ} {S T : Fin n → Type} (A : (i : Fin n) → Automaton Id L (S i) (T i) W)

theorem fromStarts_union (g : Tagged S → W) : (WeightedAutomata.union A).fromStarts g =
    ∑ i, (A i).fromStarts fun s => g ⟨i, s⟩ :=
  sum_starts_union _

theorem stringTotal_union [BEq L] [(i : Fin n) → BEq (S i)] [BEq W] (closure : Tagged S → ℕ)
    (x : List L) : (WeightedAutomata.union A).stringTotal closure x =
      ∑ i, (A i).stringTotal (fun s => closure ⟨i, s⟩) x := by
  unfold stringTotal
  rw [fromStarts_union]
  simp only [(embeds_union A _).closing_eq, (embeds_union A _).after_eq]
  rfl

theorem total_union (size : Tagged S → ℕ) : (WeightedAutomata.union A).total size =
    ∑ i, (A i).total fun s => size ⟨i, s⟩ := by
  unfold total
  rw [fromStarts_union]
  simp only [(embeds_union A _).pathSum_eq]
  rfl

end Union

section SingleInitial

variable {A : Automaton Id L S T W}

theorem fromStarts_singleInitial (g : Option S → W) : A.singleInitial.fromStarts g = g none := by
  have hone : A.singleInitial.entry none = 1 := rfl
  unfold fromStarts
  rw [starts_singleInitial, List.map_singleton, List.sum_singleton, hone, one_mul]

theorem stringTotal_singleInitial [BEq L] [BEq S] [BEq W] (hA : A.Lawful) {closure : Option S → ℕ}
    (hc : (A.singleInitial.epsilonPart []).Bounded A.Inherited closure) (x : List L) :
    A.singleInitial.stringTotal closure x = A.stringTotal (fun s => closure (some s)) x := by
  unfold stringTotal
  rw [fromStarts_singleInitial, (gathers_after hA x).closing hc hA]
  simp only [(embeds_singleInitial A).closing_eq, (embeds_singleInitial A).after_eq]
  rfl

theorem total_singleInitial (hA : A.Lawful) {size : Option S → ℕ}
    (hb : A.singleInitial.Bounded A.Inherited size) :
    A.singleInitial.total size = A.total fun s => size (some s) := by
  refine (fromStarts_singleInitial _).trans ((gathers_exit.pathSum hA hb).trans ?_)
  simp only [(embeds_singleInitial A).pathSum_eq]
  rfl

end SingleInitial

end Totals

section SingleInitial

variable {m : Type → Type} [Monad m] [LawfulMonad m] [StepLimited m] [Semiring W]
variable [BEq S] [LawfulBEq S] [Hashable S] [BEq W] [LawfulBEq W]
variable {A : Automaton Id L S T W} {B : Automaton m L S T W} {R : S → Prop} (h : B.Answers A R)
variable (hone : (1 : W) ≠ 0) (hA : A.Lawful) (hfinite : {s | A.Reachable s}.Finite)
include h hone hA hfinite

theorem Answers.exists_stringWeight_singleInitial [BEq L] [LawfulBEq L]
    (hepsilon : A.EpsilonAcyclic) {closure : S → ℕ}
    (hc : (A.epsilonPart []).Bounded A.Reachable closure) (queue : Queue W) (x : List L) :
    ∃ n, ∀ budget, n ≤ budget → B.singleInitial.stringWeight budget ⟨queue, .exact⟩ x =
      pure (A.stringTotal closure x) := by
  obtain ⟨closure', hc'⟩ := exists_bounded_epsilonPart_singleInitial hfinite hepsilon
  have hreachable := hc'.restrict (closed_epsilonPart [] A.singleInitial.closed_reachable)
    fun _ => inherited_of_reachable
  have hown := (embeds_singleInitial A).epsilonPart.bounded hc'
  obtain ⟨n, hn⟩ := (h.singleInitial hA).exists_stringWeight_eq (hA.singleInitial hone)
    (finite_singleInitial hfinite) hepsilon.singleInitial hreachable queue x
  refine ⟨n, fun budget hbudget => (hn budget hbudget).trans (congrArg pure ?_)⟩
  refine (stringTotal_singleInitial hA hc' x).trans ?_
  refine stringTotal_congr hA hfinite hepsilon ?_ hc x
  exact hown.restrict (closed_epsilonPart [] A.closed_reachable) fun s hs q hq => by
    cases hq
    exact hs

theorem Answers.exists_completeDistance_singleInitial (hacyclic : A.Acyclic) {size : S → ℕ}
    (hb : A.Bounded A.Reachable size) (queue : Queue W) :
    ∃ n, ∀ budget, n ≤ budget → B.singleInitial.completeDistance budget ⟨queue, .exact⟩ =
      pure (A.total size) := by
  obtain ⟨size', hb'⟩ := exists_bounded_singleInitial hfinite hacyclic
  have hreachable := hb'.restrict A.singleInitial.closed_reachable fun _ => inherited_of_reachable
  obtain ⟨n, hn⟩ :=
    (h.singleInitial hA).exists_completeDistance_eq (hA.singleInitial hone) hreachable queue
  refine ⟨n, fun budget hbudget => (hn budget hbudget).trans (congrArg pure ?_)⟩
  refine (total_singleInitial hA hb').trans ?_
  exact total_congr ((embeds_singleInitial A).bounded hb') hb fun s hs =>
    ⟨inherited_some hs, .start hs⟩

end SingleInitial

section Family

variable {n : ℕ} {S T : Fin n → Type} {A : (i : Fin n) → Automaton Id L (S i) (T i) W}

/-- One budget is enough for finitely many answers. -/
theorem exists_bound_forall {P : Fin n → ℕ → Prop}
    (h : ∀ i, ∃ N, ∀ budget, N ≤ budget → P i budget) :
    ∃ N, ∀ i, ∀ budget, N ≤ budget → P i budget := by
  choose N hN using h
  exact ⟨∑ i, N i, fun i budget hbudget => hN i budget
    ((Finset.single_le_sum (fun _ _ => Nat.zero_le _) (Finset.mem_univ i)).trans hbudget)⟩

variable {m : Type → Type} [Monad m] [LawfulMonad m]

theorem union_answers (A : (i : Fin n) → Automaton Id L (S i) (T i) W) :
    (WeightedAutomata.union fun i => ((A i).lift : Automaton m L (S i) (T i) W)).Answers
      (WeightedAutomata.union A) fun s => (A s.operand).Reachable s.value :=
  .union fun i => lift_answers_reachable m (A i)

variable [StepLimited m] [Semiring W] [BEq W] [LawfulBEq W] [(i : Fin n) → BEq (S i)]
variable [∀ i, LawfulBEq (S i)] [(i : Fin n) → Hashable (S i)]
variable (hA : ∀ i, (A i).Lawful) (hfinite : ∀ i, {s | (A i).Reachable s}.Finite)
include hA hfinite

variable (m) in
/-- What is computed for strings by the operands, their single-initial views and their union. -/
theorem exists_stringWeights [BEq L] [LawfulBEq L] (hepsilon : ∀ i, (A i).EpsilonAcyclic)
    (x : List L) : ∃ v : Fin n → W, ∀ queue : Queue W, ∃ N, ∀ budget, N ≤ budget →
      (∀ i, (A i).lift.stringWeight budget ⟨queue, .exact⟩ x = (pure (v i) : m W)) ∧
      (∀ i, (A i).lift.singleInitial.stringWeight budget ⟨queue, .exact⟩ x = (pure (v i) : m W)) ∧
      (WeightedAutomata.union fun i => (A i).lift).stringWeight budget ⟨queue, .exact⟩ x =
        (pure (∑ i, v i) : m W) := by
  have hlift (i : Fin n) := lift_answers_reachable m (A i)
  rcases subsingleton_or_nontrivial W with hW | hW
  · refine ⟨fun _ => 0, fun queue => ⟨1, fun budget hbudget => ⟨fun i => ?_, fun i => ?_, ?_⟩⟩⟩
    · exact (hlift i).stringWeight_of_subsingleton _ x hbudget
    · exact ((hlift i).singleInitial (hA i)).stringWeight_of_subsingleton _ x hbudget
    · exact ((union_answers A).stringWeight_of_subsingleton _ x hbudget).trans
        (congrArg pure (Subsingleton.elim _ _))
  · obtain ⟨closure, hc⟩ := exists_bounded_epsilonPart (finite_union hfinite) (.union hepsilon)
    have hown (i : Fin n) : ((A i).epsilonPart []).Bounded (A i).Reachable
        fun s => closure ⟨i, s⟩ :=
      ((embeds_union A i).epsilonPart.bounded hc).restrict
        (closed_epsilonPart [] (A i).closed_reachable) fun _ hs => hs.union
    refine ⟨fun i => (A i).stringTotal (fun s => closure ⟨i, s⟩) x, fun queue => ?_⟩
    obtain ⟨N, hN⟩ := exists_bound_forall fun i =>
      (hlift i).exists_stringWeight_eq (hA i) (hfinite i) (hepsilon i) (hown i) queue x
    obtain ⟨N', hN'⟩ := exists_bound_forall fun i => (hlift i).exists_stringWeight_singleInitial
      one_ne_zero (hA i) (hfinite i) (hepsilon i) (hown i) queue x
    obtain ⟨M, hM⟩ := (union_answers A).exists_stringWeight_eq (m := m) (.union hA)
      (finite_union hfinite) (.union hepsilon) hc queue x
    refine ⟨N + N' + M, fun budget hbudget => ⟨fun i => hN i budget (by omega),
      fun i => hN' i budget (by omega), (hM budget (by omega)).trans (congrArg pure ?_)⟩⟩
    exact stringTotal_union A closure x

variable (m) in
/-- What is computed in total by the operands, their single-initial views and their union. -/
theorem exists_completeDistances (hacyclic : ∀ i, (A i).Acyclic) :
    ∃ v : Fin n → W, ∀ queue : Queue W, ∃ N, ∀ budget, N ≤ budget →
      (∀ i, (A i).lift.completeDistance budget ⟨queue, .exact⟩ = (pure (v i) : m W)) ∧
      (∀ i, (A i).lift.singleInitial.completeDistance budget ⟨queue, .exact⟩ =
        (pure (v i) : m W)) ∧
      (WeightedAutomata.union fun i => (A i).lift).completeDistance budget ⟨queue, .exact⟩ =
        (pure (∑ i, v i) : m W) := by
  have hlift (i : Fin n) := lift_answers_reachable m (A i)
  rcases subsingleton_or_nontrivial W with hW | hW
  · choose N hN using fun i => exists_atMost (hfinite i)
    choose N' hN' using fun i => exists_atMost (finite_singleInitial (hfinite i))
    obtain ⟨M, hM⟩ := exists_atMost (finite_union hfinite)
    have hle (f : Fin n → ℕ) (i : Fin n) : f i ≤ ∑ i, f i :=
      Finset.single_le_sum (fun _ _ => Nat.zero_le _) (Finset.mem_univ i)
    refine ⟨fun _ => 0, fun queue => ⟨∑ i, N i + ∑ i, N' i + M + 1, fun budget hbudget =>
      ⟨fun i => ?_, fun i => ?_, ?_⟩⟩⟩
    · have := hle N i
      exact (hlift i).completeDistance_of_subsingleton (hN i) _ (by omega)
    · have := hle N' i
      exact ((hlift i).singleInitial (hA i)).completeDistance_of_subsingleton (hN' i) _ (by omega)
    · exact ((union_answers A).completeDistance_of_subsingleton hM _ (by omega)).trans
        (congrArg pure (Subsingleton.elim _ _))
  · obtain ⟨size, hb⟩ := exists_bounded (closed_reachable _) (finite_union hfinite)
      (Acyclic.union hacyclic)
    have hown (i : Fin n) : (A i).Bounded (A i).Reachable fun s => size ⟨i, s⟩ :=
      ((embeds_union A i).bounded hb).restrict (A i).closed_reachable fun _ hs => hs.union
    refine ⟨fun i => (A i).total fun s => size ⟨i, s⟩, fun queue => ?_⟩
    obtain ⟨N, hN⟩ := exists_bound_forall fun i =>
      (hlift i).exists_completeDistance_eq (hA i) (hown i) queue
    obtain ⟨N', hN'⟩ := exists_bound_forall fun i =>
      (hlift i).exists_completeDistance_singleInitial one_ne_zero (hA i) (hfinite i) (hacyclic i)
        (hown i) queue
    obtain ⟨M, hM⟩ := (union_answers A).exists_completeDistance_eq (m := m) (.union hA) hb queue
    refine ⟨N + N' + M, fun budget hbudget => ⟨fun i => hN i budget (by omega),
      fun i => hN' i budget (by omega), (hM budget (by omega)).trans (congrArg pure ?_)⟩⟩
    exact total_union A size

variable (m) in
/-- A union adds the weights of its operands up and the single-initial view keeps them, for every
string and, where there are no cycles, in total. -/
theorem union_adds_singleInitial_keeps [BEq L] [LawfulBEq L] (hn : n ≠ 0)
    (hepsilon : ∀ i, (A i).EpsilonAcyclic) :
    ∃ U, union? (fun i => ((A i).lift : Automaton m L (S i) (T i) W)) = .ok U ∧
      (∀ x, ∃ v : Fin n → W, ∀ queue : Queue W, ∃ N, ∀ budget, N ≤ budget →
        (∀ i, (A i).lift.stringWeight budget ⟨queue, .exact⟩ x = (pure (v i) : m W)) ∧
        (∀ i, (A i).lift.singleInitial.stringWeight budget ⟨queue, .exact⟩ x =
          (pure (v i) : m W)) ∧
        U.stringWeight budget ⟨queue, .exact⟩ x = pure (∑ i, v i)) ∧
      ((∀ i, (A i).Acyclic) → ∃ v : Fin n → W, ∀ queue : Queue W, ∃ N, ∀ budget, N ≤ budget →
        (∀ i, (A i).lift.completeDistance budget ⟨queue, .exact⟩ = (pure (v i) : m W)) ∧
        (∀ i, (A i).lift.singleInitial.completeDistance budget ⟨queue, .exact⟩ =
          (pure (v i) : m W)) ∧
        U.completeDistance budget ⟨queue, .exact⟩ = pure (∑ i, v i)) :=
  ⟨_, if_neg hn, exists_stringWeights m hA hfinite hepsilon, exists_completeDistances m hA hfinite⟩

end Family

/-- Both states are initial and final, and an epsilon transition leads from the one to the other. -/
def bothEnds : Automaton Id Unit Bool Unit ℕ where
  initialStates := pure [false, true]
  outgoing s := pure (if s then [] else [()])
  initialWeight s := pure (if s then 3 else 2)
  finalWeight s := pure (if s then 5 else 1)
  weight _ := pure 7
  source _ := false
  target _ := true
  label _ := none

theorem acyclic_bothEnds : bothEnds.Acyclic := by
  intro s _ ts hne hpath hend
  match s, ts with
  | _, [] => exact hne rfl
  | true, t :: ts => exact absurd hpath.1 List.not_mem_nil
  | false, [t] => cases hend
  | false, t :: u :: ts => exact absurd hpath.2.1 List.not_mem_nil

theorem lawful_bothEnds : bothEnds.Lawful := ⟨by decide, by decide, by decide⟩

/-- More than the paths from either state. -/
def bothEndsSize : Bool → ℕ
  | false => 2
  | true => 1

/-- The empty string, which is all that is read, has weight 2 · 1 + 3 · 5 + 2 · 7 · 5. -/
theorem stringWeight_bothEnds (queue : Queue ℕ) : ∃ N, ∀ budget, N ≤ budget →
    (bothEnds.lift : Automaton Option _ _ _ _).stringWeight budget ⟨queue, .exact⟩ [] =
      some 87 := by
  have hsize : (bothEnds.epsilonPart []).Bounded bothEnds.Reachable bothEndsSize := by
    refine ⟨closed_epsilonPart [] bothEnds.closed_reachable, ?_⟩
    rintro (_ | _) _ <;> decide
  have hepsilon : bothEnds.EpsilonAcyclic := fun s hs ts hne hpath _ =>
    acyclic_bothEnds s hs ts hne hpath
  have hvalue : bothEnds.stringTotal bothEndsSize [] = 87 := by decide
  rw [← hvalue]
  exact (lift_answers_reachable Option bothEnds).exists_stringWeight_eq lawful_bothEnds
    (Set.toFinite _) hepsilon hsize queue []

theorem completeDistance_bothEnds (queue : Queue ℕ) : ∃ N, ∀ budget, N ≤ budget →
    (bothEnds.lift : Automaton Option _ _ _ _).completeDistance budget ⟨queue, .exact⟩ =
      some 87 := by
  have hsize : bothEnds.Bounded bothEnds.Reachable bothEndsSize := by
    refine ⟨bothEnds.closed_reachable, ?_⟩
    rintro (_ | _) _ <;> decide
  have hvalue : bothEnds.total bothEndsSize = 87 := by decide
  rw [← hvalue]
  exact (lift_answers_reachable Option bothEnds).exists_completeDistance_eq lawful_bothEnds hsize
    queue

theorem union_adds_bothEnds : ∃ U, union? (fun _ : Fin 2 =>
      (bothEnds.lift : Automaton Option _ _ _ _)) = .ok U ∧
    (∀ queue : Queue ℕ, ∃ N, ∀ budget, N ≤ budget →
      bothEnds.lift.stringWeight budget ⟨queue, .exact⟩ [] = some 87 ∧
      bothEnds.lift.singleInitial.stringWeight budget ⟨queue, .exact⟩ [] = some 87 ∧
      U.stringWeight budget ⟨queue, .exact⟩ [] = some 174) ∧
    ∀ queue : Queue ℕ, ∃ N, ∀ budget, N ≤ budget →
      bothEnds.lift.completeDistance budget ⟨queue, .exact⟩ = some 87 ∧
      bothEnds.lift.singleInitial.completeDistance budget ⟨queue, .exact⟩ = some 87 ∧
      U.completeDistance budget ⟨queue, .exact⟩ = some 174 := by
  obtain ⟨U, hU, hstrings, htotals⟩ := union_adds_singleInitial_keeps Option
    (A := fun _ : Fin 2 => bothEnds) (fun _ => lawful_bothEnds) (fun _ => Set.toFinite _)
    (by decide) fun _ s hs ts hne hpath _ => acyclic_bothEnds s hs ts hne hpath
  obtain ⟨v, hv⟩ := hstrings []
  obtain ⟨w, hw⟩ := htotals fun _ => acyclic_bothEnds
  have hstring : v = fun _ => 87 := funext fun i => eq_of_large_budgets
    ((hv .fifo).imp fun _ hN budget hbudget => (hN budget hbudget).1 i) (stringWeight_bothEnds .fifo)
  have htotal : w = fun _ => 87 := funext fun i => eq_of_large_budgets
    ((hw .fifo).imp fun _ hN budget hbudget => (hN budget hbudget).1 i)
    (completeDistance_bothEnds .fifo)
  subst hstring htotal
  refine ⟨U, hU, fun queue => ?_, fun queue => ?_⟩
  · obtain ⟨N, hN⟩ := hv queue
    refine ⟨N, fun budget hbudget => ?_⟩
    obtain ⟨hown, hsingle, hunion⟩ := hN budget hbudget
    exact ⟨hown 0, hsingle 0, hunion⟩
  · obtain ⟨N, hN⟩ := hw queue
    refine ⟨N, fun budget hbudget => ?_⟩
    obtain ⟨hown, hsingle, hunion⟩ := hN budget hbudget
    exact ⟨hown 0, hsingle 0, hunion⟩

end WeightedAutomata.Automaton
