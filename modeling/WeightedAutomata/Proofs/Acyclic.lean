import WeightedAutomata.Proofs.Total

/-!
Distances of acyclic automata. For every queue, the distance of a state is the sum over the paths
from initial states to it, and the complete distance is the sum over the complete paths.
-/
namespace WeightedAutomata.Automaton

open scoped BigOperators

variable {L S T W : Type} [Semiring W]

section Sets

variable (A : Automaton Id L S T W)

/-- An initial state and a path from it to `q`. -/
def pathsTo (q : S) : Set (S × List T) :=
  {c | c.1 ∈ A.starts ∧ A.IsPath c.1 c.2 ∧ A.endpoint c.1 c.2 = q}

end Sets

section Sums

variable {A : Automaton Id L S T W} {R : S → Prop} {size : S → ℕ}

/-- Where transitions are listed once, the paths from the initial states to `q`, start by start. -/
theorem finsum_pathsTo_of_nodup (hstarts : A.starts.Nodup) (hl : ∀ s, (A.leaving s).Nodup)
    (bound : S → ℕ) (hb : ∀ s ∈ A.starts, ∀ ts, A.IsPath s ts → ts.length < bound s) (q : S) :
    (A.pathsTo q).Finite ∧ ∑ᶠ c ∈ A.pathsTo q, A.forwardWeight c =
      (A.starts.map fun s => A.entry s * A.pathSum (bound s) (indicator q) s).sum := by
  classical
  obtain ⟨hfin, hsum⟩ := finsum_paths hstarts hl (fun s ts => A.endpoint s ts = q) bound
    (fun s hs ts hts _ => hb s hs ts hts) A.forwardWeight
  refine ⟨hfin, hsum.trans ?_⟩
  congr 1
  apply List.map_congr_left
  intro s _
  rw [← sum_paths_eq_pathSum, ← List.sum_map_mul_left]
  congr 1
  apply List.map_congr_left
  intro ts _
  by_cases hend : A.endpoint s ts = q
  · rw [if_pos hend, hend, indicator_self, mul_one]
    rfl
  · rw [if_neg hend, indicator_of_ne hend, mul_zero, mul_zero]

variable (hA : A.Lawful) (hb : A.Bounded R size) (hs : ∀ s ∈ A.starts, R s)
include hA hb hs

omit [Semiring W] hA in
theorem Bounded.length_numbered_lt {s : S} (hstart : s ∈ A.starts) {ts : List (T × ℕ)}
    (hts : A.numbered.IsPath s ts) : ts.length < size s := by
  rw [← List.length_map (f := Prod.fst)]
  exact hb.length_lt (hs s hstart) (isPath_map_fst hts)

theorem finsum_pathsTo (q : S) : (A.numbered.pathsTo q).Finite ∧
    ∑ᶠ c ∈ A.numbered.pathsTo q, A.numbered.forwardWeight c =
      (A.starts.map fun s => A.entry s * A.pathSum (size s) (indicator q) s).sum := by
  have hnumbered := finsum_pathsTo_of_nodup (A := A.numbered) hA.starts_nodup
    nodup_leaving_numbered size (fun s hstart ts hts => hb.length_numbered_lt hs hstart hts) q
  simp only [pathSum_numbered] at hnumbered
  exact hnumbered

theorem finsum_numbered_completePaths : A.numbered.completePaths.Finite ∧
    ∑ᶠ c ∈ A.numbered.completePaths, A.numbered.completeWeight c =
      (A.starts.map fun s => A.entry s * A.pathSum (size s) A.exit s).sum := by
  obtain ⟨hfin, hsum⟩ := finsum_completePaths (A := A.numbered) hA.starts_nodup
    nodup_leaving_numbered (fun _ => True) size fun s hstart ts hts _ =>
      hb.length_numbered_lt hs hstart hts
  have hset : {c ∈ A.numbered.completePaths | True} = A.numbered.completePaths :=
    Set.sep_true
  rw [hset] at hfin hsum
  refine ⟨hfin, hsum.trans ?_⟩
  congr 1
  apply List.map_congr_left
  intro s _
  rw [← sum_paths_numbered]
  simp only [if_true]
  rfl

end Sums

variable [BEq W] [LawfulBEq W] [BEq S] [LawfulBEq S] [Hashable S] {m : Type → Type} [Monad m]
variable [LawfulMonad m] [StepLimited m]

variable (m) in
/-- For every queue, once the budget is large enough, the distance of each state is the sum over the
paths from initial states to it, and the complete distance is the sum over the complete paths.
Parallel equal transitions make different paths. -/
theorem distancesFromInitial_eq_finsum (A : Automaton Id L S T W) (hA : A.Lawful)
    (hfinite : {s | A.Reachable s}.Finite) (hacyclic : A.Acyclic) (queue : Queue W) :
    (∀ q, (A.numbered.pathsTo q).Finite) ∧ A.numbered.completePaths.Finite ∧
      ∃ d : Distances S W,
        (∀ q, d.getD q 0 = ∑ᶠ c ∈ A.numbered.pathsTo q, A.numbered.forwardWeight c) ∧
        ∃ n, ∀ budget, n ≤ budget →
          (A.lift : Automaton m L S T W).distancesFromInitial budget ⟨queue, .exact⟩ = pure d ∧
          (A.lift : Automaton m L S T W).completeDistance budget ⟨queue, .exact⟩ =
            pure (∑ᶠ c ∈ A.numbered.completePaths, A.numbered.completeWeight c) := by
  obtain ⟨size, hb⟩ := exists_bounded A.closed_reachable hfinite hacyclic
  have hstarts : ∀ s ∈ A.starts, A.Reachable s := fun s hs => .start hs
  have hlift := lift_answers_reachable m A
  obtain ⟨d, ws, hd, hws, hrun⟩ := hlift.distancesFromInitial_eq hA hb queue
  refine ⟨fun q => (finsum_pathsTo hA hb hstarts q).1,
    (finsum_numbered_completePaths hA hb hstarts).1, d, fun q => ?_,
    (A.starts.map size).sum + 2, fun budget hbudget => ⟨hrun budget (by omega), ?_⟩⟩
  · rw [hd.getD_eq, hws, (finsum_pathsTo hA hb hstarts q).2]
  · rw [(finsum_numbered_completePaths hA hb hstarts).2]
    exact hlift.completeDistance_eq hA hb queue (by omega)

/-- Two initial states, of which one leads to the other by two parallel transitions. -/
def doubleStep : Automaton Id Unit Bool Bool ℕ where
  initialStates := pure [false, true]
  outgoing s := pure (if s then [] else [false, true])
  initialWeight s := pure (if s then 5 else 2)
  finalWeight s := pure (if s then 1 else 0)
  weight t := pure (if t then 3 else 4)
  source _ := false
  target _ := true
  label _ := none

theorem distancesFromInitial_doubleStep :
    (∀ q, (doubleStep.numbered.pathsTo q).Finite) ∧ doubleStep.numbered.completePaths.Finite ∧
      ∃ d : Distances Bool ℕ, (∀ q, d.getD q 0 =
          ∑ᶠ c ∈ doubleStep.numbered.pathsTo q, doubleStep.numbered.forwardWeight c) ∧
        ∃ n, ∀ budget, n ≤ budget →
          (doubleStep.lift : Automaton Option Unit Bool Bool ℕ).distancesFromInitial budget
            ⟨.fifo, .exact⟩ = some d ∧
          (doubleStep.lift : Automaton Option Unit Bool Bool ℕ).completeDistance budget
            ⟨.fifo, .exact⟩ = some (∑ᶠ c ∈ doubleStep.numbered.completePaths,
              doubleStep.numbered.completeWeight c) := by
  refine distancesFromInitial_eq_finsum Option doubleStep ⟨by decide, by decide, by decide⟩
    (Set.toFinite _) ?_ .fifo
  intro s _ ts hne hpath
  match s, ts with
  | _, [] => exact absurd rfl hne
  | true, t :: ts => exact absurd hpath.1 List.not_mem_nil
  | false, [t] => exact nofun
  | false, t :: u :: ts => exact absurd hpath.2.1 List.not_mem_nil

end WeightedAutomata.Automaton
