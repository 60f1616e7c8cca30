import Mathlib.Algebra.Tropical.Basic
import WeightedAutomata.Proofs.Relaxation.Cycles

/-!
Distances of automata with cycles, where one absorbs every weight. For every queue, the distance of
a state is the sum over the cycle-free paths to it, and all paths to it are absorbed.
-/
namespace WeightedAutomata.Automaton

open scoped BigOperators

variable {L S T W : Type} [BEq S] [LawfulBEq S] [Hashable S]

variable (m : Type → Type) [Monad m] [LawfulMonad m] [StepLimited m] in
/-- Once the budget is large enough, the distance of each state is the sum over the cycle-free paths
to it, and adding the weight of any path to it changes nothing. -/
theorem distances_eq_finsum_cycleFree [Semiring W] [BEq W] [LawfulBEq W] (hone : ∀ a : W, 1 + a = 1)
    (A : Automaton Id L S T W) (source : S) (hfinite : (A.reach source).Finite) (queue : Queue W) :
    (∀ q, (A.numbered.cycleFreePaths source q).Finite) ∧ ∃ d : Distances S W,
      (∀ q, d.getD q 0 =
        ∑ᶠ ts ∈ A.numbered.cycleFreePaths source q, A.numbered.forwardWeight (source, ts)) ∧
      (∀ q ts, A.IsPath source ts → A.endpoint source ts = q →
        d.getD q 0 + A.forwardWeight (source, ts) = d.getD q 0) ∧
      ∃ n, ∀ budget, n ≤ budget →
        (A.lift : Automaton m L S T W).distances budget ⟨queue, .exact⟩ source = pure d := by
  let idem : IdemSemiring W := IdemSemiring.ofSemiring fun a => by
    calc a + a = (1 + 1) * a := by rw [add_mul, one_mul]
      _ = a := by rw [hone, one_mul]
  have hle (a : W) : a ≤ 1 := (add_comm a 1).trans (hone a)
  have hclosed : A.Closed (· ∈ hfinite.toFinset) := by
    simpa only [Set.Finite.mem_toFinset] using A.closed_reach source
  have hsource : source ∈ hfinite.toFinset := hfinite.mem_toFinset.2 ⟨[], trivial, rfl⟩
  have hlift := lift_answers_everywhere m A
  obtain ⟨d, hd, habs, n, hrun⟩ :=
    hlift.distances_absorbing (fun _ _ => trivial) hclosed hsource hle queue
  refine ⟨finite_cycleFreePaths (closed_numbered hclosed) hsource, d, hd, fun q ts hts hend => ?_,
    n + 1, fun budget hbudget => hrun budget hbudget⟩
  rw [add_comm]
  exact hend ▸ habs ts hts

/-- Four states in a ring, with a shortcut and a loop. -/
def ring : Automaton Id Unit (Fin 4) (Fin 4 × Fin 4) (Tropical (WithTop ℕ)) where
  initialStates := pure [0]
  outgoing s := pure (match s with
    | 0 => [(0, 1), (0, 2)]
    | 1 => [(1, 2), (1, 1)]
    | 2 => [(2, 3)]
    | 3 => [(3, 0)])
  initialWeight s := pure (if s = 0 then 1 else 0)
  finalWeight _ := pure 1
  weight t := pure (.trop (t.2.val + 1 : ℕ))
  source := Prod.fst
  target := Prod.snd
  label _ := none

theorem distances_ring :
    (∀ a : Tropical (WithTop ℕ), 1 + a = 1) ∧ (ring.reach 0).Finite ∧
      (∀ q, (ring.numbered.cycleFreePaths 0 q).Finite) ∧
      ∃ d : Distances (Fin 4) (Tropical (WithTop ℕ)),
        (∀ q, d.getD q 0 =
          ∑ᶠ ts ∈ ring.numbered.cycleFreePaths 0 q, ring.numbered.forwardWeight (0, ts)) ∧
        (∀ q ts, ring.IsPath 0 ts → ring.endpoint 0 ts = q →
          d.getD q 0 + ring.forwardWeight (0, ts) = d.getD q 0) ∧
        ∃ n, ∀ budget, n ≤ budget →
          (ring.lift : Automaton Option _ _ _ _).distances budget ⟨.fifo, .exact⟩ 0 = some d := by
  have hone (a : Tropical (WithTop ℕ)) : 1 + a = 1 :=
    Tropical.add_eq_left (Tropical.untrop_le_iff.1 zero_le)
  have hfinite : (ring.reach 0).Finite := Set.toFinite _
  exact ⟨hone, hfinite, distances_eq_finsum_cycleFree Option hone ring 0 hfinite .fifo⟩

end WeightedAutomata.Automaton
