import WeightedAutomata.Proofs.Determinization.Readings

/-!
Sums over complete paths, by strings and in total, apart from the sizes that bound the paths. Where
all weights are equal they are zero, and all that is left to show is that they are computed.
-/
namespace WeightedAutomata.Automaton

variable {L S T W : Type}

section Totals

variable [Semiring W] {A : Automaton Id L S T W}

theorem fromStarts_add (f g : S → W) :
    A.fromStarts (fun s => f s + g s) = A.fromStarts f + A.fromStarts g := by
  unfold fromStarts
  rw [← List.sum_map_add]
  simp only [mul_add]

theorem fromStarts_congr {f g : S → W} (h : ∀ s ∈ A.starts, f s = g s) :
    A.fromStarts f = A.fromStarts g := by
  unfold fromStarts
  congr 1
  exact List.map_congr_left fun s hs => by rw [h s hs]

/-- The sum over the complete paths that read a string, where `closure` bounds the paths without
labels. -/
def stringTotal [BEq L] [BEq S] [BEq W] (A : Automaton Id L S T W) (closure : S → ℕ)
    (x : List L) : W :=
  A.fromStarts (A.closing closure (A.after closure A.exit x))

/-- The sum over all complete paths, where `size` bounds the paths. -/
def total (A : Automaton Id L S T W) (size : S → ℕ) : W :=
  A.fromStarts fun s => A.pathSum (size s) A.exit s

theorem stringTotal_congr [BEq L] [LawfulBEq L] [BEq S] [BEq W] [LawfulBEq W] (hA : A.Lawful)
    (hfinite : {s | A.Reachable s}.Finite) (hepsilon : A.EpsilonAcyclic) {closure closure' : S → ℕ}
    (hc : (A.epsilonPart []).Bounded A.Reachable closure)
    (hc' : (A.epsilonPart []).Bounded A.Reachable closure') (x : List L) :
    A.stringTotal closure x = A.stringTotal closure' x := by
  obtain ⟨size, hb⟩ := exists_bounded_reading hfinite hepsilon x
  exact (fromStarts_rest hc hb hA).symm.trans (fromStarts_rest hc' hb hA)

theorem total_congr {R R' : S → Prop} {size size' : S → ℕ} (hb : A.Bounded R size)
    (hb' : A.Bounded R' size') (hs : ∀ s ∈ A.starts, R s ∧ R' s) :
    A.total size = A.total size' :=
  fromStarts_congr fun s h => hb.pathSum_congr hb' A.exit (hs s h).1 (hs s h).2

end Totals

theorem exists_atMost {A : Automaton Id L S T W} (hfinite : {s | A.Reachable s}.Finite) :
    ∃ n, A.AtMost n := by
  classical
  refine ⟨hfinite.toFinset.card, fun l hl hs => ?_⟩
  rw [← List.toFinset_card_of_nodup hl]
  exact Finset.card_le_card fun s hmem => hfinite.mem_toFinset.2 (hs s (List.mem_toFinset.1 hmem))

section Answers

variable {m : Type → Type} [Monad m] [LawfulMonad m] [StepLimited m] [Semiring W]
variable [BEq S] [LawfulBEq S] [Hashable S] [BEq W] [LawfulBEq W]
variable {A : Automaton Id L S T W} {B : Automaton m L S T W} {R : S → Prop} (h : B.Answers A R)
include h

/-- The total is computed for every queue, once the budget is large enough. -/
theorem Answers.exists_completeDistance_eq (hA : A.Lawful) {size : S → ℕ}
    (hb : A.Bounded A.Reachable size) (queue : Queue W) : ∃ n, ∀ budget, n ≤ budget →
      B.completeDistance budget ⟨queue, .exact⟩ = pure (A.total size) :=
  ⟨(A.starts.map size).sum + 2, fun _ hbudget => h.completeDistance_eq hA hb queue (by omega)⟩

omit [LawfulBEq S] in
/-- Where one is zero, no distance is computed. -/
theorem Answers.exists_distancesFromInitial_of_subsingleton [Subsingleton W] (solver : Solver W)
    (budget : ℕ) : ∃ d : Distances S W, B.distancesFromInitial budget solver = pure d := by
  have hnone : B.singleInitial.distances budget solver none = pure ∅ := by
    have hinitial : B.singleInitial.initialWeight none = pure 1 := rfl
    unfold Automaton.distances
    rw [hinitial, pure_bind, if_pos (beq_iff_eq.2 (Subsingleton.elim _ _))]
  have hd := h.distancesFromInitial_eq_bind budget solver
  rw [hnone, pure_bind] at hd
  exact ⟨_, hd⟩

theorem Answers.completeDistance_of_subsingleton [Subsingleton W] {n : ℕ} (hn : A.AtMost n)
    (solver : Solver W) {budget : ℕ} (hbudget : n < budget) :
    B.completeDistance budget solver = pure 0 := by
  obtain ⟨states, -, hmem, hstates⟩ := h.states_eq hn
  obtain ⟨d, hd⟩ := h.exists_distancesFromInitial_of_subsingleton solver budget
  rw [h.completeDistance_eq_pure hd (hstates budget hbudget) fun s hs =>
    h.reachable ((hmem s).1 hs)]
  exact congrArg pure (Subsingleton.elim _ _)

theorem Answers.stringWeight_of_subsingleton [BEq L] [LawfulBEq L] [Subsingleton W]
    (solver : Solver W) (x : List L) {budget : ℕ} (hbudget : 0 < budget) :
    B.stringWeight budget solver x = pure 0 := by
  refine (h.product (singleString_answers x)).completeDistance_of_subsingleton (n := 0)
    (fun l _ hl => ?_) solver hbudget
  cases l with
  | nil => exact Nat.le_refl 0
  | cons s l =>
    obtain ⟨q, hq, -⟩ := (hl s List.mem_cons_self).exists_path
    obtain ⟨-, -, hne, -⟩ := mem_starts_product.1 hq
    exact absurd (Subsingleton.elim _ _) hne

end Answers

end WeightedAutomata.Automaton
