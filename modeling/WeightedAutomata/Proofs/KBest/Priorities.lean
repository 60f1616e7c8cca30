import WeightedAutomata.KBest.View
import WeightedAutomata.View.SingleInitial
import WeightedAutomata.Proofs.KBest.Order
import WeightedAutomata.Proofs.Relaxation.BestFirst
import WeightedAutomata.Proofs.Relaxation.Calls

/-!
Lists of best entries as priorities. Their order is a total preorder in which no sum is worse than
a summand, and all that a search adds up are normal lists, so the priorities of a state get better
from one insertion to the next.
-/
namespace WeightedAutomata

open KBest

variable {k : ℕ} {L S T U V W : Type} [Ord W]

namespace KBest

section Bare

variable (k S T W) in
/-- There is no normal list but the empty one. -/
def Bare [Zero W] : Prop := ∀ l : List (PathWeight S T W), Ranked k l → l = []

theorem Bare.of_zero [Zero W] : Bare 0 S T W := fun _ hl =>
  List.eq_nil_of_length_eq_zero (Nat.le_zero.1 hl.length_le)

theorem Bare.of_one_eq_zero [MonoidWithZero W] (h : (1 : W) = 0) : Bare k S T W := fun _ hl =>
  List.eq_nil_iff_forall_not_mem.2 fun e he => hl.live e he (eq_zero_of_zero_eq_one h.symm _)

theorem bare_or_ranked_singleton [Zero W] {e : PathWeight S T W} (he : e.weight ≠ 0) :
    Bare k S T W ∨ Ranked k [e] := by
  rcases Nat.eq_zero_or_pos k with rfl | hk
  · exact .inl .of_zero
  · exact .inr (ranked_singleton hk he)

theorem bare_or_ranked_single [Zero W] [BEq W] [LawfulBEq W] (e : PathWeight S T W) :
    Bare k S T W ∨ Ranked k (single e : KBest k S T W).entries := by
  unfold single
  split
  · exact .inr ranked_nil
  · next he => exact bare_or_ranked_singleton (by simpa using he)

theorem bare_or_ranked_one [MonoidWithZero W] :
    Bare k S T W ∨ Ranked k (1 : KBest k S T W).entries := by
  by_cases h : (1 : W) = 0
  · exact .inl (.of_one_eq_zero h)
  · exact bare_or_ranked_singleton h

end Bare

variable [Zero W] [BEq S] [BEq T] [BEq W]

variable (k S T W) in
/-- The order of the lists is a total preorder with the empty list last, and adding to a normal list
does not make it worse. -/
structure OrderLaws : Prop where
  swap : ∀ a b : KBest k S T W, compare a b = (compare b a).swap
  total : ∀ a b : KBest k S T W, (compare a b).isLE ∨ (compare b a).isLE
  trans : ∀ a b c : KBest k S T W, (compare a b).isLE → (compare b c).isLE → (compare a c).isLE
  eq_iff : ∀ a b : KBest k S T W, compare a b = .eq ↔
    List.Forall₂ (fun v w => compare v w = .eq) a.weights b.weights
  empty_last : ∀ a : KBest k S T W, a ≠ 0 → compare a 0 = .lt
  add : ∀ a b : KBest k S T W, Ranked k a.entries → Ranked k b.entries →
    (compare (a + b) a).isLE ∧ (compare (a + b) b).isLE

theorem orderLaws [LawfulBEq S] [LawfulBEq T] [LawfulBEq W] [Std.TransOrd W] :
    OrderLaws k S T W where
  swap _ _ := Std.OrientedOrd.eq_swap
  total a b := by
    rw [Std.OrientedOrd.eq_swap (a := b)]
    cases compare a b <;> simp
  trans _ _ _ := Std.TransCmp.isLE_trans
  eq_iff a b := by
    rw [weights, weights, List.forall₂_map_left_iff, List.forall₂_map_right_iff]
    exact compareEntries_eq_iff
  empty_last a ha := by
    obtain ⟨_ | ⟨e, l⟩⟩ := a
    · exact absurd rfl ha
    · rfl
  add _ _ := Ranked.compare_add_isLE

end KBest

namespace Relaxation

variable [BEq U] [Hashable U] [Zero W]

/-- All distances are normal lists, or there is nothing to add to them. -/
def Tidy (r : Relaxation U (KBest k S T W)) : Prop :=
  Bare k S T W ∨ ∀ q, Ranked k (r.distance q).entries

variable [LawfulBEq U]

theorem tidy_start {discipline : Discipline U (KBest k S T W)} {source : U} {w : KBest k S T W}
    (h : Bare k S T W ∨ Ranked k w.entries) : (start discipline source w).Tidy := by
  refine h.imp_right fun hw q => ?_
  rw [distance_start]
  split
  · exact hw
  · exact ranked_nil

variable [BEq S] [LawfulBEq S] [BEq T] [LawfulBEq T] [BEq W] [LawfulBEq W]

theorem Tidy.gain [Std.TransOrd W] {r : Relaxation U (KBest k S T W)} (h : r.Tidy) {target : U}
    {delta : KBest k S T W} (hdelta : Ranked k delta.entries) (hz : (delta == 0) = false) :
    (r.gain target delta).Tidy ∧
      (compare (r.distance target + delta) (r.distance target)).isLE := by
  rcases h with hbare | h
  · have hzero : delta = 0 := congrArg KBest.mk (hbare _ hdelta)
    rw [hzero, beq_self_eq_true] at hz
    cases hz
  · refine ⟨.inr fun q => ?_, (Ranked.compare_add_isLE (h target) hdelta).1⟩
    rw [distance_gain]
    split
    · exact ranked_ofEntries _
    · exact h q

end Relaxation

namespace Automaton

/-- The calls of a search are those that take its frontier through it, and no state is inserted with
a priority that is worse than an earlier one. -/
structure AsksNoWorse [BEq U] [Hashable U] [Zero W] [Add W] [Mul W] [BEq W]
    (Q : Automaton Id L U V W) (solver : Solver W) (budget : ℕ) (source : U) : Prop where
  replay : (Q.entry source == 0) = false →
    ((Frontier.worklist (solver.queue.discipline Q.order)).run
        (Q.frontierCalls solver budget source)).1 =
      (Q.steps solver.converged budget
        (.start (solver.queue.discipline Q.order) source (Q.entry source))).frontier
  neverWorse : NeverWorse (Q.frontierCalls solver budget source)

variable [BEq S] [LawfulBEq S] [BEq T] [LawfulBEq T] [BEq W] [LawfulBEq W]

theorem asksNoWorse [BEq U] [LawfulBEq U] [Hashable U] [Zero W] [Mul W] [Std.TransOrd W]
    (Q : Automaton Id L U V (KBest k S T W)) (solver : Solver (KBest k S T W)) (budget : ℕ)
    {source : U} (h : Bare k S T W ∨ Ranked k (Q.entry source).entries) :
    Q.AsksNoWorse solver budget source where
  replay := Q.run_frontierCalls solver budget
  neverWorse := neverWorse_frontierCalls (P := Relaxation.Tidy)
    (fun _ hr _ _ hz => hr.gain (ranked_ofEntries _) hz) (fun _ hr _ _ => hr)
    (Relaxation.tidy_start h) budget

/-- The order of the lists is lawful, and adding to a normal list does not make it worse. So in
every search over such lists, the priorities with which a state is inserted never get worse. -/
theorem kBest_priorities [Semiring W] [Std.TransOrd W] [Hashable S] (A : Automaton Id L S T W)
    (k : ℕ) (solver : Solver (KBest k S T W)) (budget : ℕ) :
    OrderLaws k S T W ∧
    (∀ source, (A.kBest k).AsksNoWorse solver budget source) ∧
    (A.kBest k).singleInitial.AsksNoWorse solver budget none ∧
    ∀ {U V : Type} [BEq U] [LawfulBEq U] [Hashable U] (Q : Automaton Id L U V (KBest k S T W))
      (source : U), Ranked k (Q.entry source).entries → Q.AsksNoWorse solver budget source :=
  ⟨orderLaws, fun _ => asksNoWorse _ solver budget (bare_or_ranked_single _),
    asksNoWorse _ solver budget bare_or_ranked_one,
    fun Q _ h => asksNoWorse Q solver budget (.inr h)⟩

/-- Here state 1 comes in a second time with a better priority. -/
theorem kBest_priorities_shortCuts : Std.TransOrd (Tropical (WithTop ℕ)) ∧
    OrderLaws 2 (Fin 5) (Fin 5 × Fin 5) (Tropical (WithTop ℕ)) ∧
    (∀ source, (shortCuts.kBest 2).AsksNoWorse .bestFirst 10 source) ∧
    (shortCuts.kBest 2).singleInitial.AsksNoWorse .bestFirst 10 none ∧
    ∀ {U V : Type} [BEq U] [LawfulBEq U] [Hashable U]
      (Q : Automaton Id Unit U V (KBest 2 (Fin 5) (Fin 5 × Fin 5) (Tropical (WithTop ℕ))))
      (source : U), Ranked 2 (Q.entry source).entries → Q.AsksNoWorse .bestFirst 10 source :=
  ⟨inferInstance, kBest_priorities shortCuts 2 .bestFirst 10⟩

end Automaton

end WeightedAutomata
