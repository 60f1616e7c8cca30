import Mathlib.Algebra.Ring.Defs
import WeightedAutomata.CommandLine.WeightKind
import WeightedAutomata.Proofs.KBest.Followed
import WeightedAutomata.Weight.Numeric

/-!
Boolean weights satisfy the laws of weights.
-/
namespace WeightedAutomata.BooleanWeight

instance : CommSemiring BooleanWeight where
  add_assoc := by rintro ⟨a⟩ ⟨b⟩ ⟨c⟩; exact congrArg mk (Bool.or_assoc a b c)
  zero_add := by rintro ⟨a⟩; exact congrArg mk (Bool.false_or a)
  add_zero := by rintro ⟨a⟩; exact congrArg mk (Bool.or_false a)
  add_comm := by rintro ⟨a⟩ ⟨b⟩; exact congrArg mk (Bool.or_comm a b)
  mul_assoc := by rintro ⟨a⟩ ⟨b⟩ ⟨c⟩; exact congrArg mk (Bool.and_assoc a b c)
  one_mul := by rintro ⟨a⟩; exact congrArg mk (Bool.true_and a)
  mul_one := by rintro ⟨a⟩; exact congrArg mk (Bool.and_true a)
  mul_comm := by rintro ⟨a⟩ ⟨b⟩; exact congrArg mk (Bool.and_comm a b)
  zero_mul := by rintro ⟨a⟩; exact congrArg mk (Bool.false_and a)
  mul_zero := by rintro ⟨a⟩; exact congrArg mk (Bool.and_false a)
  left_distrib := by rintro ⟨a⟩ ⟨b⟩ ⟨c⟩; exact congrArg mk (Bool.and_or_distrib_left a b c)
  right_distrib := by rintro ⟨a⟩ ⟨b⟩ ⟨c⟩; exact congrArg mk (Bool.and_or_distrib_right a b c)
  nsmul := nsmulRec
  npow := npowRec

theorem compare_eq (a b : BooleanWeight) : compare a b = compare b.accepted a.accepted := rfl

instance : Std.TransOrd BooleanWeight where
  eq_swap {a b} := by
    rw [compare_eq, compare_eq]
    exact Std.OrientedCmp.eq_swap
  isLE_trans {a b c} hab hbc := by
    rw [compare_eq] at hab hbc ⊢
    exact Std.TransCmp.isLE_trans hbc hab

instance : Std.LawfulEqOrd BooleanWeight where
  eq_of_compare {a b} h := by
    obtain ⟨a⟩ := a
    obtain ⟨b⟩ := b
    rw [compare_eq] at h
    exact congrArg mk (Std.LawfulEqOrd.eq_of_compare h).symm

theorem ordered : KBest.Ordered BooleanWeight where
  zero_last := by rintro ⟨_ | _⟩ <;> decide
  mul_right := by rintro ⟨_ | _⟩ ⟨_ | _⟩ ⟨_ | _⟩ <;> decide

theorem compare_mul_isLE (a b : BooleanWeight) : (compare a (a * b)).isLE := by
  obtain ⟨_ | _⟩ := a <;> obtain ⟨_ | _⟩ := b <;> decide

end WeightedAutomata.BooleanWeight
