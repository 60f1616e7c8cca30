import Mathlib.Algebra.Tropical.Lattice
import Mathlib.Data.Int.ConditionallyCompleteOrder
import Mathlib.Order.Lattice.Nat
import WeightedAutomata.Proofs.KBest.Followed

/-!
Exact costs, of which the least counts. A factor that is not infinite keeps the lesser cost the
lesser one, and a factor that is not negative makes no cost less.
-/
namespace WeightedAutomata.Costs

open Tropical

theorem isLE_compare_iff {α : Type} [LinearOrder α] {a b : α} : (compare a b).isLE ↔ a ≤ b := by
  rw [Ordering.isLE_iff_ne_gt, ← not_lt]
  exact not_congr compare_gt_iff_gt

theorem strictlyOrdered : KBest.StrictlyOrdered (Tropical (WithTop ℤ)) where
  zero_last a := isLE_compare_iff.2 (le_zero a)
  mul_right_lt c hc a b h := by
    rw [compare_lt_iff_lt] at h ⊢
    exact WithTop.add_lt_add_right (fun htop => hc (untrop_injective htop)) h
  mul_left_lt c hc a b h := by
    rw [compare_lt_iff_lt] at h ⊢
    exact WithTop.add_lt_add_left (fun htop => hc (untrop_injective htop)) h

theorem ordered : KBest.Ordered (Tropical (WithTop ℕ)) where
  zero_last a := isLE_compare_iff.2 (le_zero a)
  mul_right _ _ c h := isLE_compare_iff.2 (mul_le_mul_left (isLE_compare_iff.1 h) c)

theorem isLE_mul (a b : Tropical (WithTop ℕ)) : (compare a (a * b)).isLE :=
  isLE_compare_iff.2 (untrop_le_iff.1 le_self_add)

theorem isLE_add {R : Type} [LinearOrder R] (a b : Tropical R) :
    (compare (a + b) a).isLE ∧ (compare (a + b) b).isLE := by
  have hmin : a + b = min a b := congrFun (congrFun min_eq_add a) b |>.symm
  rw [isLE_compare_iff, isLE_compare_iff, hmin]
  exact ⟨min_le_left a b, min_le_right a b⟩

end WeightedAutomata.Costs
