import Mathlib.Algebra.Group.Nat.Defs
import WeightedAutomata.Description.Text
import WeightedAutomata.Proofs.Json.Values

/-!
What is written for a weight can be read.
-/
namespace WeightedAutomata

open Float.Model (UnpackedFloat Format)

/-- Without a fraction and an exponent the bits stand for a zero. -/
theorem unpack_zero {b : BitVec (Format.numBits Format.binary64)}
    (hfraction : b.toNat % 2 ^ 52 = 0) (hexponent : b.toNat / 2 ^ 52 % 2048 = 0) :
    ∃ s, UnpackedFloat.unpack Format.binary64 b = .zero s := by
  have hm : UnpackedFloat.unpackMantissa b = 0#_ := by
    apply BitVec.eq_of_toNat_eq
    simp [UnpackedFloat.unpackMantissa]
    exact hfraction
  have he : UnpackedFloat.unpackExponent b = 0#_ := by
    apply BitVec.eq_of_toNat_eq
    simp [UnpackedFloat.unpackExponent, Nat.shiftRight_eq_div_pow]
    exact hexponent
  have hfinite : UnpackedFloat.unpackExponent b ≠ -1#_ := by
    rw [he]
    decide
  refine ⟨.ofBitVec (UnpackedFloat.unpackSign b), ?_⟩
  unfold UnpackedFloat.unpack
  dsimp only
  rw [if_neg hfinite, if_pos he, dif_pos hm]

namespace Binary

theorem mantissa_ofFloat_ne_zero {x : Float} (h : (x == 0) = false) :
    (ofFloat x).mantissa ≠ 0 := by
  intro hzero
  unfold ofFloat at hzero
  dsimp only at hzero
  split at hzero
  · next hexponent =>
    obtain ⟨s, hs⟩ := unpack_zero hzero hexponent
    have hbeq : (x == 0) = x.toModel.unpack.beq (0 : Float).toModel.unpack := rfl
    have hx : x.toModel.unpack = .zero s := hs
    rw [hbeq, hx] at h
    cases h
  · exact absurd hzero (by simp [hiddenBit])

variable {b : Binary}

theorem low_rounding_pos (hb : b.mantissa ≠ 0) : 0 < b.rounding.low := by
  have hup : 0 < Nat.pow 2 (b.exponent - 2).toNat := Nat.pow_pos (by decide)
  refine Nat.mul_pos ?_ hup
  split <;> omega

end Binary

theorem Rounding.digits_ne_zero {r : Rounding} (hr : 0 < r.low) {digits : ℕ} {exponent : ℤ}
    (h : r.contains digits exponent) : digits ≠ 0 := by
  rintro rfl
  have hscale : 0 < Nat.pow 10 (-exponent).toNat := Nat.pow_pos (by decide)
  have hlow := Nat.mul_pos hr hscale
  unfold contains at h
  dsimp only at h
  rw [Nat.zero_mul, Nat.zero_mul] at h
  split at h
  · exact absurd (of_decide_eq_true h).1 (Nat.not_le_of_lt hlow)
  · exact absurd (of_decide_eq_true h).1 (Nat.not_lt_zero _)

theorem Rounding.nearest?_ne_zero {r : Rounding} (hr : 0 < r.low) {tie : Tie} {exponent : ℤ}
    {digits : ℕ} (h : r.nearest? tie exponent = some digits) : digits ≠ 0 := by
  unfold nearest? at h
  dsimp only at h
  split at h
  · next hfloor _ =>
    have := digits_ne_zero hr hfloor
    split at h <;> cases h
    · exact this
    · exact Nat.succ_ne_zero _
  · next hfloor _ =>
    cases h
    exact digits_ne_zero hr hfloor
  · cases h
    exact Nat.succ_ne_zero _
  · cases h

theorem Decimal.Scientific.dropZero_digits_ne_zero {s : Scientific} (h : s.digits ≠ 0) :
    s.dropZero.digits ≠ 0 := by
  unfold dropZero
  split
  · dsimp only
    omega
  · exact h

/-- A number that is not zero has digits, unless none are found. -/
theorem Binary.digits_shortest {b : Binary} (hb : b.mantissa ≠ 0) (tie : Tie) :
    (b.shortest tie).digits ≠ 0 ∨ (b.shortest tie).exponent ≤ 0 := by
  unfold shortest
  dsimp only
  cases hfind : (List.range 17).findSome? fun n =>
      (b.rounding.nearest? tie (b.rounding.order - (n + 1 : ℕ))).map fun digits =>
        (Decimal.Scientific.mk digits (b.rounding.order - (n + 1 : ℕ))).dropZero with
  | none => exact .inr (Int.le_refl _)
  | some s =>
    obtain ⟨n, -, hn⟩ := List.exists_of_findSome?_eq_some hfind
    obtain ⟨digits, hdigits, rfl⟩ := Option.map_eq_some_iff.1 hn
    exact .inl (Decimal.Scientific.dropZero_digits_ne_zero
      (Rounding.nearest?_ne_zero (low_rounding_pos hb) hdigits))

namespace Json

theorem Value.legible_ofDouble (x : Double) : (ofDouble x).Legible := by
  unfold ofDouble
  split
  · refine .number (Numeral.wellFormed_ofScientific _ ?_)
    split
    · exact .inr (Int.le_refl _)
    · next hne =>
      have hzero : (0 : Double).value = 0 := by decide
      have hvalue : (x.value == (0 : Float)) = false := by
        rw [← hzero]
        exact eq_false_of_ne_true hne
      exact Binary.digits_shortest (Binary.mantissa_ofFloat_ne_zero hvalue) _
  · exact .null

end Json

end WeightedAutomata
