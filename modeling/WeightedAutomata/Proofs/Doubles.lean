import WeightedAutomata.Proofs.Copy.Mirrors
import WeightedAutomata.Weight.Numeric

/-!
What the operations on doubles cannot tell apart: the two zeros.
-/
namespace WeightedAutomata

open Float.Model (UnpackedFloat Format)

namespace Unpacked

/-- The same number; a zero may have either sign. -/
def Alike (u v : UnpackedFloat) : Prop := u = v ∨ ∃ s t, u = .zero s ∧ v = .zero t

variable {u u' v v' : UnpackedFloat}

theorem alike_of_compare (h : u.compare v = some .eq) : Alike u v := by
  cases u with
  | notANumber => cases h
  | zero s =>
    cases v with
    | zero t => exact .inr ⟨s, t, rfl, rfl⟩
    | notANumber => cases h
    | infinity t => cases t <;> cases h
    | finite t => cases t <;> cases h
  | infinity s =>
    cases v with
    | infinity t => cases s <;> cases t <;> first | exact .inl rfl | cases h
    | notANumber => cases s <;> cases h
    | zero t => cases s <;> cases h
    | finite t => cases s <;> cases h
  | finite s m e hm =>
    cases v with
    | notANumber => cases s <;> cases h
    | zero t => cases s <;> cases h
    | infinity t => cases s <;> cases t <;> cases h
    | finite t n d hn =>
      have hmagnitude (h : (compare e d).then (compare m n) = .eq) : m = n ∧ e = d := by
        rw [Ordering.then_eq_eq, Int.compare_eq_eq, Nat.compare_eq_eq] at h
        exact ⟨h.2, h.1⟩
      cases s <;> cases t
      · obtain ⟨rfl, rfl⟩ := hmagnitude (Ordering.swap_eq_eq.1 (Option.some.inj h))
        exact .inl rfl
      · cases h
      · cases h
      · obtain ⟨rfl, rfl⟩ := hmagnitude (Option.some.inj h)
        exact .inl rfl

theorem Alike.compare_eq (hu : Alike u u') (hv : Alike v v') : u.compare v = u'.compare v' := by
  obtain rfl | ⟨s, s', rfl, rfl⟩ := hu <;> obtain rfl | ⟨t, t', rfl, rfl⟩ := hv
  · rfl
  · cases u with
    | finite s => cases s <;> rfl
    | infinity s => cases s <;> rfl
    | _ => rfl
  · cases v with
    | finite s => cases s <;> rfl
    | infinity s => cases s <;> rfl
    | _ => rfl
  · rfl

theorem Alike.isNaN_eq (h : Alike u v) : u.isNaN = v.isNaN := by
  obtain rfl | ⟨s, t, rfl, rfl⟩ := h <;> rfl

theorem Alike.add (f : Format) (hu : Alike u u') (hv : Alike v v') :
    Alike (.add f u v) (.add f u' v') := by
  obtain rfl | ⟨s, s', rfl, rfl⟩ := hu <;> obtain rfl | ⟨t, t', rfl, rfl⟩ := hv
  · exact .inl rfl
  · cases u with
    | zero s => cases s <;> cases t <;> cases t' <;> exact .inr ⟨_, _, rfl, rfl⟩
    | _ => exact .inl rfl
  · cases v with
    | zero t => cases s <;> cases s' <;> cases t <;> exact .inr ⟨_, _, rfl, rfl⟩
    | _ => exact .inl rfl
  · cases s <;> cases s' <;> cases t <;> cases t' <;> exact .inr ⟨_, _, rfl, rfl⟩

theorem Alike.mul (f : Format) (hu : Alike u u') (hv : Alike v v') :
    Alike (.mul f u v) (.mul f u' v') := by
  obtain rfl | ⟨s, s', rfl, rfl⟩ := hu <;> obtain rfl | ⟨t, t', rfl, rfl⟩ := hv
  · exact .inl rfl
  · cases u with
    | zero | finite => exact .inr ⟨_, _, rfl, rfl⟩
    | _ => exact .inl rfl
  · cases v with
    | zero | finite => exact .inr ⟨_, _, rfl, rfl⟩
    | _ => exact .inl rfl
  · exact .inr ⟨_, _, rfl, rfl⟩

end Unpacked

/-- The same weight, or the same number. -/
def Agree {W : Type} [BEq W] (v w : W) : Prop := v = w ∨ v == w

theorem Agree.refl {W : Type} [BEq W] (w : W) : Agree w w := .inl rfl

/-- The number that a double stands for. -/
def Double.unpacked (x : Double) : UnpackedFloat := x.value.toModel.unpack

theorem Double.beq_eq (x y : Double) : (x == y) = x.unpacked.beq y.unpacked := rfl

theorem Agree.alike {x y : Double} (h : Agree x y) : Unpacked.Alike x.unpacked y.unpacked := by
  rcases h with rfl | h
  · exact .inl rfl
  · rw [Double.beq_eq] at h
    exact Unpacked.alike_of_compare (beq_iff_eq.1 h)

namespace Double

variable {x x' y y' : Double}

theorem beq_congr (hx : Agree x x') (hy : Agree y y') : (x == y) = (x' == y') := by
  change (x.unpacked.compare y.unpacked == some .eq) = (x'.unpacked.compare y'.unpacked == some .eq)
  rw [hx.alike.compare_eq hy.alike]

theorem isNaN_congr (h : Agree x y) : x.isNaN = y.isNaN := h.alike.isNaN_eq

theorem isInfinity_congr (h : Agree x y) : x.isInfinity = y.isInfinity :=
  beq_congr h (.refl infinity)

theorem eq_of_isNaN (h : Agree x y) (hx : x.isNaN) : x = y := by
  refine h.resolve_right fun hbeq => ?_
  have hnan : x.unpacked.isNaN := hx
  rw [beq_eq] at hbeq
  cases hu : x.unpacked with
  | notANumber =>
    rw [hu] at hbeq
    cases hbeq
  | _ =>
    rw [hu] at hnan
    cases hnan

theorem combine_congr {op : Float → Float → Float}
    {f : UnpackedFloat → UnpackedFloat → UnpackedFloat}
    (hop : ∀ a b, op a b = .ofModel (.pack (f a.toModel.unpack b.toModel.unpack)))
    (hf : ∀ u u', Unpacked.Alike u u' → ∀ v v', Unpacked.Alike v v' →
      Unpacked.Alike (f u v) (f u' v'))
    (hx : Agree x x') (hy : Agree y y') : Agree (combine op x y) (combine op x' y') := by
  unfold combine
  rw [← isNaN_congr hx, ← isNaN_congr hy]
  by_cases hxnan : x.isNaN
  · rw [if_pos hxnan, if_pos hxnan, eq_of_isNaN hx hxnan]
    exact .refl _
  · rw [if_neg hxnan, if_neg hxnan]
    by_cases hynan : y.isNaN
    · rw [if_pos hynan, if_pos hynan, eq_of_isNaN hy hynan]
      exact .refl _
    · rw [if_neg hynan, if_neg hynan]
      dsimp only
      rw [hop, hop]
      have hresult := hf _ _ hx.alike _ _ hy.alike
      unfold unpacked at hresult
      rcases hresult with heq | ⟨s, t, hs, ht⟩
      · rw [heq]
        exact .refl _
      · rw [hs, ht]
        refine .inr ?_
        cases s <;> cases t <;> decide

theorem add_congr (hx : Agree x x') (hy : Agree y y') : Agree (x + y) (x' + y') :=
  combine_congr (fun _ _ => rfl) (fun _ _ hu _ _ hv => hu.add _ hv) hx hy

theorem mul_congr (hx : Agree x x') (hy : Agree y y') : Agree (x * y) (x' * y') :=
  combine_congr (fun _ _ => rfl) (fun _ _ hu _ _ hv => hu.mul _ hv) hx hy

theorem addCosts_congr (hx : Agree x x') (hy : Agree y y') :
    Agree (x.addCosts y) (x'.addCosts y') := by
  unfold addCosts
  rw [isInfinity_congr hx, isInfinity_congr hy]
  split
  · exact .refl _
  · exact add_congr hx hy

theorem le_congr (hx : Agree x x') (hy : Agree y y') : x.value ≤ y.value ↔ x'.value ≤ y'.value := by
  have h : x.unpacked.le y.unpacked = x'.unpacked.le y'.unpacked := by
    rw [UnpackedFloat.le, hx.alike.compare_eq hy.alike, UnpackedFloat.le]
  change decide (x.unpacked.le y.unpacked = true) = true ↔
    decide (x'.unpacked.le y'.unpacked = true) = true
  rw [h]

end Double

namespace RealWeight

theorem agree_iff (v w : RealWeight) : Agree v w ↔ Agree v.value w.value := by
  obtain ⟨x⟩ := v
  obtain ⟨y⟩ := w
  exact or_congr_left (by rw [mk.injEq])

theorem congruent_agree : Congruent (Agree : RealWeight → RealWeight → Prop) where
  refl := .refl
  add _ _ hv _ _ hw :=
    (agree_iff _ _).2 (Double.add_congr ((agree_iff _ _).1 hv) ((agree_iff _ _).1 hw))
  mul _ _ hv _ _ hw :=
    (agree_iff _ _).2 (Double.mul_congr ((agree_iff _ _).1 hv) ((agree_iff _ _).1 hw))
  beq_zero_eq _ _ hw := Double.beq_congr ((agree_iff _ _).1 hw) (.refl 0)

theorem respects_default : (Solver.default : Solver RealWeight).Respects Agree where
  queue := trivial
  converged_eq _ _ hv _ _ hw := Double.beq_congr ((agree_iff _ _).1 hv) ((agree_iff _ _).1 hw)

end RealWeight

namespace TropicalWeight

theorem agree_iff (v w : TropicalWeight) : Agree v w ↔ Agree v.value w.value := by
  obtain ⟨x⟩ := v
  obtain ⟨y⟩ := w
  exact or_congr_left (by rw [mk.injEq])

theorem add_congr {v v' w w' : TropicalWeight} (hv : Agree v v') (hw : Agree w w') :
    Agree (v + w) (v' + w') := by
  have hle := Double.le_congr ((agree_iff _ _).1 hw) ((agree_iff _ _).1 hv)
  have hnan := Double.isNaN_congr ((agree_iff _ _).1 hv)
  change Agree (if decide (w.value.value ≤ v.value.value) || v.value.isNaN then w else v)
    (if decide (w'.value.value ≤ v'.value.value) || v'.value.isNaN then w' else v')
  rw [hnan, (decide_eq_decide.2 hle : decide _ = decide (w'.value.value ≤ v'.value.value))]
  split
  · exact hw
  · exact hv

theorem congruent_agree : Congruent (Agree : TropicalWeight → TropicalWeight → Prop) where
  refl := .refl
  add _ _ hv _ _ hw := add_congr hv hw
  mul _ _ hv _ _ hw :=
    (agree_iff _ _).2 (Double.addCosts_congr ((agree_iff _ _).1 hv) ((agree_iff _ _).1 hw))
  beq_zero_eq _ _ hw := Double.beq_congr ((agree_iff _ _).1 hw) (.refl Double.infinity)

theorem respects_default : (Solver.default : Solver TropicalWeight).Respects Agree where
  queue := trivial
  converged_eq _ _ hv _ _ hw := Double.beq_congr ((agree_iff _ _).1 hv) ((agree_iff _ _).1 hw)

end TropicalWeight

end WeightedAutomata
