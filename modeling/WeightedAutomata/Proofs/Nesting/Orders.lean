import Mathlib.Data.Nat.Notation
import WeightedAutomata.View.Product
import WeightedAutomata.View.SingleInitial
import WeightedAutomata.View.Union

/-!
Comparisons that are total orders, and how the views combine those of their operands.
-/
namespace WeightedAutomata

theorem Tagged.compare_mk {n : ℕ} {S : Fin n → Type} (order : (i : Fin n) → S i → S i → Ordering)
    (i : Fin n) (x y : S i) : Tagged.compare order ⟨i, x⟩ ⟨i, y⟩ = order i x y := by
  simp [Tagged.compare]

theorem eq_some_of_allSome? {n : ℕ} {α : Fin n → Type} {f : (i : Fin n) → Option (α i)}
    {g : (i : Fin n) → α i} (h : allSome? f = some g) (i : Fin n) : f i = some (g i) := by
  unfold allSome? at h
  split at h
  · next hsome =>
    obtain rfl := Option.some.inj h
    exact (Option.some_get (hsome i)).symm
  · cases h

variable {S S₁ S₂ : Type}

/-- A comparison that orders the states with the property `K`, one after another. -/
structure TotalOn (K : S → Prop) (order : S → S → Ordering) : Prop where
  eq_iff : ∀ a b, K a → K b → (order a b = .eq ↔ a = b)
  swap : ∀ a b, K a → K b → order b a = (order a b).swap
  trans : ∀ a b c, K a → K b → K c → order a b = .lt → order b c = .lt → order a c = .lt

namespace TotalOn

variable {K : S → Prop} {order : S → S → Ordering}

theorem refl (h : TotalOn K order) {a : S} (ha : K a) : order a a = .eq :=
  (h.eq_iff a a ha ha).2 rfl

theorem congr (h : TotalOn K order) {order' : S → S → Ordering}
    (heq : ∀ a b, K a → K b → order' a b = order a b) : TotalOn K order' where
  eq_iff a b ha hb := by rw [heq a b ha hb, h.eq_iff a b ha hb]
  swap a b ha hb := by rw [heq b a hb ha, heq a b ha hb, h.swap a b ha hb]
  trans a b c ha hb hc := by
    rw [heq a b ha hb, heq b c hb hc, heq a c ha hc]
    exact h.trans a b c ha hb hc

theorem flip (h : TotalOn K order) : TotalOn K fun a b => order b a where
  eq_iff a b ha hb := (h.eq_iff b a hb ha).trans eq_comm
  swap a b ha hb := h.swap b a hb ha
  trans a b c ha hb hc hab hbc := h.trans c b a hc hb ha hbc hab

/-- States are ordered by different ranks. -/
theorem of_rank (rank : S → ℕ) (h : ∀ a b, K a → K b → rank a = rank b → a = b) :
    TotalOn K fun a b => compare (rank a) (rank b) where
  eq_iff a b ha hb := by
    rw [Nat.compare_eq_eq]
    exact ⟨h a b ha hb, congrArg rank⟩
  swap a b _ _ := (Nat.compare_swap _ _).symm
  trans a b c _ _ _ := by
    simp only [Nat.compare_eq_lt]
    exact Nat.lt_trans

/-- The added state comes first. -/
theorem rooted (h : TotalOn K order) : TotalOn (fun s => ∀ q ∈ s, K q) (compareRooted order) where
  eq_iff a b ha hb := by
    cases a with
    | none => cases b <;> simp [compareRooted]
    | some a =>
      cases b with
      | none => simp [compareRooted]
      | some b => simpa [compareRooted] using h.eq_iff a b (ha a rfl) (hb b rfl)
  swap a b ha hb := by
    cases a with
    | none => cases b <;> rfl
    | some a =>
      cases b with
      | none => rfl
      | some b => exact h.swap a b (ha a rfl) (hb b rfl)
  trans a b c ha hb hc hab hbc := by
    cases c with
    | none => cases b <;> cases hbc
    | some c =>
      cases a with
      | none => rfl
      | some a =>
        cases b with
        | none => cases hab
        | some b => exact h.trans a b c (ha a rfl) (hb b rfl) (hc c rfl) hab hbc

/-- The operands' states follow each other block by block. -/
theorem tagged {n : ℕ} {S : Fin n → Type} {K : (i : Fin n) → S i → Prop}
    {order : (i : Fin n) → S i → S i → Ordering} (h : ∀ i, TotalOn (K i) (order i)) :
    TotalOn (fun s : Tagged S => K s.operand s.value) (Tagged.compare order) := by
  have other {i j : Fin n} (hij : i ≠ j) (x : S i) (y : S j) :
      Tagged.compare order ⟨i, x⟩ ⟨j, y⟩ = compare i.val j.val := by
    simp only [Tagged.compare, dif_neg hij]
    rfl
  have lt_iff {a b : Tagged S} : Tagged.compare order a b = .lt ↔
      a.operand < b.operand ∨ ∃ i x y, a = ⟨i, x⟩ ∧ b = ⟨i, y⟩ ∧ order i x y = .lt := by
    obtain ⟨i, x⟩ := a
    obtain ⟨j, y⟩ := b
    by_cases hij : i = j
    · subst hij
      rw [Tagged.compare_mk]
      constructor
      · exact fun h => .inr ⟨i, x, y, rfl, rfl, h⟩
      · rintro (h | ⟨_, _, _, ha, hb, h⟩)
        · exact absurd h (Nat.lt_irrefl _)
        · cases ha
          cases hb
          exact h
    · rw [other hij, Nat.compare_eq_lt]
      constructor
      · exact .inl
      · rintro (h | ⟨_, _, _, ha, hb, -⟩)
        · exact h
        · cases ha
          cases hb
          exact absurd rfl hij
  refine ⟨?_, ?_, ?_⟩
  · rintro ⟨i, x⟩ ⟨j, y⟩ hx hy
    by_cases hij : i = j
    · subst hij
      rw [Tagged.compare_mk, (h i).eq_iff x y hx hy]
      simp
    · rw [other hij, Nat.compare_eq_eq]
      constructor
      · exact fun h => absurd (Fin.ext h) hij
      · rintro ⟨⟩
        exact absurd rfl hij
  · rintro ⟨i, x⟩ ⟨j, y⟩ hx hy
    by_cases hij : i = j
    · subst hij
      rw [Tagged.compare_mk, Tagged.compare_mk, (h i).swap x y hx hy]
    · rw [other hij, other (Ne.symm hij), Nat.compare_swap]
  · rintro a b c ha hb hc hab hbc
    rcases lt_iff.1 hab with hlt | ⟨i, x, y, rfl, rfl, hxy⟩
    · rcases lt_iff.1 hbc with hlt' | ⟨i, x, y, rfl, rfl, -⟩
      · exact lt_iff.2 (.inl (Nat.lt_trans hlt hlt'))
      · exact lt_iff.2 (.inl hlt)
    · rcases lt_iff.1 hbc with hlt' | ⟨_, y', z, heq, rfl, hyz⟩
      · exact lt_iff.2 (.inl hlt')
      · cases heq
        exact lt_iff.2 (.inr ⟨i, x, z, rfl, rfl, (h i).trans x y z ha hb hc hxy hyz⟩)

/-- Pairs are ordered by the left state, then the right state, then the filter. -/
theorem pairs {K₁ : S₁ → Prop} {K₂ : S₂ → Prop} {left : S₁ → S₁ → Ordering}
    {right : S₂ → S₂ → Ordering} (h₁ : TotalOn K₁ left) (h₂ : TotalOn K₂ right) :
    TotalOn (fun s : PairState S₁ S₂ => K₁ s.left ∧ K₂ s.right) (comparePairs left right) where
  eq_iff a b ha hb := by
    obtain ⟨a₁, a₂, f⟩ := a
    obtain ⟨b₁, b₂, g⟩ := b
    have hfilter : compare f g = .eq ↔ f = g := by cases f <;> cases g <;> decide
    simp only [comparePairs, Ordering.then_eq_eq, h₁.eq_iff a₁ b₁ ha.1 hb.1,
      h₂.eq_iff a₂ b₂ ha.2 hb.2, hfilter, PairState.mk.injEq]
  swap a b ha hb := by
    have hfilter : compare b.filter a.filter = (compare a.filter b.filter).swap := by
      cases a.filter <;> cases b.filter <;> rfl
    simp only [comparePairs, Ordering.swap_then, h₁.swap a.left b.left ha.1 hb.1,
      h₂.swap a.right b.right ha.2 hb.2, hfilter]
  trans a b c ha hb hc hab hbc := by
    have hfilter : compare a.filter b.filter = .lt → compare b.filter c.filter = .lt →
        compare a.filter c.filter = .lt := by
      cases a.filter <;> cases b.filter <;> cases c.filter <;> decide
    simp only [comparePairs, Ordering.then_eq_lt, h₁.eq_iff _ _ ha.1 hb.1,
      h₁.eq_iff _ _ hb.1 hc.1, h₁.eq_iff _ _ ha.1 hc.1, h₂.eq_iff _ _ ha.2 hb.2,
      h₂.eq_iff _ _ hb.2 hc.2, h₂.eq_iff _ _ ha.2 hc.2] at hab hbc ⊢
    have hleft := h₁.trans a.left b.left c.left ha.1 hb.1 hc.1
    have hright := h₂.trans a.right b.right c.right ha.2 hb.2 hc.2
    grind

end TotalOn

end WeightedAutomata
