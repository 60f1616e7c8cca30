import WeightedAutomata.Automaton.Traversal

/-!
Loops with a budget: when every step has an answer and brings a measure down, a budget beyond the
measure is enough, and the outcome does not depend on it.
-/
namespace WeightedAutomata

variable {m : Type → Type} [Monad m] [LawfulMonad m] [StepLimited m] {α : Type}

section Steps

variable {step : α → m (Option α)} {a b : α} (budget : Nat)

theorem untilDone_of_some (h : step a = pure (some b)) :
    untilDone step (budget + 1) a = untilDone step budget b := by
  simp [untilDone, h]

theorem untilDone_of_none (h : step a = pure none) : untilDone step (budget + 1) a = pure a := by
  simp [untilDone, h]

end Steps

theorem untilDone_eq_pure (step : α → m (Option α)) (next : α → Option α) (inv : α → Prop)
    (size : α → Nat) (answer : ∀ a, inv a → step a = pure (next a))
    (keep : ∀ a b, inv a → next a = some b → inv b ∧ size b < size a) {a : α} (ha : inv a) :
    ∃ b, inv b ∧ next b = none ∧ ∀ budget, size a < budget → untilDone step budget a = pure b := by
  induction hn : size a using Nat.strongRecOn generalizing a with
  | ind n ih =>
    subst hn
    cases hb : next a with
    | none =>
      refine ⟨a, ha, hb, fun budget hbudget => ?_⟩
      cases budget with
      | zero => exact absurd hbudget (Nat.not_lt_zero _)
      | succ budget => exact untilDone_of_none budget (hb ▸ answer a ha)
    | some b =>
      obtain ⟨hib, hlt⟩ := keep a b ha hb
      obtain ⟨c, hc, hdone, hrun⟩ := ih (size b) hlt hib rfl
      refine ⟨c, hc, hdone, fun budget hbudget => ?_⟩
      cases budget with
      | zero => exact absurd hbudget (Nat.not_lt_zero _)
      | succ budget =>
        rw [untilDone_of_some budget (hb ▸ answer a ha)]
        exact hrun budget (by omega)

/-- A loop that has come to an end does so within every larger budget. -/
theorem untilDone_mono {step : α → Option (Option α)} {budget budget' : Nat}
    (hle : budget ≤ budget') {a b : α} (h : untilDone step budget a = some b) :
    untilDone step budget' a = some b := by
  induction budget generalizing budget' a with
  | zero => cases h
  | succ budget ih =>
    obtain ⟨rest, rfl⟩ : ∃ rest, budget' = rest + 1 := ⟨budget' - 1, by omega⟩
    rw [untilDone] at h ⊢
    obtain ⟨next, hstep, h⟩ := Option.bind_eq_some_iff.1 h
    refine Option.bind_eq_some_iff.2 ⟨next, hstep, ?_⟩
    cases next with
    | none => exact h
    | some c => exact ih (by omega) h

/-- What every step keeps holds of the outcome, if there is one. -/
theorem untilDone_keeps {step : α → Option (Option α)} {inv : α → Prop}
    (keep : ∀ a b, inv a → step a = some (some b) → inv b) {budget : Nat} {a b : α} (ha : inv a)
    (h : untilDone step budget a = some b) : inv b ∧ step b = some none := by
  induction budget generalizing a with
  | zero => cases h
  | succ budget ih =>
    rw [untilDone] at h
    obtain ⟨next, hstep, h⟩ := Option.bind_eq_some_iff.1 h
    cases next with
    | none =>
      cases h
      exact ⟨ha, hstep⟩
    | some c => exact ih (keep a c ha hstep) h

/-- What is computed with every large enough budget is determined. -/
theorem eq_of_large_budgets {f : Nat → Option α} {a b : α}
    (ha : ∃ n, ∀ budget, n ≤ budget → f budget = some a)
    (hb : ∃ n, ∀ budget, n ≤ budget → f budget = some b) : a = b := by
  obtain ⟨n, hn⟩ := ha
  obtain ⟨n', hn'⟩ := hb
  have hfirst := hn (n + n') (Nat.le_add_right n n')
  have hsecond := hn' (n + n') (Nat.le_add_left n' n)
  exact Option.some.inj (hfirst.symm.trans hsecond)

end WeightedAutomata
