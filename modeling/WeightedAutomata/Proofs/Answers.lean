import WeightedAutomata.Proofs.Paths.Basic
import WeightedAutomata.Primitive.SingleString

/-!
Automata whose queries answer at once, without effect, as long as only states of a closed set come
up; and what their views answer.
-/
namespace WeightedAutomata

variable {m : Type → Type} [Monad m]

section Lists

variable [LawfulMonad m] {α β : Type} {l : List α}

theorem mapM_eq_pure {f : α → m β} {g : α → β} (h : ∀ a ∈ l, f a = pure (g a)) :
    l.mapM f = pure (l.map g) := by
  induction l with
  | nil => simp
  | cons a l ih => simp [h a, ih fun b hb => h b (List.mem_cons_of_mem a hb)]

theorem foldlM_eq_pure {f : β → α → m β} {g : β → α → β} (h : ∀ a ∈ l, ∀ b, f b a = pure (g b a))
    (b : β) : l.foldlM f b = pure (l.foldl g b) := by
  induction l generalizing b with
  | nil => simp
  | cons a l ih =>
    simp [h a List.mem_cons_self, ih fun c hc => h c (List.mem_cons_of_mem a hc)]

theorem filterMapM_eq_pure {f : α → m (Option β)} {g : α → Option β}
    (h : ∀ a ∈ l, f a = pure (g a)) : l.filterMapM f = pure (l.filterMap g) := by
  induction l with
  | nil => simp
  | cons a l ih =>
    have ih := ih fun b hb => h b (List.mem_cons_of_mem a hb)
    simp only [List.filterMapM_cons, h a List.mem_cons_self, pure_bind, ih, List.filterMap_cons]
    cases g a <;> simp

end Lists

namespace Automaton

variable {L S T W : Type}

/-- On the closed set `R` of states the answers of `A` are those of `Q`. -/
structure Answers (A : Automaton m L S T W) (Q : Automaton Id L S T W) (R : S → Prop) : Prop where
  closed : Q.Closed R
  starts : ∀ s ∈ Q.starts, R s
  initialStates : A.initialStates = pure Q.starts
  outgoing : ∀ s, R s → A.outgoing s = pure (Q.leaving s)
  initialWeight : ∀ s, R s → A.initialWeight s = pure (Q.entry s)
  finalWeight : ∀ s, R s → A.finalWeight s = pure (Q.exit s)
  weight : ∀ s, R s → ∀ t ∈ Q.leaving s, A.weight t = pure (Q.cost t)
  source : A.source = Q.source
  target : A.target = Q.target
  label : A.label = Q.label
  order : A.order = Q.order

theorem lift_answers (Q : Automaton Id L S T W) {R : S → Prop} (hc : Q.Closed R)
    (hs : ∀ s ∈ Q.starts, R s) : (Q.lift : Automaton m L S T W).Answers Q R where
  closed := hc
  starts := hs
  initialStates := rfl
  outgoing _ _ := rfl
  initialWeight _ _ := rfl
  finalWeight _ _ := rfl
  weight _ _ _ _ := rfl
  source := rfl
  target := rfl
  label := rfl
  order := rfl

variable (m) in
theorem lift_answers_everywhere (Q : Automaton Id L S T W) :
    (Q.lift : Automaton m L S T W).Answers Q fun _ => True :=
  lift_answers Q (fun _ _ _ _ => trivial) fun _ _ => trivial

variable (m) in
theorem lift_answers_reachable (Q : Automaton Id L S T W) :
    (Q.lift : Automaton m L S T W).Answers Q Q.Reachable :=
  lift_answers Q Q.closed_reachable fun _ hs => .start hs

theorem Answers.reachable {A : Automaton m L S T W} {Q : Automaton Id L S T W} {R : S → Prop}
    (h : A.Answers Q R) {s : S} (hs : Q.Reachable s) : R s := by
  induction hs with
  | start hs => exact h.starts _ hs
  | step _ ht ih => exact h.closed _ ih _ ht

theorem Answers.toReachable {A : Automaton m L S T W} {Q : Automaton Id L S T W} {R : S → Prop}
    (h : A.Answers Q R) : A.Answers Q Q.Reachable where
  closed := Q.closed_reachable
  starts _ hs := .start hs
  initialStates := h.initialStates
  outgoing s hs := h.outgoing s (h.reachable hs)
  initialWeight s hs := h.initialWeight s (h.reachable hs)
  finalWeight s hs := h.finalWeight s (h.reachable hs)
  weight s hs := h.weight s (h.reachable hs)
  source := h.source
  target := h.target
  label := h.label
  order := h.order

section SingleString

variable [Zero W] [One W] (x : List L)

@[simp] theorem starts_singleString : (singleString x : Automaton Id L ℕ ℕ W).starts = [0] := rfl

@[simp] theorem leaving_singleString (s : ℕ) :
    (singleString x : Automaton Id L ℕ ℕ W).leaving s = if s < x.length then [s] else [] := rfl

@[simp] theorem entry_singleString (s : ℕ) :
    (singleString x : Automaton Id L ℕ ℕ W).entry s = if s = 0 then 1 else 0 := rfl

@[simp] theorem exit_singleString (s : ℕ) :
    (singleString x : Automaton Id L ℕ ℕ W).exit s = if s = x.length then 1 else 0 := rfl

@[simp] theorem cost_singleString (t : ℕ) :
    (singleString x : Automaton Id L ℕ ℕ W).cost t = 1 := rfl

@[simp] theorem target_singleString (t : ℕ) :
    (singleString x : Automaton Id L ℕ ℕ W).target t = t + 1 := rfl

@[simp] theorem label_singleString (t : ℕ) :
    (singleString x : Automaton Id L ℕ ℕ W).label t = x[t]? := rfl

theorem singleString_answers :
    (singleString x : Automaton m L ℕ ℕ W).Answers (singleString x) (· ≤ x.length) where
  closed s _ t ht := by
    simp only [leaving_singleString, List.mem_ite_nil_right, List.mem_singleton] at ht
    obtain ⟨hlt, rfl⟩ := ht
    exact hlt
  starts s hs := by simp_all
  initialStates := rfl
  outgoing _ _ := rfl
  initialWeight _ _ := rfl
  finalWeight _ _ := rfl
  weight _ _ _ _ := rfl
  source := rfl
  target := rfl
  label := rfl
  order := rfl

end SingleString

end Automaton

end WeightedAutomata
