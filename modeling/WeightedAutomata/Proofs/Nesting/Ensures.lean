import Mathlib.Tactic.Choose
import WeightedAutomata.Expression.Bundle
import WeightedAutomata.Proofs.Hoist

/-!
Properties of whatever a query answers, in any monad of queries.
-/
namespace WeightedAutomata

section Ensures

variable {m n : Type → Type} {α β : Type} {p p' : α → Prop} {q : β → Prop}

/-- Every answer of `x` has the property `p`: it may as well be given together with a proof. -/
def Ensures [Functor m] (x : m α) (p : α → Prop) : Prop := ∃ y : m {a // p a}, Subtype.val <$> y = x

namespace Ensures

theorem mono [Functor m] [LawfulFunctor m] {x : m α} (h : Ensures x p) (hp : ∀ a, p a → p' a) :
    Ensures x p' := by
  obtain ⟨y, rfl⟩ := h
  exact ⟨(fun a => ⟨a.1, hp a.1 a.2⟩) <$> y, (comp_map _ _ _).symm⟩

theorem of_forall [Functor m] [LawfulFunctor m] (x : m α) (h : ∀ a, p a) : Ensures x p :=
  ⟨(fun a => ⟨a, h a⟩) <$> x, (comp_map _ _ _).symm.trans (id_map x)⟩

variable [Monad m] [LawfulMonad m]

theorem pure {a : α} (h : p a) : Ensures (Pure.pure a : m α) p :=
  ⟨Pure.pure ⟨a, h⟩, map_pure _ _⟩

theorem bind {x : m α} {f : α → m β} (h : Ensures x p) (hf : ∀ a, p a → Ensures (f a) q) :
    Ensures (x >>= f) q := by
  obtain ⟨y, rfl⟩ := h
  choose g hg using fun a : {a // p a} => hf a.1 a.2
  refine ⟨y >>= g, ?_⟩
  rw [map_bind, bind_map_left]
  exact congrArg (y >>= ·) (funext hg)

theorem mapM {f : α → m β} {l : List α} (hf : ∀ a ∈ l, Ensures (f a) q) :
    Ensures (l.mapM f) fun bs => ∀ b ∈ bs, q b := by
  induction l with
  | nil =>
    rw [List.mapM_nil]
    exact pure nofun
  | cons a l ih =>
    rw [List.mapM_cons]
    refine (hf a List.mem_cons_self).bind fun b hb => ?_
    refine (ih fun c hc => hf c (List.mem_cons_of_mem a hc)).bind fun bs hbs => ?_
    exact pure (List.forall_mem_cons.2 ⟨hb, hbs⟩)

theorem filterMapM {f : α → m (Option β)} {l : List α}
    (hf : ∀ a ∈ l, Ensures (f a) fun o => ∀ b ∈ o, q b) :
    Ensures (l.filterMapM f) fun bs => ∀ b ∈ bs, q b := by
  induction l with
  | nil =>
    rw [List.filterMapM_nil]
    exact pure nofun
  | cons a l ih =>
    rw [List.filterMapM_cons]
    refine (hf a List.mem_cons_self).bind fun o ho => ?_
    have hrest := ih fun c hc => hf c (List.mem_cons_of_mem a hc)
    cases o with
    | none => exact hrest
    | some b => exact hrest.bind fun bs hbs => pure (List.forall_mem_cons.2 ⟨ho b rfl, hbs⟩)

theorem translate [Monad n] [LawfulMonad n] [StepLimited m] [StepLimited n] (φ : Translation m n)
    {x : m α} (h : Ensures x p) : Ensures (φ.map x) p := by
  obtain ⟨y, rfl⟩ := h
  refine ⟨φ.map y, ?_⟩
  rw [← bind_pure_comp, ← bind_pure_comp, φ.bind]
  simp only [φ.pure]

/-- What a query with a memory ensures holds of its answer, whatever it has remembered before. -/
theorem run {σ : Type} {x : StateT σ Option α} (h : Ensures x p) {μ ν : σ} {a : α}
    (hrun : x.run μ = some (a, ν)) : p a := by
  obtain ⟨y, rfl⟩ := h
  rw [StateT.run_map] at hrun
  obtain ⟨⟨b, ξ⟩, -, heq⟩ := Option.map_eq_some_iff.1 hrun
  cases heq
  exact b.2

end Ensures

end Ensures

namespace Translation

variable {M₁ M₂ : Type}

/-- Queries of the first of two memories. -/
def first : Translation (StateT M₁ Option) (StateT (M₁ × M₂) Option) where
  map := onFirst
  pure _ := rfl
  bind x f := by
    funext ⟨a, b⟩
    change ((x a).bind fun r => f r.1 r.2).map _ = ((x a).map _).bind _
    cases x a <;> rfl
  outOfSteps := rfl

/-- Queries of the second of two memories. -/
def second : Translation (StateT M₂ Option) (StateT (M₁ × M₂) Option) where
  map := onSecond
  pure _ := rfl
  bind x f := by
    funext ⟨a, b⟩
    change ((x b).bind fun r => f r.1 r.2).map _ = ((x b).map _).bind _
    cases x b <;> rfl
  outOfSteps := rfl

/-- Queries with a memory on top of another one. -/
def both : Translation (StateT M₁ (StateT M₂ Option)) (StateT (M₁ × M₂) Option) where
  map := onBoth
  pure _ := rfl
  bind x f := by
    funext ⟨a, b⟩
    change ((x a b).bind fun r => f r.1.1 r.1.2 r.2).map _ = ((x a b).map _).bind _
    cases x a b <;> rfl
  outOfSteps := rfl

variable {k l m : Type → Type} [Monad k] [Monad l] [Monad m]
variable [StepLimited k] [StepLimited l] [StepLimited m]

/-- One translation after another. -/
def comp (ψ : Translation l m) (φ : Translation k l) : Translation k m where
  map x := ψ.map (φ.map x)
  pure a := by rw [φ.pure, ψ.pure]
  bind x f := by rw [φ.bind, ψ.bind]
  outOfSteps := by
    intro α
    rw [φ.outOfSteps, ψ.outOfSteps]

end Translation

variable {L W : Type}

/-- Queries of one of several automata. -/
def AnyAutomaton.member : (as : List (AnyAutomaton L W)) → (i : Fin as.length) →
    Translation (StateT (as.get i).Memory Option) (StateT (Memories as) Option)
  | _ :: _, ⟨0, _⟩ => .first
  | _ :: as, ⟨i + 1, h⟩ => .comp .second (member as ⟨i, Nat.lt_of_succ_lt_succ h⟩)

theorem AnyAutomaton.member_map (as : List (AnyAutomaton L W)) (i : Fin as.length) {α : Type}
    (x : StateT (as.get i).Memory Option α) : (member as i).map x = onMember as i x := by
  induction as with
  | nil => exact i.elim0
  | cons a as ih =>
    obtain ⟨i, hi⟩ := i
    cases i with
    | zero => rfl
    | succ i => exact congrArg onSecond (ih ⟨i, Nat.lt_of_succ_lt_succ hi⟩ x)

end WeightedAutomata
