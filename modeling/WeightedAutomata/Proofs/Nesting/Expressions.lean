import WeightedAutomata.Expression.Basic
import WeightedAutomata.Proofs.Nesting.Ascending

/-!
Expressions build nested views, so the orders that they offer are topological.
-/
namespace WeightedAutomata

section Results

universe u v

variable {ε : Type u} {α β : Type v} {x : Except ε α} {b : β}

theorem bind_eq_ok {f : α → Except ε β} (h : x >>= f = .ok b) : ∃ a, x = .ok a ∧ f a = .ok b := by
  cases x with
  | error e => cases h
  | ok a => exact ⟨a, rfl, h⟩

theorem map_eq_ok {f : α → β} (h : x.map f = .ok b) : ∃ a, x = .ok a ∧ f a = b := by
  cases x with
  | error e => cases h
  | ok a => exact ⟨a, rfl, Except.ok.inj h⟩

end Results

variable {L W : Type}

theorem nested_union? {as : List (AnyAutomaton L W)} (h : ∀ a ∈ as, ∃ K, Nested a.automaton K)
    {b : AnyAutomaton L W} (hb : AnyAutomaton.union? as = .ok b) : ∃ K, Nested b.automaton K := by
  have hmember (i : Fin as.length) :
      ∃ K, Nested ((as.get i).automaton.hoist (AnyAutomaton.onMember as i)) K := by
    obtain ⟨K, hK⟩ := h _ (as.get_mem i)
    have hhoist (f : (α : Type) → StateT (as.get i).Memory Option α →
        StateT (AnyAutomaton.Memories as) Option α)
        (hf : (fun _ => (AnyAutomaton.member as i).map) = f) :
        Nested ((as.get i).automaton.hoist (f _)) K := by
      subst hf
      exact hK.hoist (AnyAutomaton.member as i)
    refine ⟨K, hhoist (fun _ => AnyAutomaton.onMember as i) ?_⟩
    funext α x
    exact AnyAutomaton.member_map as i x
  choose K hK using hmember
  unfold AnyAutomaton.union? WeightedAutomata.union? at hb
  split at hb
  · cases hb
  · next hunion =>
    cases hb
    split at hunion
    · cases hunion
    · cases hunion
      exact ⟨_, .union hK⟩

namespace Expression

variable [BEq L] [Zero W] [One W] [Add W] [Mul W] [BEq W] [PartialInverse W] {budget : ℕ}

theorem nested_strings? {members : List (List L)} {b : AnyAutomaton L W}
    (hb : AnyAutomaton.strings? budget members = .ok b) : ∃ K, Nested b.automaton K := by
  unfold AnyAutomaton.strings? multipleStrings WeightedAutomata.union? at hb
  split at hb
  · cases hb
  · next hstrings =>
    cases hb
    split at hstrings
    · cases hstrings
    · cases hstrings
      exact ⟨_, .determinize budget (.union fun i => .string (members.get i))⟩

mutual

/-- What an expression builds is a nested view. -/
theorem nested_of_build : (e : Expression L W) → {a : AnyAutomaton L W} →
    e.build budget = .ok a → ∃ K, Nested a.automaton K
  | .explicit outcome, a, h => by
    cases outcome with
    | error e => cases h
    | ok E =>
      cases h
      exact ⟨_, .explicit E⟩
  | .string labels, a, h => by
    cases h
    exact ⟨_, .string labels⟩
  | .transition label weight, a, h => by
    cases h
    exact ⟨_, .transition label weight⟩
  | .strings members, a, h => nested_strings? h
  | .union operands, a, h => by
    obtain ⟨as, hall, h⟩ := bind_eq_ok h
    exact nested_union? (nested_of_buildAll operands hall) h
  | .product pairing left right, a, h => by
    obtain ⟨b, hleft, h⟩ := bind_eq_ok h
    obtain ⟨c, hright, h⟩ := bind_eq_ok h
    cases h
    obtain ⟨K, hK⟩ := nested_of_build left hleft
    obtain ⟨K', hK'⟩ := nested_of_build right hright
    exact ⟨_, .product pairing (hK.hoist .first) (hK'.hoist .second)⟩
  | .determinize operand, a, h => by
    obtain ⟨b, hoperand, rfl⟩ := map_eq_ok h
    obtain ⟨K, hK⟩ := nested_of_build operand hoperand
    exact ⟨_, .hoist .both (hK.determinize budget)⟩
  | .singleInitial operand, a, h => by
    obtain ⟨b, hoperand, rfl⟩ := map_eq_ok h
    obtain ⟨K, hK⟩ := nested_of_build operand hoperand
    exact ⟨_, hK.singleInitial⟩
  | .materialize operand, a, h => by
    obtain ⟨b, -, h⟩ := bind_eq_ok h
    unfold AnyAutomaton.materialize? at h
    split at h
    · cases h
    · cases h
    · cases h
      exact ⟨_, .explicit _⟩
  | .reverse operand, a, h => by
    obtain ⟨b, hoperand, h⟩ := bind_eq_ok h
    cases hreverse : b.reverse? with
    | none =>
      rw [hreverse] at h
      cases h
    | some c =>
      rw [hreverse] at h
      cases h
      obtain ⟨_, hown, rfl⟩ := Option.map_eq_some_iff.1 hreverse
      obtain ⟨back, hback, rfl⟩ := Option.map_eq_some_iff.1 hown
      obtain ⟨K, hK⟩ := nested_of_build operand hoperand
      exact ⟨_, .reversal hback hK⟩

theorem nested_of_buildAll : (es : List (Expression L W)) → {as : List (AnyAutomaton L W)} →
    buildAll budget es = .ok as → ∀ a ∈ as, ∃ K, Nested a.automaton K
  | [], as, h => by
    cases h
    nofun
  | e :: es, as, h => by
    obtain ⟨b, hfirst, h⟩ := bind_eq_ok h
    obtain ⟨bs, hrest, h⟩ := bind_eq_ok h
    cases h
    exact List.forall_mem_cons.2 ⟨nested_of_build e hfirst, nested_of_buildAll es hrest⟩

end

/-- The order that a built automaton offers is a topological one. -/
theorem ascends_of_build {e : Expression L W} {a : AnyAutomaton L W} (h : e.build budget = .ok a)
    {order : a.State → a.State → Ordering} (horder : a.automaton.order = some order) :
    ∃ K, Ascends a.automaton K order := by
  obtain ⟨K, hK⟩ := nested_of_build e h
  exact ⟨K, hK.ascends horder⟩

end Expression

end WeightedAutomata
