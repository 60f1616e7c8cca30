import WeightedAutomata.Automaton.Basic
import WeightedAutomata.Error

/-!
Union: the disjoint sum of a family of automata. States and transitions are tagged with the index
of their operand.
-/
namespace WeightedAutomata

/-- A state or transition of one member of a family of automata. -/
structure Tagged {n : Nat} (S : Fin n → Type) where
  operand : Fin n
  value : S operand

namespace Tagged

variable {n : Nat} {S : Fin n → Type}

instance [(i : Fin n) → BEq (S i)] : BEq (Tagged S) :=
  ⟨fun a b => if h : a.operand = b.operand then (h ▸ a.value) == b.value else false⟩

instance [(i : Fin n) → BEq (S i)] [∀ i, LawfulBEq (S i)] : LawfulBEq (Tagged S) where
  rfl {a} := by simp [BEq.beq]
  eq_of_beq {a b} h := by
    obtain ⟨i, x⟩ := a
    obtain ⟨j, y⟩ := b
    by_cases hij : i = j
    · subst hij
      simpa [BEq.beq] using h
    · simp [BEq.beq, hij] at h

instance [(i : Fin n) → Hashable (S i)] : Hashable (Tagged S) :=
  ⟨fun a => mixHash (hash a.operand) (hash a.value)⟩

/-- Operand by operand, each in its own order. -/
def compare (order : (i : Fin n) → S i → S i → Ordering) (a b : Tagged S) : Ordering :=
  if h : a.operand = b.operand then order b.operand (h ▸ a.value) b.value
  else Ord.compare a.operand b.operand

end Tagged

/-- All members of a family, where none is missing. -/
def allSome? {n : Nat} {α : Fin n → Type} (f : (i : Fin n) → Option (α i)) :
    Option ((i : Fin n) → α i) :=
  if h : ∀ i, (f i).isSome then some fun i => (f i).get (h i) else none

variable {m : Type → Type} [Monad m] {L W : Type} {n : Nat} {S T : Fin n → Type}

/-- The answers of all operands in turn, tagged. -/
def tagAll (query : (i : Fin n) → m (List (S i))) : m (List (Tagged S)) :=
  return (← (List.finRange n).mapM fun i => return (← query i).map (.mk i)).flatten

def union (A : (i : Fin n) → Automaton m L (S i) (T i) W) :
    Automaton m L (Tagged S) (Tagged T) W where
  initialStates := tagAll fun i => (A i).initialStates
  outgoing s := return (← (A s.operand).outgoing s.value).map (.mk s.operand)
  initialWeight s := (A s.operand).initialWeight s.value
  finalWeight s := (A s.operand).finalWeight s.value
  weight t := (A t.operand).weight t.value
  source t := ⟨t.operand, (A t.operand).source t.value⟩
  target t := ⟨t.operand, (A t.operand).target t.value⟩
  label t := (A t.operand).label t.value
  order := (allSome? fun i => (A i).order).map Tagged.compare
  backward := (allSome? fun i => (A i).backward).map fun back =>
    { finalStates := tagAll fun i => (back i).finalStates
      incoming := fun s => return (← (back s.operand).incoming s.value).map (.mk s.operand) }

/-- A union needs at least one operand. -/
def union? (A : (i : Fin n) → Automaton m L (S i) (T i) W) :
    Except BuildError (Automaton m L (Tagged S) (Tagged T) W) :=
  if n = 0 then .error .emptyUnion else .ok (union A)

end WeightedAutomata
