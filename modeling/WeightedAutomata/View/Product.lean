import WeightedAutomata.View.Pairing
import WeightedAutomata.Automaton.Basic

/-!
Products of two automata: intersection of acceptors and composition of transducers.
-/
namespace WeightedAutomata

/-- Between two moves of both operands the left one moves alone before the right one, so that each
pair of paths is met once. -/
inductive EpsilonFilter where
  | free
  /-- The right operand has moved alone: the left one has to wait. -/
  | rightOnly
  deriving DecidableEq, Hashable, Ord, Repr

structure PairState (S₁ S₂ : Type) where
  left : S₁
  right : S₂
  filter : EpsilonFilter
  deriving BEq, Hashable, ReflBEq, LawfulBEq, Repr

/-- A side that does not move has no transition. -/
structure PairTransition (S₁ S₂ T₁ T₂ L : Type) where
  source : PairState S₁ S₂
  target : PairState S₁ S₂
  left : Option T₁
  right : Option T₂
  label : Option L
  deriving BEq, Repr

/-- By the left state, then the right state, then the filter. -/
def comparePairs {S₁ S₂ : Type} (left : S₁ → S₁ → Ordering) (right : S₂ → S₂ → Ordering)
    (a b : PairState S₁ S₂) : Ordering :=
  (left a.left b.left).then ((right a.right b.right).then (compare a.filter b.filter))

def Move.attach? {L α : Type} (move : Move L) (f : Option L → α) : Option α :=
  match move with
  | .blocked => none
  | .emit label => some (f label)

namespace Automaton

variable {m : Type → Type} [Monad m] {L₁ L₂ L S₁ S₂ T₁ T₂ W : Type}

section Moves

variable (pairing : Pairing L₁ L₂ L) (A : Automaton m L₁ S₁ T₁ W) (B : Automaton m L₂ S₂ T₂ W)
  (s : PairState S₁ S₂)

def leftMove (t : T₁) : Option (PairTransition S₁ S₂ T₁ T₂ L) :=
  (pairing.leftAlone (A.label t)).attach? fun label =>
    ⟨s, ⟨A.target t, s.right, .free⟩, some t, none, label⟩

def rightMove (t : T₂) : Option (PairTransition S₁ S₂ T₁ T₂ L) :=
  (pairing.rightAlone (B.label t)).attach? fun label =>
    ⟨s, ⟨s.left, B.target t, .rightOnly⟩, none, some t, label⟩

def jointMove (t₁ : T₁) (t₂ : T₂) : Option (PairTransition S₁ S₂ T₁ T₂ L) :=
  (pairing.together (A.label t₁) (B.label t₂)).attach? fun label =>
    ⟨s, ⟨A.target t₁, B.target t₂, .free⟩, some t₁, some t₂, label⟩

/-- The moves of the product from `s`, given the transitions that leave its two sides. -/
def pairMoves (lefts : List T₁) (rights : List T₂) : List (PairTransition S₁ S₂ T₁ T₂ L) :=
  (if s.filter = .free then lefts.filterMap (leftMove pairing A s) else [])
    ++ rights.filterMap (rightMove pairing B s)
    ++ lefts.flatMap fun t₁ => rights.filterMap (jointMove pairing A B s t₁)

end Moves

variable [Zero W] [One W] [Mul W] [BEq W]

/-- Weights multiply left then right; an operand that stays put weighs one. -/
def product (pairing : Pairing L₁ L₂ L) (A : Automaton m L₁ S₁ T₁ W)
    (B : Automaton m L₂ S₂ T₂ W) :
    Automaton m L (PairState S₁ S₂) (PairTransition S₁ S₂ T₁ T₂ L) W where
  initialStates := do
    let rights ← B.initialStates
    let rows ← (← A.initialStates).mapM fun left => do
      let leftWeight ← A.initialWeight left
      rights.filterMapM fun right => do
        let weight := leftWeight * (← B.initialWeight right)
        return if weight == 0 then none else some ⟨left, right, .free⟩
    return rows.flatten
  outgoing s := return pairMoves pairing A B s (← A.outgoing s.left) (← B.outgoing s.right)
  initialWeight s :=
    if s.filter = .free then
      return (← A.initialWeight s.left) * (← B.initialWeight s.right)
    else pure 0
  finalWeight s := return (← A.finalWeight s.left) * (← B.finalWeight s.right)
  weight t :=
    return (← t.left.elim (pure 1) A.weight) * (← t.right.elim (pure 1) B.weight)
  source := PairTransition.source
  target := PairTransition.target
  label := PairTransition.label
  order :=
    match A.order, B.order with
    | some left, some right => some (comparePairs left right)
    | _, _ => none

/-- The weight of a string is the product of its weights in the two acceptors. -/
def intersection [BEq L] (A : Automaton m L S₁ T₁ W) (B : Automaton m L S₂ T₂ W) :
    Automaton m L (PairState S₁ S₂) (PairTransition S₁ S₂ T₁ T₂ L) W :=
  product .acceptor A B

/-- What the left transducer writes is what the right one reads. -/
def composition {I M O : Type} [BEq M] (A : Automaton m (Tape I M) S₁ T₁ W)
    (B : Automaton m (Tape M O) S₂ T₂ W) :
    Automaton m (Tape I O) (PairState S₁ S₂) (PairTransition S₁ S₂ T₁ T₂ (Tape I O)) W :=
  product .transducer A B

end Automaton

end WeightedAutomata
