/-!
Automata: states and transitions that are enumerated on demand, in a monad of queries.
-/
namespace WeightedAutomata

/-- Access to an automaton against the direction of its transitions. -/
structure Backward (m : Type → Type) (S T : Type) where
  finalStates : m (List S)
  incoming : S → m (List T)

/-- A weighted automaton with labels `L`, states `S`, transitions `T` and weights `W`. A state is
initial iff its initial weight is not zero, and final iff its final weight is not. -/
structure Automaton (m : Type → Type) (L S T W : Type) where
  initialStates : m (List S)
  outgoing : S → m (List T)
  initialWeight : S → m W
  finalWeight : S → m W
  weight : T → m W
  source : T → S
  target : T → S
  /-- A transition without a label is an epsilon transition. -/
  label : T → Option L
  /-- An order of the states in which every transition leads upwards, where one is known. -/
  order : Option (S → S → Ordering) := none
  backward : Option (Backward m S T) := none

variable {m n : Type → Type} {L S T W : Type}

def Backward.hoist (f : {α : Type} → m α → n α) (b : Backward m S T) : Backward n S T where
  finalStates := f b.finalStates
  incoming s := f (b.incoming s)

namespace Automaton

/-- The same automaton with its queries asked in another monad. -/
def hoist (f : {α : Type} → m α → n α) (A : Automaton m L S T W) : Automaton n L S T W where
  initialStates := f A.initialStates
  outgoing s := f (A.outgoing s)
  initialWeight s := f (A.initialWeight s)
  finalWeight s := f (A.finalWeight s)
  weight t := f (A.weight t)
  source := A.source
  target := A.target
  label := A.label
  order := A.order
  backward := A.backward.map (Backward.hoist f)

/-- An automaton whose queries have no effect answers them in every monad. -/
def lift [Monad n] (A : Automaton Id L S T W) : Automaton n L S T W :=
  A.hoist fun x => pure x.run

def isInitial [Monad m] [Zero W] [BEq W] (A : Automaton m L S T W) (s : S) : m Bool :=
  return !(← A.initialWeight s) == 0

def isFinal [Monad m] [Zero W] [BEq W] (A : Automaton m L S T W) (s : S) : m Bool :=
  return !(← A.finalWeight s) == 0

/-- The labels along a sequence of transitions, epsilon transitions left out. -/
def labels (A : Automaton m L S T W) (ts : List T) : List L := ts.filterMap A.label

end Automaton

end WeightedAutomata
