import WeightedAutomata.Explicit.Basic

/-!
Descriptions of explicit automata with string labels. A weight that is left out is one, and a
state that is not listed has weight zero.
-/
namespace WeightedAutomata

structure StateWeight (W : Type) where
  state : Nat
  weight : Option W
  deriving BEq, Repr

structure Description (W : Type) where
  states : Nat
  initial : List (StateWeight W)
  final : List (StateWeight W)
  transitions : List (Edge String (Option W))
  deriving BEq, Repr

namespace Description

variable {W : Type}

def setWeight (role : Role) (g : Graph String W) (state : Nat) (w : W) :
    Except BuildError (Graph String W) :=
  match role with
  | .initial => g.setInitial state w
  | .final => g.setFinal state w

/-- Sets the weights of a list that names each state once; `seen` holds the states before. -/
def setWeights [One W] (role : Role) (seen : List Nat) (g : Graph String W) :
    List (StateWeight W) → Except BuildError (Graph String W)
  | [] => .ok g
  | s :: rest => do
    if seen.contains s.state then throw (.repeatedState s.state role)
    setWeights role (s.state :: seen) (← setWeight role g s.state (s.weight.getD 1)) rest

/-- The source of a transition is checked before its target. -/
def addTransition [One W] (g : Graph String W) (e : Edge String (Option W)) :
    Except BuildError (Graph String W) := do
  g.known e.source
  return (← g.addTransition { e with weight := e.weight.getD 1 }).2

def build [Zero W] [One W] (d : Description W) : Except BuildError (Explicit String W) := do
  let g := (Graph.empty.addStates d.states).2
  let g ← setWeights .initial [] g d.initial
  let g ← setWeights .final [] g d.final
  return (← d.transitions.foldlM addTransition g).explicit

/-- A weight as it is described: one is left out. -/
def weight? [One W] [BEq W] (w : W) : Option W := if w == 1 then none else some w

def stateWeights [Zero W] [One W] [BEq W] (weight : Terminal W → W) (E : Explicit String W) :
    List (StateWeight W) :=
  E.states.toList.zipIdx.filterMap fun (terminal, s) =>
    let w := weight terminal
    if w == 0 then none else some ⟨s, weight? w⟩

/-- Leaves out states of weight zero and weights equal to one. -/
def describe [Zero W] [One W] [BEq W] (E : Explicit String W) : Description W where
  states := E.states.size
  initial := stateWeights Terminal.initial E
  final := stateWeights Terminal.final E
  transitions := E.edges.toList.map fun e => { e with weight := weight? e.weight }

end Description

end WeightedAutomata
