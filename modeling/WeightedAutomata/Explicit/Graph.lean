import WeightedAutomata.Error

/-!
Numbered states with the transitions between them, put together step by step. A step that fails
changes nothing. The numbers have no upper bound. `Proofs.Explicit.Builder` has a builder that
writes into its entries in place, and gives the same answers.
-/
namespace WeightedAutomata

/-- A stored transition. -/
structure Edge (L W : Type) where
  source : Nat
  target : Nat
  label : Option L
  weight : W
  deriving BEq, Repr

/-- The weights that make a state initial and final. -/
structure Terminal (W : Type) where
  initial : W
  final : W
  deriving BEq, Repr

/-- States and transitions are numbered in the order in which they are stored. -/
structure Graph (L W : Type) where
  states : Array (Terminal W)
  edges : Array (Edge L W)
  endpoints : ∀ e ∈ edges, e.source < states.size ∧ e.target < states.size

namespace Graph

variable {L W : Type}

/-- States without transitions. -/
def ofStates (states : Array (Terminal W)) : Graph L W := ⟨states, #[], by simp⟩

def empty : Graph L W := ofStates #[]

/-- Adds states that are neither initial nor final; answers their numbers. -/
def addStates [Zero W] (g : Graph L W) (count : Nat) : List Nat × Graph L W :=
  ((List.range count).map (g.states.size + ·),
    { g with
      states := g.states ++ Array.replicate count ⟨0, 0⟩
      endpoints := fun e he => by
        have := g.endpoints e he
        simp only [Array.size_append]
        omega })

/-- Checks that there is such a state. -/
def known (g : Graph L W) (state : Nat) : Except BuildError Unit :=
  if state < g.states.size then .ok () else .error (.unknownState state g.states.size)

def modifyState (g : Graph L W) (state : Nat) (f : Terminal W → Terminal W) : Graph L W :=
  { g with
    states := g.states.modify state f
    endpoints := by simpa using g.endpoints }

def setInitial (g : Graph L W) (state : Nat) (w : W) : Except BuildError (Graph L W) := do
  g.known state
  return g.modifyState state ({ · with initial := w })

def setFinal (g : Graph L W) (state : Nat) (w : W) : Except BuildError (Graph L W) := do
  g.known state
  return g.modifyState state ({ · with final := w })

def pushEdge (g : Graph L W) (e : Edge L W)
    (h : e.source < g.states.size ∧ e.target < g.states.size) : Graph L W :=
  { g with
    edges := g.edges.push e
    endpoints := fun e' he => by
      rcases Array.mem_push.1 he with he | rfl
      · exact g.endpoints e' he
      · exact h }

/-- Adds a transition and answers its number. The target is checked before the source. -/
def addTransition (g : Graph L W) (e : Edge L W) : Except BuildError (Nat × Graph L W) :=
  if target : e.target < g.states.size then
    if source : e.source < g.states.size then
      .ok (g.edges.size, g.pushEdge e ⟨source, target⟩)
    else .error (.unknownState e.source g.states.size)
  else .error (.unknownState e.target g.states.size)

/-- Adds transitions in order, up to one that fails. -/
def addTransitions (g : Graph L W) (edges : List (Edge L W)) : Except BuildError (Graph L W) :=
  edges.foldlM (fun g e => (g.addTransition e).map (·.2)) g

/-- A step of a construction. -/
inductive Step (L W : Type) where
  | addState
  | addStates (count : Nat)
  | setInitial (state : Nat) (weight : W)
  | setFinal (state : Nat) (weight : W)
  | addTransition (edge : Edge L W)
  deriving Repr

/-- Takes a step and answers the numbers of the states or transitions that it has added. -/
def apply [Zero W] (g : Graph L W) : Step L W → Except BuildError (List Nat × Graph L W)
  | .addState => .ok (g.addStates 1)
  | .addStates count => .ok (g.addStates count)
  | .setInitial state w => (g.setInitial state w).map ([], ·)
  | .setFinal state w => (g.setFinal state w).map ([], ·)
  | .addTransition e => (g.addTransition e).map fun (t, g) => ([t], g)

/-- Takes all steps; the first failure ends the construction. -/
def applyAll [Zero W] (g : Graph L W) (steps : List (Step L W)) : Except BuildError (Graph L W) :=
  steps.foldlM (fun g step => (g.apply step).map (·.2)) g

/-- Takes the steps that do not fail. -/
def applyPossible [Zero W] (g : Graph L W) (steps : List (Step L W)) : Graph L W :=
  steps.foldl (fun g step =>
    match g.apply step with
    | .ok (_, g) => g
    | .error _ => g) g

end Graph

end WeightedAutomata
