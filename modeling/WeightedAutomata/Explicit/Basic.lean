import WeightedAutomata.Automaton.Basic
import WeightedAutomata.Explicit.Graph
import WeightedAutomata.Explicit.Ranks

/-!
Explicit automata: graphs with tables of the transitions at each state.
-/
namespace WeightedAutomata

variable {L W : Type}

namespace Graph

/-- The numbers of the edges at each state by one of their endpoints, in increasing order. -/
def edgesBy (endpoint : Edge L W → Nat) (g : Graph L W) : Array (List Nat) :=
  g.edges.zipIdx.foldr (fun (e, t) table => table.modify (endpoint e) (t :: ·))
    (Array.replicate g.states.size [])

/-- The rank of each state in a topological order, unless there is a cycle. -/
def ranks (g : Graph L W) : Option (Array Nat) :=
  let outgoing := g.edgesBy Edge.source
  let incoming := g.edgesBy Edge.target
  topologicalRanks g.states.size
    (fun s => (outgoing.getD s []).filterMap fun t => g.edges[t]?.map Edge.target)
    (fun s => (incoming.getD s []).length)

/-- The states for which a weight is not zero, in increasing order. -/
def statesWhere [Zero W] [BEq W] (weight : Terminal W → W) (g : Graph L W) : List Nat :=
  (List.range g.states.size).filter fun s => g.states[s]?.any fun terminal => !weight terminal == 0

end Graph

/-- The endpoint of a transition that an automaton does not have. No automaton has this state. -/
def absentState : Nat := UInt32.size - 1

/-- A finished graph with the tables that answer its queries. -/
structure Explicit (L W : Type) extends Graph L W where
  /-- The numbers of the edges out of each state. -/
  outgoing : Array (List Nat)
  /-- The numbers of the edges into each state. -/
  incoming : Array (List Nat)
  ranks : Option (Array Nat)
  outgoing_eq : outgoing = toGraph.edgesBy Edge.source
  incoming_eq : incoming = toGraph.edgesBy Edge.target
  ranks_eq : ranks = toGraph.ranks

def Graph.explicit (g : Graph L W) : Explicit L W :=
  { g with
    outgoing := g.edgesBy Edge.source
    incoming := g.edgesBy Edge.target
    ranks := g.ranks
    outgoing_eq := rfl
    incoming_eq := rfl
    ranks_eq := rfl }

namespace Explicit

def isAcyclic (E : Explicit L W) : Bool := E.ranks.isSome

/-- The order of the ranks; states without a rank come before all others. -/
def order? (E : Explicit L W) : Option (Nat → Nat → Ordering) :=
  E.ranks.map fun ranks a b => compare ranks[a]? ranks[b]?

variable {m : Type → Type} [Monad m] [Zero W] [BEq W]

/-- States and transitions are their numbers. Unknown ones have weight zero and lead nowhere. -/
def automaton (E : Explicit L W) : Automaton m L Nat Nat W where
  initialStates := pure (E.statesWhere Terminal.initial)
  outgoing s := pure (E.outgoing.getD s [])
  initialWeight s := pure (E.states[s]?.elim 0 Terminal.initial)
  finalWeight s := pure (E.states[s]?.elim 0 Terminal.final)
  weight t := pure (E.edges[t]?.elim 0 Edge.weight)
  source t := E.edges[t]?.elim absentState Edge.source
  target t := E.edges[t]?.elim absentState Edge.target
  label t := E.edges[t]?.bind Edge.label
  order := E.order?
  backward := some
    { finalStates := pure (E.statesWhere Terminal.final)
      incoming := fun s => pure (E.incoming.getD s []) }

end Explicit

end WeightedAutomata
