/-!
Topological ranks: states without unranked predecessors are ranked in the order they come up.
`Proofs.Explicit.Peeling` has the loop with a queue and a checked count of predecessors, which finds
the same ranks.
-/
namespace WeightedAutomata

/-- A ranking under way. -/
structure Ranking where
  /-- How many edges into each state come from states not yet worked on. -/
  blockers : Array Nat
  /-- The states ranked so far, in rank order. -/
  ranked : Array Nat
  deriving Repr

namespace Ranking

/-- Removes one edge into `target`, which is ranked if that was the last one. -/
def release (r : Ranking) (target : Nat) : Ranking :=
  let blockers := r.blockers.modify target (· - 1)
  if blockers[target]? = some 0 then ⟨blockers, r.ranked.push target⟩ else { r with blockers }

/-- Removes the edges that leave the state of rank `rank`, if there is one. -/
def advance (successors : Nat → List Nat) (r : Ranking) (rank : Nat) : Ranking :=
  match r.ranked[rank]? with
  | none => r
  | some state => (successors state).foldl release r

end Ranking

/-- The rank of each state in a topological order of a graph with `n` states; `none` if it has a
cycle. -/
def topologicalRanks (n : Nat) (successors : Nat → List Nat) (inDegree : Nat → Nat) :
    Option (Array Nat) :=
  let start : Ranking :=
    { blockers := (Array.range n).map inDegree
      ranked := (Array.range n).filter fun s => inDegree s == 0 }
  let ranked := ((List.range n).foldl (Ranking.advance successors) start).ranked
  if ranked.size = n then
    some (ranked.zipIdx.foldl (fun ranks (state, rank) => ranks.setIfInBounds state rank)
      (Array.replicate n 0))
  else none

end WeightedAutomata
