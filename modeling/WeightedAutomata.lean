import WeightedAutomata.Expression.Basic
import WeightedAutomata.Main
import WeightedAutomata.Proofs.Paths.Basic
import WeightedAutomata.Proofs.Paths.Sums
import WeightedAutomata.Proofs.Answers
import WeightedAutomata.Proofs.Frontier
import WeightedAutomata.Proofs.Loop
import WeightedAutomata.Proofs.Product.Moves
import WeightedAutomata.Proofs.Product.Paths
import WeightedAutomata.Proofs.Relaxation.Steps
import WeightedAutomata.Proofs.Relaxation.Schedules
import WeightedAutomata.Proofs.Relaxation.Sums
import WeightedAutomata.Proofs.Total
import WeightedAutomata.Proofs.SingleInitial
import WeightedAutomata.Proofs.Relaxation.Expansions
import WeightedAutomata.Proofs.Relaxation.Topological
import WeightedAutomata.Proofs.Paths.Complete
import WeightedAutomata.Proofs.Acyclic
import WeightedAutomata.Proofs.Paths.Visits
import WeightedAutomata.Proofs.Relaxation.Cycles
import WeightedAutomata.Proofs.Relaxation.Equations
import WeightedAutomata.Proofs.Relaxation.Ledgers
import WeightedAutomata.Proofs.Cyclic
import WeightedAutomata.Proofs.StringWeight
import WeightedAutomata.Proofs.KBest.Insertion
import WeightedAutomata.Proofs.KBest.Coverage
import WeightedAutomata.Proofs.KBest.Pending
import WeightedAutomata.Proofs.KBest.Followed
import WeightedAutomata.Proofs.KBest.Routes
import WeightedAutomata.Proofs.KBest.Offers
import WeightedAutomata.Proofs.KBest.Distances
import WeightedAutomata.Proofs.KBest.Rooted
import WeightedAutomata.Proofs.KBest.ShortestPaths
import WeightedAutomata.Proofs.KBest.Genuine
import WeightedAutomata.Proofs.Determinization.Readings
import WeightedAutomata.Proofs.Hoist
import WeightedAutomata.Proofs.Determinization.Closure
import WeightedAutomata.Proofs.Determinization.Memory
import WeightedAutomata.Proofs.Determinization.Successors
import WeightedAutomata.Proofs.Determinization.Queries
import WeightedAutomata.Proofs.Determinization.Table
import WeightedAutomata.Proofs.Determinization.Recall
import WeightedAutomata.Proofs.Determinization.Replay
import WeightedAutomata.Proofs.Determinization.Strings
import WeightedAutomata.Proofs.Determinization.BestStrings
import WeightedAutomata.Proofs.Determinization.StringWeight
import WeightedAutomata.Proofs.Explicit.Ranks
import WeightedAutomata.Proofs.Explicit.Tables
import WeightedAutomata.Proofs.Nesting.Ensures
import WeightedAutomata.Proofs.Nesting.Orders
import WeightedAutomata.Proofs.Nesting.Ascending
import WeightedAutomata.Proofs.Nesting.Expressions
import WeightedAutomata.Proofs.Determinization.Closing
import WeightedAutomata.Proofs.Determinization.Carried
import WeightedAutomata.Proofs.Determinization.Consistency
import WeightedAutomata.Proofs.Determinization.Endings
import WeightedAutomata.Proofs.Determinization.Lasting
import WeightedAutomata.Proofs.Determinization.Sessions
import WeightedAutomata.Proofs.Determinization.Renaming
import WeightedAutomata.Proofs.Backward
import WeightedAutomata.Proofs.Product.StringWeight
import WeightedAutomata.Proofs.Contract
import WeightedAutomata.Proofs.Answered
import WeightedAutomata.Proofs.Steady.Basic
import WeightedAutomata.Proofs.Steady.Views
import WeightedAutomata.Proofs.Steady.Determinization
import WeightedAutomata.Proofs.Steady.Assembled
import WeightedAutomata.Proofs.Steady.Viewed
import WeightedAutomata.Proofs.Steady.Logs
import WeightedAutomata.Proofs.Copy.Echoes
import WeightedAutomata.Proofs.Copy.Mirrors
import WeightedAutomata.Proofs.Copy.Outcome
import WeightedAutomata.Proofs.Copy.Order
import WeightedAutomata.Proofs.Copy.Strings
import WeightedAutomata.Proofs.Traversal.FirstIn
import WeightedAutomata.Proofs.Copy.Frozen
import WeightedAutomata.Proofs.Copy.Exploration
import WeightedAutomata.Proofs.Copy.Isomorphism
import WeightedAutomata.Proofs.Description.Building
import WeightedAutomata.Proofs.Doubles
import WeightedAutomata.Proofs.Description.Saved
import WeightedAutomata.Proofs.Totals
import WeightedAutomata.Proofs.Embedding
import WeightedAutomata.Proofs.Union.Basic
import WeightedAutomata.Proofs.Union.Rooting
import WeightedAutomata.Proofs.Union.Weights
import WeightedAutomata.Proofs.BestWeights
import WeightedAutomata.Proofs.KBest.Agreement
import WeightedAutomata.Proofs.Reversal.TwoWay
import WeightedAutomata.Proofs.Reversal.Adjoint
import WeightedAutomata.Proofs.Reversal.Weights
import WeightedAutomata.Proofs.Determinization.Traces
import WeightedAutomata.Proofs.Determinization.Finite
import WeightedAutomata.Proofs.Determinization.MultipleStrings
import WeightedAutomata.Proofs.KBest.Order
import WeightedAutomata.Proofs.Costs
import WeightedAutomata.Proofs.KBest.Laws
import WeightedAutomata.Proofs.Relaxation.BestFirst
import WeightedAutomata.Proofs.Frontier.Worklist
import WeightedAutomata.Proofs.Frontier.Listed
import WeightedAutomata.Proofs.Frontier.Heaps
import WeightedAutomata.Proofs.Frontier.Keeping
import WeightedAutomata.Proofs.Frontier.Priority
import WeightedAutomata.Proofs.Relaxation.Calls
import WeightedAutomata.Proofs.KBest.Priorities
import WeightedAutomata.Proofs.Traversal.BreadthFirst
import WeightedAutomata.Proofs.Traversal.Listing
import WeightedAutomata.Proofs.Traversal.Recounted
import WeightedAutomata.Proofs.Explicit.Peeling
import WeightedAutomata.Proofs.Explicit.Steps
import WeightedAutomata.Proofs.Explicit.Builder
import WeightedAutomata.Proofs.Description.Accepted
import WeightedAutomata.Proofs.Text.Labels
import WeightedAutomata.Proofs.Determinization.SilentPaths
