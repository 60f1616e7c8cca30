import WeightedAutomata.Automaton.Basic

/-!
The view with one initial state, of weight one, that leads on like all initial states together.
-/
namespace WeightedAutomata

/-- A transition of the operand, or one that leaves an initial state moved to the added state. -/
inductive Rooted (T : Type) where
  | fused (transition : T)
  | plain (transition : T)
  deriving BEq, Repr

def Rooted.transition {T : Type} : Rooted T → T
  | .fused t | .plain t => t

/-- The added state comes before the states of the operand. -/
def compareRooted {S : Type} (order : S → S → Ordering) : Option S → Option S → Ordering
  | none, none => .eq
  | none, some _ => .lt
  | some _, none => .gt
  | some a, some b => order a b

variable {m : Type → Type} [Monad m] {L S T W : Type} [Zero W] [One W] [Add W] [Mul W]

/-- The added state is `none`. Its transitions carry the initial weight of the state they left. -/
def Automaton.singleInitial (A : Automaton m L S T W) : Automaton m L (Option S) (Rooted T) W where
  initialStates := pure [none]
  outgoing
    | none => return ((← (← A.initialStates).mapM A.outgoing).flatten).map .fused
    | some s => return (← A.outgoing s).map .plain
  initialWeight s := pure (if s.isNone then 1 else 0)
  finalWeight
    | none => do
      (← A.initialStates).foldlM (fun total s =>
        return total + (← A.initialWeight s) * (← A.finalWeight s)) 0
    | some s => A.finalWeight s
  weight
    | .fused t => return (← A.initialWeight (A.source t)) * (← A.weight t)
    | .plain t => A.weight t
  source
    | .fused _ => none
    | .plain t => some (A.source t)
  target t := some (A.target t.transition)
  label t := A.label t.transition
  order := A.order.map compareRooted

end WeightedAutomata
