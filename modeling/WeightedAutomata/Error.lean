/-!
Why an automaton cannot be built.
-/
namespace WeightedAutomata

/-- The weights that a description lists by state. -/
inductive Role where
  | initial
  | final
  deriving DecidableEq, Repr

def Role.name : Role → String
  | .initial => "initial"
  | .final => "final"

inductive BuildError where
  /-- The automaton under construction has `states` states and not this one. -/
  | unknownState (state states : Nat)
  | emptyUnion
  | notReversible
  /-- A description lists a state twice. -/
  | repeatedState (state : Nat) (role : Role)
  /-- The text of a description cannot be read. -/
  | unreadable
  /-- The steps allowed for exploring the operand did not do. -/
  | outOfSteps
  deriving DecidableEq, Repr

def BuildError.message : BuildError → String
  | .unknownState state states => s!"unknown state {state}: the automaton has {states} states"
  | .emptyUnion => "a union needs at least one operand"
  | .notReversible => "the operand cannot be walked backwards"
  | .repeatedState state role =>
    s!"invalid automaton description: state {state} is listed twice as {role.name}"
  | .unreadable => "invalid automaton description"
  | .outOfSteps => "the operand has too many states"

end WeightedAutomata
