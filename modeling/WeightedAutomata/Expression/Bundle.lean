import WeightedAutomata.Automaton.Traversal
import WeightedAutomata.Explicit.Copy
import WeightedAutomata.Expression.Names
import WeightedAutomata.Primitive.SingleString
import WeightedAutomata.Primitive.SingleTransition
import WeightedAutomata.View.Reversal
import WeightedAutomata.View.SingleInitial
import WeightedAutomata.View.Strings

/-!
Automata of any kind under one type: bundled with their types of states, of transitions and of the
memory that their queries share.
-/
namespace WeightedAutomata

/-- An automaton with everything that is needed to query it. Queries may extend the memory, and
fail where they run out of steps. -/
structure AnyAutomaton (L W : Type) where
  State : Type
  Transition : Type
  Memory : Type
  [stateBEq : BEq State]
  [stateLawful : LawfulBEq State]
  [stateHash : Hashable State]
  [transitionBEq : BEq Transition]
  automaton : Automaton (StateT Memory Option) L State Transition W
  /-- The memory before the first query. -/
  memory : Memory
  stateName : State → StateName
  transitionName : Transition → TransitionName L

attribute [instance] AnyAutomaton.stateBEq AnyAutomaton.stateLawful AnyAutomaton.stateHash
  AnyAutomaton.transitionBEq

section Memory

variable {M₁ M₂ α : Type}

/-- A query that knows the first part of a memory. -/
def onFirst (query : StateT M₁ Option α) : StateT (M₁ × M₂) Option α :=
  fun (a, b) => (query a).map fun (answer, a) => (answer, (a, b))

/-- A query that knows the second part of a memory. -/
def onSecond (query : StateT M₂ Option α) : StateT (M₁ × M₂) Option α :=
  fun (a, b) => (query b).map fun (answer, b) => (answer, (a, b))

/-- A query with a memory of its own, on top of another memory. -/
def onBoth (query : StateT M₁ (StateT M₂ Option) α) : StateT (M₁ × M₂) Option α :=
  fun (a, b) => (query a b).map fun ((answer, a), b) => (answer, (a, b))

end Memory

namespace AnyAutomaton

variable {L W : Type}

/-- The answer of a query before which no other is asked. -/
def ask {α : Type} (a : AnyAutomaton L W) (query : StateT a.Memory Option α) : Option α :=
  (query.run a.memory).map (·.1)

/-- The memories of several automata. -/
def Memories : List (AnyAutomaton L W) → Type
  | [] => Unit
  | a :: as => a.Memory × Memories as

def Memories.start : (as : List (AnyAutomaton L W)) → Memories as
  | [] => ()
  | a :: as => (a.memory, start as)

/-- A query of one of several automata. -/
def onMember {α : Type} : (as : List (AnyAutomaton L W)) → (i : Fin as.length) →
    StateT (as.get i).Memory Option α → StateT (Memories as) Option α
  | _ :: _, ⟨0, _⟩, query => onFirst query
  | _ :: as, ⟨i + 1, h⟩, query =>
    onSecond (onMember as ⟨i, Nat.lt_of_succ_lt_succ h⟩ query)

/-- Automata that remember nothing. -/
def ofStateless {S T : Type} [BEq S] [LawfulBEq S] [Hashable S] [BEq T]
    (A : Automaton (StateT Unit Option) L S T W) (stateName : S → StateName)
    (transitionName : T → TransitionName L) : AnyAutomaton L W :=
  { State := S, Transition := T, Memory := Unit, automaton := A, memory := (), stateName
    transitionName }

def explicit [Zero W] [BEq W] (E : Explicit L W) : AnyAutomaton L W :=
  ofStateless E.automaton .number .number

def string [Zero W] [One W] (string : List L) : AnyAutomaton L W :=
  ofStateless (singleString string) .number .number

def transition [Zero W] [One W] (label : Option L) (weight : W) : AnyAutomaton L W :=
  ofStateless (singleTransition label weight) .number fun _ => .sole

def union? (as : List (AnyAutomaton L W)) : Except BuildError (AnyAutomaton L W) :=
  match WeightedAutomata.union? fun i => (as.get i).automaton.hoist (onMember as i) with
  | .error e => .error e
  | .ok automaton => .ok
    { State := Tagged fun i => (as.get i).State
      Transition := Tagged fun i => (as.get i).Transition
      Memory := Memories as
      automaton
      memory := .start as
      stateName := fun s => .operand s.operand ((as.get s.operand).stateName s.value)
      transitionName := fun t => .operand t.operand ((as.get t.operand).transitionName t.value) }

def reverse? (a : AnyAutomaton L W) : Option (AnyAutomaton L W) :=
  a.automaton.reverse?.map fun automaton => { a with automaton }

variable [Zero W] [One W] [Mul W] [BEq W] [BEq L]

def product (pairing : Pairing L L L) (a b : AnyAutomaton L W) : AnyAutomaton L W :=
  { State := PairState a.State b.State
    Transition := PairTransition a.State b.State a.Transition b.Transition L
    Memory := a.Memory × b.Memory
    automaton := (a.automaton.hoist onFirst).product pairing (b.automaton.hoist onSecond)
    memory := (a.memory, b.memory)
    stateName := fun s => .pair (a.stateName s.left) (b.stateName s.right) s.filter
    transitionName := fun t =>
      .ofSides (t.left.map a.transitionName) (t.right.map b.transitionName) }

variable [Add W]

def singleInitial (a : AnyAutomaton L W) : AnyAutomaton L W :=
  { State := Option a.State
    Transition := Rooted a.Transition
    Memory := a.Memory
    automaton := a.automaton.singleInitial
    memory := a.memory
    stateName := fun s => s.elim .added fun s => .own (a.stateName s)
    transitionName := fun
      | .fused t => .fused (a.transitionName t)
      | .plain t => .plain (a.transitionName t) }

def materialize? (budget : Nat) (a : AnyAutomaton L W) : Except BuildError (AnyAutomaton L W) :=
  match a.ask (a.automaton.materialize budget) with
  | none => .error .outOfSteps
  | some (.error e) => .error e
  | some (.ok E) => .ok (explicit E)

variable [PartialInverse W]

def determinize (budget : Nat) (a : AnyAutomaton L W) : AnyAutomaton L W :=
  { State := Nat
    Transition := SubsetTransition L W
    Memory := SubsetMemory L a.State W × a.Memory
    automaton := (a.automaton.determinize budget).hoist onBoth
    memory := (.empty, a.memory)
    stateName := .subset
    transitionName := fun t => .subset t.source t.label t.target }

def strings? (budget : Nat) (strings : List (List L)) : Except BuildError (AnyAutomaton L W) :=
  match multipleStrings budget strings with
  | .error e => .error e
  | .ok automaton => .ok
    { State := Nat
      Transition := SubsetTransition L W
      Memory := SubsetMemory L (Tagged fun _ : Fin strings.length => Nat) W
      automaton
      memory := .empty
      stateName := .subset
      transitionName := fun t => .subset t.source t.label t.target }

end AnyAutomaton

end WeightedAutomata
