import WeightedAutomata.View.EpsilonClosure

/-!
Determinization: weighted subsets of the operand's states, found on demand and remembered. The
weight that a subset has in common moves to the transition that leads to it. The indices of the
subsets have no upper bound.
-/
namespace WeightedAutomata

/-- A determinized state is the index of its subset. -/
structure SubsetTransition (L W : Type) where
  source : Nat
  target : Nat
  label : L
  weight : W
  deriving BEq, ReflBEq, LawfulBEq, Repr

/-- What a determinization has found so far. -/
structure SubsetMemory (L S W : Type) where
  /-- The residual weights of each subset's states, in the order of discovery. -/
  subsets : Array (WeightedStates S W)
  explored : Std.HashMap Nat (List (SubsetTransition L W))
  /-- The initial state and weight, once asked for; `none` inside where there is no such state. -/
  start : Option (Option (Nat × W))
  /-- The first subset weight that could not be inverted. -/
  failure : Option InverseError

namespace SubsetMemory

variable {L S W : Type}

def empty : SubsetMemory L S W := ⟨#[], ∅, none, none⟩

def subset (memory : SubsetMemory L S W) (state : Nat) : WeightedStates S W :=
  memory.subsets.getD state []

def recordFailure (memory : SubsetMemory L S W) (e : InverseError) : SubsetMemory L S W :=
  { memory with failure := memory.failure <|> some e }

variable [BEq S] [BEq W]

/-- Equality as sets. -/
def sameSubset (a b : WeightedStates S W) : Bool :=
  a.length == b.length && a.all b.contains

/-- The index of a subset, a new one if no equal subset is known. -/
def intern (memory : SubsetMemory L S W) (subset : WeightedStates S W) :
    Nat × SubsetMemory L S W :=
  match memory.subsets.findIdx? (sameSubset subset) with
  | some i => (i, memory)
  | none => (memory.subsets.size, { memory with subsets := memory.subsets.push subset })

end SubsetMemory

/-- Puts a seed into the group of its label; groups stand in the order of their first seeds. -/
def addSeed {L S W : Type} [BEq L] (label : L) (seed : S × W) :
    List (L × WeightedStates S W) → List (L × WeightedStates S W)
  | [] => [(label, [seed])]
  | (l, seeds) :: rest =>
    if l == label then (l, seeds ++ [seed]) :: rest else (l, seeds) :: addSeed label seed rest

namespace Automaton

variable {m : Type → Type} [Monad m] [StepLimited m] {L S T W : Type}
variable [BEq L] [BEq S] [Hashable S] [Zero W] [One W] [Add W] [Mul W] [BEq W] [PartialInverse W]

/-- The queries of a determinization. -/
abbrev Subsets (m : Type → Type) (L S W : Type) := StateT (SubsetMemory L S W) m

/-- Closes the seeds, divides by their total weight and interns the result. `none` where the total
is zero or has no inverse; the first such failure is recorded. -/
def settle (budget : Nat) (A : Automaton m L S T W) (seeds : WeightedStates S W) :
    Subsets m L S W (Option (Nat × W)) := do
  let closed ← StateT.lift (A.epsilonClosure budget seeds)
  let total := Weight.sum (closed.map (·.2))
  if total == 0 then return none
  match PartialInverse.inverse total with
  | .error e => modify (·.recordFailure e); return none
  | .ok inverse =>
    let index ← modifyGet (·.intern (closed.map fun (s, w) => (s, inverse * w)))
    return some (index, total)

/-- The closed initial states; settled when first asked for. -/
def startSubset (budget : Nat) (A : Automaton m L S T W) :
    Subsets m L S W (Option (Nat × W)) := do
  match (← get).start with
  | some start => return start
  | none =>
    let seeds ← StateT.lift do
      (← A.initialStates).mapM fun s => return (s, ← A.initialWeight s)
    let start ← A.settle budget seeds
    modify fun memory => { memory with start := some start }
    return start

/-- The targets of a subset's labeled transitions, grouped by label. -/
def successors (A : Automaton m L S T W) (subset : WeightedStates S W) :
    m (List (L × WeightedStates S W)) :=
  subset.foldlM (fun groups (s, residual) => do
    (← A.outgoing s).foldlM (fun groups t => do
      match A.label t with
      | none => return groups
      | some label =>
        let w := residual * (← A.weight t)
        return if w == 0 then groups else addSeed label (A.target t, w) groups) groups) []

def expand (budget : Nat) (A : Automaton m L S T W) (state : Nat) :
    Subsets m L S W (List (SubsetTransition L W)) := do
  let groups ← StateT.lift (A.successors ((← get).subset state))
  groups.filterMapM fun (label, seeds) => do
    return (← A.settle budget seeds).map fun (target, weight) => ⟨state, target, label, weight⟩

/-- At most one transition per label and no epsilon transitions; every string keeps its weight. -/
def determinize (budget : Nat) (A : Automaton m L S T W) :
    Automaton (Subsets m L S W) L Nat (SubsetTransition L W) W where
  initialStates := return (← A.startSubset budget).toList.map (·.1)
  outgoing s := do
    match (← get).explored[s]? with
    | some ts => return ts
    | none =>
      let ts ← A.expand budget s
      modify fun memory => { memory with explored := memory.explored.insert s ts }
      return ts
  initialWeight s := do
    match ← A.startSubset budget with
    | some (start, w) => return if start = s then w else 0
    | none => return 0
  finalWeight s := do
    ((← get).subset s).foldlM (fun total (q, residual) =>
      return total + residual * (← A.finalWeight q)) 0
  weight t := pure t.weight
  source := SubsetTransition.source
  target := SubsetTransition.target
  label t := some t.label

end Automaton

end WeightedAutomata
