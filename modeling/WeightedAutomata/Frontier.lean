/-!
Frontiers: the states still to be worked on, kept in the order in which they leave. The ones with
queues, heaps and tables of pending states are in `Proofs.Frontier`, and give back the same states.
-/
namespace WeightedAutomata

variable {S W : Type}

/-- The rule by which states leave a frontier. -/
structure Discipline (S W : Type) where
  /-- Which entry leaves first; of equal ones the earlier. -/
  rank : S × W → S × W → Ordering
  /-- Whether a state that is inserted while pending takes a new place. -/
  reschedules : Bool

namespace Discipline

def fifo : Discipline S W := ⟨fun _ _ => .eq, false⟩

/-- The state that comes first in an order of the states. -/
def ordered (order : S → S → Ordering) : Discipline S W := ⟨fun a b => order a.1 b.1, false⟩

/-- The state whose latest distance ranks best. -/
def bestFirst (rank : W → W → Ordering) : Discipline S W := ⟨fun a b => rank a.2 b.2, true⟩

end Discipline

/-- A choice of discipline for automata over weights `W`. -/
inductive Queue (W : Type) where
  /-- By the topological order where one is known, else first in, first out. -/
  | topological
  | fifo
  | bestFirst (rank : W → W → Ordering)

def Queue.discipline (order : Option (S → S → Ordering)) : Queue W → Discipline S W
  | .topological => order.elim .fifo .ordered
  | .fifo => .fifo
  | .bestFirst rank => .bestFirst rank

/-- The pending states with their distances, the next to leave first. -/
structure Frontier (S W : Type) where
  discipline : Discipline S W
  pending : List (S × W)

namespace Frontier

def empty (discipline : Discipline S W) : Frontier S W := ⟨discipline, []⟩

def isEmpty (f : Frontier S W) : Bool := f.pending.isEmpty

/-- Puts an entry behind those that leave no later than it. -/
def place (rank : S × W → S × W → Ordering) (entry : S × W) : List (S × W) → List (S × W)
  | [] => [entry]
  | e :: rest => if rank entry e == .lt then entry :: e :: rest else e :: place rank entry rest

variable [BEq S]

def insert (f : Frontier S W) (state : S) (distance : W) : Frontier S W :=
  let enter := place f.discipline.rank (state, distance)
  if f.pending.any (·.1 == state) then
    if f.discipline.reschedules then
      { f with pending := enter (f.pending.eraseP (·.1 == state)) }
    else f
  else { f with pending := enter f.pending }

def pop? (f : Frontier S W) : Option (S × Frontier S W) :=
  match f.pending with
  | [] => none
  | (state, _) :: rest => some (state, { f with pending := rest })

end Frontier

end WeightedAutomata
