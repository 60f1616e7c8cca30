import WeightedAutomata.Weight.Basic

/-!
Lists of the best path weights: a weight in which every summand remembers its path.
-/
namespace WeightedAutomata

/-- The weight of one path, the state it starts from and the transitions it took. -/
structure PathWeight (S T W : Type) where
  weight : W
  /-- Tells apart the empty paths of different initial states. -/
  origin : Option S
  /-- The transitions taken, latest first. -/
  trail : List T
  deriving BEq, ReflBEq, LawfulBEq, Repr

namespace PathWeight

variable {S T W : Type}

def transitions (p : PathWeight S T W) : List T := p.trail.reverse

/-- The first path followed by the second. -/
def append [Mul W] (p q : PathWeight S T W) : PathWeight S T W :=
  ⟨p.weight * q.weight, p.origin <|> q.origin, q.trail ++ p.trail⟩

end PathWeight

/-- The weights of at most `k` different paths, best first. The empty list is zero. -/
structure KBest (k : Nat) (S T W : Type) where
  entries : List (PathWeight S T W)
  deriving BEq, ReflBEq, LawfulBEq, Repr

namespace KBest

variable {k : Nat} {S T W : Type}

/-- Appends an entry unless the list is full or has it. -/
def keep [BEq (PathWeight S T W)] (k : Nat) (kept : List (PathWeight S T W))
    (entry : PathWeight S T W) : List (PathWeight S T W) :=
  if k ≤ kept.length || kept.contains entry then kept else kept ++ [entry]

/-- The `k` best of some entries: zeros dropped, ties in the order given, each path once. -/
def ofEntries [Zero W] [BEq W] [Ord W] [BEq S] [BEq T] (entries : List (PathWeight S T W)) :
    KBest k S T W :=
  let live := entries.filter fun e => !e.weight == 0
  let ranked := live.mergeSort fun a b => compare a.weight b.weight != .gt
  ⟨ranked.foldl (keep k) []⟩

instance : Zero (KBest k S T W) := ⟨⟨[]⟩⟩
instance [One W] : One (KBest k S T W) := ⟨⟨[⟨1, none, []⟩]⟩⟩

section Operations

variable [Zero W] [BEq W] [Ord W] [BEq S] [BEq T]

instance : Add (KBest k S T W) := ⟨fun a b => ofEntries (a.entries ++ b.entries)⟩

/-- Every path of `a` followed by every path of `b`. -/
instance [Mul W] : Mul (KBest k S T W) :=
  ⟨fun a b => ofEntries (a.entries.flatMap fun p => b.entries.map p.append)⟩

end Operations

/-- Position by position; a list that ends before another is the worse one. -/
def compareEntries [Ord W] : List (PathWeight S T W) → List (PathWeight S T W) → Ordering
  | [], [] => .eq
  | [], _ :: _ => .gt
  | _ :: _, [] => .lt
  | p :: ps, q :: qs => (compare p.weight q.weight).then (compareEntries ps qs)

instance [Ord W] : Ord (KBest k S T W) := ⟨fun a b => compareEntries a.entries b.entries⟩

/-- One entry, or none for the weight zero. -/
def single [Zero W] [BEq W] (entry : PathWeight S T W) : KBest k S T W :=
  ⟨if entry.weight == 0 then [] else [entry]⟩

/-- A weight without a path. -/
def lift [Zero W] [BEq W] (w : W) : KBest k S T W := single ⟨w, none, []⟩

/-- The empty path at `origin`. -/
def liftInitial [Zero W] [BEq W] (w : W) (origin : S) : KBest k S T W := single ⟨w, some origin, []⟩

/-- The path of one transition. -/
def liftTransition [Zero W] [BEq W] (w : W) (transition : T) : KBest k S T W :=
  single ⟨w, none, [transition]⟩

def best? (a : KBest k S T W) : Option (PathWeight S T W) := a.entries.head?

end KBest

end WeightedAutomata
