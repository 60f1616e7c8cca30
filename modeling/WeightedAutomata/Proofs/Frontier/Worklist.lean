import Mathlib.Data.List.Induction

/-!
Work lists of states, and what is asked of one: that it holds the pending states and gives back
the first of them. A roster says when each pending state became pending, when it was last inserted
and with which distance.
-/
namespace WeightedAutomata

variable {S W φ ψ : Type}

/-- The standing of a pending state. -/
structure Standing (W : Type) where
  /-- How often a state had become pending before this one did. -/
  since : ℕ
  /-- How many insertions there had been before the last one of this state. -/
  latest : ℕ
  /-- The distance at that insertion. -/
  distance : W

/-- Which of two pending states comes first. -/
abbrev Precedence (S W : Type) := S × Standing W → S × Standing W → Ordering

namespace Precedence

/-- The one that became pending first. -/
def fifo : Precedence S W := compareOn (·.2.since)

/-- The one that comes first in an order, of equal ones the one that became pending first. -/
def ordered (order : S → S → Ordering) : Precedence S W :=
  compareLex (fun a b => order a.1 b.1) (compareOn (·.2.since))

/-- The one whose last distance is the best, of equal ones the one that was last inserted first. -/
def bestFirst (rank : W → W → Ordering) : Precedence S W :=
  compareLex (fun a b => rank a.2.distance b.2.distance) (compareOn (·.2.latest))

end Precedence

/-- The states inserted since they last left, with their standing. -/
structure Roster (S W : Type) where
  standing : S → Option (Standing W)
  /-- How often a state has become pending. -/
  entrances : ℕ
  insertions : ℕ

namespace Roster

def empty : Roster S W := ⟨fun _ => none, 0, 0⟩

/-- No state is pending. -/
def Idle (r : Roster S W) : Prop := ∀ s, r.standing s = none

/-- `p` is pending and comes before every other state that is. -/
def First (before : Precedence S W) (r : Roster S W) (p : S) : Prop :=
  ∃ σ, r.standing p = some σ ∧
    ∀ q τ, r.standing q = some τ → q ≠ p → before (p, σ) (q, τ) = .lt

theorem First.unique {before : Precedence S W} [Std.OrientedCmp before] {r : Roster S W} {p q : S}
    (hp : r.First before p) (hq : r.First before q) : p = q := by
  obtain ⟨σ, hσ, hfirst⟩ := hp
  obtain ⟨τ, hτ, hfirst'⟩ := hq
  by_contra hne
  exact Std.OrientedCmp.not_lt_of_lt (hfirst q τ hτ (Ne.symm hne)) (hfirst' p σ hσ hne)

variable [BEq S]

def enter (r : Roster S W) (s : S) (w : W) : Roster S W where
  standing q :=
    if s == q then some ⟨(r.standing s).elim r.entrances (·.since), r.insertions, w⟩
    else r.standing q
  entrances := if (r.standing s).isSome then r.entrances else r.entrances + 1
  insertions := r.insertions + 1

def leave (r : Roster S W) (s : S) : Roster S W :=
  { r with standing := fun q => if s == q then none else r.standing q }

variable [LawfulBEq S] {r : Roster S W} {s q : S} {w : W}

@[simp] theorem standing_enter_self : (r.enter s w).standing s =
    some ⟨(r.standing s).elim r.entrances (·.since), r.insertions, w⟩ :=
  if_pos (beq_self_eq_true s)

theorem standing_enter_of_ne (h : s ≠ q) : (r.enter s w).standing q = r.standing q :=
  if_neg (by simpa using h)

@[simp] theorem standing_leave_self : (r.leave s).standing s = none :=
  if_pos (beq_self_eq_true s)

theorem standing_leave_of_ne (h : s ≠ q) : (r.leave s).standing q = r.standing q :=
  if_neg (by simpa using h)

theorem isSome_standing_enter :
    ((r.enter s w).standing q).isSome = true ↔ q = s ∨ (r.standing q).isSome = true := by
  by_cases h : s = q
  · simp [← h]
  · simp [standing_enter_of_ne h, Ne.symm h]

theorem isSome_standing_leave :
    ((r.leave s).standing q).isSome = true ↔ q ≠ s ∧ (r.standing q).isSome = true := by
  by_cases h : s = q
  · simp [← h]
  · simp [standing_leave_of_ne h, Ne.symm h]

end Roster

inductive Call (S W : Type) where
  | insert (state : S) (distance : W)
  | pop

/-- A work list with states `φ`. -/
structure Worklist (S W φ : Type) where
  empty : φ
  insert : φ → S → W → φ
  pop : φ → Option S × φ
  isEmpty : φ → Bool
  /-- The states that are still to be given back, each as often as that is to happen. -/
  held : φ → List S

namespace Worklist

variable (F : Worklist S W φ) {G : Worklist S W ψ} (before : Precedence S W)

/-- What `F` answers is right for `r`: it holds the pending states, each once, and gives back the
first of them, if there is one. -/
structure Answers (f : φ) (r : Roster S W) : Prop where
  nodup : (F.held f).Nodup
  mem_held : ∀ s, s ∈ F.held f ↔ (r.standing s).isSome = true
  isEmpty : F.isEmpty f = true ↔ r.Idle
  pop_none : (F.pop f).1 = none ↔ r.Idle
  pop_some : ∀ p, (F.pop f).1 = some p → r.First before p

variable {F before}

theorem Answers.mirror {f : φ} {g : ψ} {r : Roster S W} (h : G.Answers before g r)
    (hheld : F.held f = G.held g) (hempty : F.isEmpty f = G.isEmpty g)
    (hpop : (F.pop f).1 = (G.pop g).1) : F.Answers before f r where
  nodup := hheld ▸ h.nodup
  mem_held := hheld ▸ h.mem_held
  isEmpty := hempty ▸ h.isEmpty
  pop_none := hpop ▸ h.pop_none
  pop_some := hpop ▸ h.pop_some

theorem Answers.pop_eq [Std.OrientedCmp before] {f : φ} {g : ψ} {r : Roster S W}
    (hf : F.Answers before f r) (hg : G.Answers before g r) : (F.pop f).1 = (G.pop g).1 := by
  cases hp : (F.pop f).1 with
  | none => exact (hg.pop_none.2 (hf.pop_none.1 hp)).symm
  | some p =>
    cases hq : (G.pop g).1 with
    | none => rw [hf.pop_none.2 (hg.pop_none.1 hq)] at hp; cases hp
    | some q => exact congrArg some ((hf.pop_some p hp).unique (hg.pop_some q hq))

variable (F before) [BEq S]

def step : φ × Roster S W → Call S W → φ × Roster S W
  | (f, r), .insert s w => (F.insert f s w, r.enter s w)
  | (f, r), .pop => ((F.pop f).2, (F.pop f).1.elim r r.leave)

/-- The work list after a sequence of calls, and the roster of what has been inserted and popped. -/
def run (calls : List (Call S W)) : φ × Roster S W := calls.foldl F.step (F.empty, .empty)

/-- After any sequence of calls the answers are right. -/
def Serves : Prop := ∀ calls, F.Answers before (F.run calls).1 (F.run calls).2

variable {F before}

/-- What every call keeps holds after any sequence of them. -/
theorem serves_of_keeps {Keeps : φ → Roster S W → Prop} (hempty : Keeps F.empty .empty)
    (hinsert : ∀ f r s w, Keeps f r → Keeps (F.insert f s w) (r.enter s w))
    (hpop : ∀ f r, Keeps f r → Keeps (F.pop f).2 ((F.pop f).1.elim r r.leave))
    (hanswers : ∀ f r, Keeps f r → F.Answers before f r) : F.Serves before := by
  intro calls
  refine hanswers _ _ ?_
  have hrun (x : φ × Roster S W) (hx : Keeps x.1 x.2) :
      Keeps (calls.foldl F.step x).1 (calls.foldl F.step x).2 := by
    induction calls generalizing x with
    | nil => exact hx
    | cons call calls ih =>
      refine ih _ ?_
      cases call with
      | insert s w => exact hinsert x.1 x.2 s w hx
      | pop => exact hpop x.1 x.2 hx
  exact hrun _ hempty

/-- Work lists that answer rightly for one precedence give back the same states. -/
theorem Serves.roster_eq [Std.OrientedCmp before] (hF : F.Serves before) (hG : G.Serves before)
    (calls : List (Call S W)) : (F.run calls).2 = (G.run calls).2 := by
  induction calls using List.reverseRecOn with
  | nil => rfl
  | append_singleton calls call ih =>
    have hlast {χ : Type} (H : Worklist S W χ) :
        H.run (calls ++ [call]) = H.step (H.run calls) call := by
      simp only [run, List.foldl_append, List.foldl_cons, List.foldl_nil]
    have hpop := (hF calls).pop_eq (ih ▸ hG calls)
    rw [hlast, hlast]
    cases call with
    | insert s w => exact congrArg (·.enter s w) ih
    | pop => exact congrArg₂ (fun popped r => popped.elim r (Roster.leave r)) hpop ih

end Worklist

end WeightedAutomata
