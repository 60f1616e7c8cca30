import Mathlib.Data.List.Nodup
import Mathlib.Data.Set.Finite.Basic
import WeightedAutomata.Automaton.Basic

/-!
Paths of automata whose queries have no effect. What such an automaton answers is read off as plain
lists and weights.
-/
namespace WeightedAutomata.Automaton

variable {m : Type → Type} {L S T W : Type}

/-- The state in which a sequence of transitions from `s` ends. -/
def endpoint (A : Automaton m L S T W) (s : S) (ts : List T) : S :=
  ts.foldl (fun _ t => A.target t) s

section Endpoint

variable (A : Automaton m L S T W) (s : S) (t : T) (ts us : List T)

@[simp] theorem endpoint_nil : A.endpoint s [] = s := rfl

@[simp] theorem endpoint_cons : A.endpoint s (t :: ts) = A.endpoint (A.target t) ts := rfl

@[simp] theorem endpoint_append :
    A.endpoint s (ts ++ us) = A.endpoint (A.endpoint s ts) us := by
  simp [endpoint]

@[simp] theorem labels_nil : A.labels [] = [] := rfl

@[simp] theorem labels_append : A.labels (ts ++ us) = A.labels ts ++ A.labels us := by
  simp [labels]

end Endpoint

section Answers

variable (A : Automaton Id L S T W)

def starts : List S := A.initialStates.run
def leaving (s : S) : List T := (A.outgoing s).run
def entry (s : S) : W := (A.initialWeight s).run
def exit (s : S) : W := (A.finalWeight s).run
def cost (t : T) : W := (A.weight t).run

end Answers

/-- What every automaton promises of its answers. -/
structure Lawful [Zero W] (A : Automaton Id L S T W) : Prop where
  starts_nodup : A.starts.Nodup
  mem_starts : ∀ s, s ∈ A.starts ↔ A.entry s ≠ 0
  source_eq : ∀ s, ∀ t ∈ A.leaving s, A.source t = s

/-- Each transition leaves the state that the ones before it have led to. -/
def IsPath (A : Automaton Id L S T W) : S → List T → Prop
  | _, [] => True
  | s, t :: ts => t ∈ A.leaving s ∧ A.IsPath (A.target t) ts

inductive Reachable (A : Automaton Id L S T W) : S → Prop where
  | start {s : S} : s ∈ A.starts → A.Reachable s
  | step {s : S} {t : T} : A.Reachable s → t ∈ A.leaving s → A.Reachable (A.target t)

/-- Transitions from states of `R` lead to states of `R`. -/
def Closed (A : Automaton Id L S T W) (R : S → Prop) : Prop :=
  ∀ s, R s → ∀ t ∈ A.leaving s, R (A.target t)

/-- No path without labels returns to the reachable state it started from. -/
def EpsilonAcyclic (A : Automaton Id L S T W) : Prop :=
  ∀ s, A.Reachable s → ∀ ts, ts ≠ [] → A.IsPath s ts → A.labels ts = [] → A.endpoint s ts ≠ s

/-- No path returns to the reachable state it started from. -/
def Acyclic (A : Automaton Id L S T W) : Prop :=
  ∀ s, A.Reachable s → ∀ ts, ts ≠ [] → A.IsPath s ts → A.endpoint s ts ≠ s

section IsPath

variable {A : Automaton Id L S T W}

@[simp] theorem isPath_nil (s : S) : A.IsPath s [] := trivial

@[simp] theorem isPath_cons {s : S} {t : T} {ts : List T} :
    A.IsPath s (t :: ts) ↔ t ∈ A.leaving s ∧ A.IsPath (A.target t) ts := Iff.rfl

instance decidableIsPath [DecidableEq T] (A : Automaton Id L S T W) :
    (s : S) → (ts : List T) → Decidable (A.IsPath s ts)
  | _, [] => .isTrue trivial
  | s, t :: ts =>
    have := decidableIsPath A (A.target t) ts
    inferInstanceAs (Decidable (t ∈ A.leaving s ∧ A.IsPath (A.target t) ts))

theorem isPath_append {s : S} {ts us : List T} :
    A.IsPath s (ts ++ us) ↔ A.IsPath s ts ∧ A.IsPath (A.endpoint s ts) us := by
  induction ts generalizing s with
  | nil => simp
  | cons t ts ih => simp [ih, and_assoc]

theorem Closed.endpoint {R : S → Prop} (h : A.Closed R) {s : S} (hs : R s) {ts : List T}
    (hts : A.IsPath s ts) : R (A.endpoint s ts) := by
  induction ts generalizing s with
  | nil => exact hs
  | cons t ts ih => exact ih (h s hs t hts.1) hts.2

theorem Reachable.exists_path {s : S} (h : A.Reachable s) :
    ∃ q ∈ A.starts, ∃ ts, A.IsPath q ts ∧ A.endpoint q ts = s := by
  induction h with
  | start hs => exact ⟨_, hs, [], trivial, rfl⟩
  | @step s t _ ht ih =>
    obtain ⟨q, hq, ts, hts, hend⟩ := ih
    refine ⟨q, hq, ts ++ [t], isPath_append.2 ⟨hts, ?_, trivial⟩, ?_⟩
    · rwa [hend]
    · rw [endpoint_append]
      rfl

theorem closed_reachable (A : Automaton Id L S T W) : A.Closed A.Reachable :=
  fun _ hs _ ht => hs.step ht

end IsPath

end WeightedAutomata.Automaton
