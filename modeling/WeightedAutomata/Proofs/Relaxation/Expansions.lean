import WeightedAutomata.Automaton.Total
import WeightedAutomata.Proofs.Relaxation.Schedules
import WeightedAutomata.Proofs.SingleInitial

/-!
The states that a search expands. What is asked of an automaton is kept in a log, which survives
when the search runs out of steps, so it tells what any search has asked so far.
-/
namespace WeightedAutomata

variable {α β : Type} {L S T U W : Type}

/-- Computations that keep a log, also when they run out of steps. -/
abbrev Logged (U : Type) := OptionT (StateM (List U))

instance : StepLimited (Logged U) := ⟨OptionT.fail⟩

namespace Logged

def note (entries : List U) : Logged U Unit := modify (· ++ entries)

/-- The log in the end. -/
def log (x : Logged U α) : List U := (x.run.run []).2

/-- The computation comes to `a`, nothing if it runs out of steps, and logs `entries`. -/
def Says (x : Logged U α) (a : Option α) (entries : List U) : Prop :=
  ∀ before, x.run.run before = (a, before ++ entries)

variable {x : Logged U α} {a : α} {entries : List U}

theorem Says.log_eq {a : Option α} (h : x.Says a entries) : x.log = entries :=
  (congrArg Prod.snd (h [])).trans (List.nil_append entries)

theorem says_pure (a : α) : (pure a : Logged U α).Says (some a) [] := fun before =>
  Prod.ext rfl (List.append_nil before).symm

theorem says_note (entries : List U) : (note entries).Says (some ()) entries := fun _ => rfl

theorem says_outOfSteps : (StepLimited.outOfSteps : Logged U α).Says none [] := fun before =>
  Prod.ext rfl (List.append_nil before).symm

theorem Says.bind (h : x.Says (some a) entries) {f : α → Logged U β} {b : Option β}
    {entries' : List U} (hf : (f a).Says b entries') :
    (x >>= f).Says b (entries ++ entries') := by
  intro before
  rw [OptionT.run_bind, Option.elimM, StateT.run_bind, h before, ← List.append_assoc]
  exact hf (before ++ entries)

/-- What follows without a word, if anything follows. -/
theorem Says.silently {a : Option α} (h : x.Says a entries) {f : α → Logged U β} {g : α → Option β}
    (hf : ∀ a, (f a).Says (g a) []) : (x >>= f).Says (a >>= g) entries := by
  intro before
  rw [OptionT.run_bind, Option.elimM, StateT.run_bind, h before]
  cases a with
  | none => rfl
  | some a => exact (hf a (before ++ entries)).trans (by rw [List.append_nil]; rfl)

theorem Says.map {a : Option α} (h : x.Says a entries) (f : α → β) :
    (do return f (← x)).Says (do return f (← a)) entries :=
  h.silently fun _ => says_pure _

/-- What says nothing does not show. -/
theorem Says.bind_silent (h : x.Says (some a) []) {f : α → Logged U β} {b : Option β}
    (hf : (f a).Says b entries) : (x >>= f).Says b entries :=
  h.bind hf

theorem says_foldlM {f : β → α → Logged U β} {g : β → α → β} {l : List α}
    (h : ∀ a ∈ l, ∀ b, (f b a).Says (some (g b a)) []) (b : β) :
    (l.foldlM f b).Says (some (l.foldl g b)) [] := by
  induction l generalizing b with
  | nil => exact says_pure b
  | cons a l ih =>
    rw [List.foldlM_cons]
    exact (h a List.mem_cons_self b).bind_silent
      (ih (fun c hc => h c (List.mem_cons_of_mem a hc)) _)

theorem says_mapM {f : α → Logged U β} {g : α → β} {entries : α → List U} {l : List α}
    (h : ∀ a ∈ l, (f a).Says (some (g a)) (entries a)) :
    (l.mapM f).Says (some (l.map g)) (l.flatMap entries) := by
  induction l with
  | nil => exact says_pure []
  | cons a l ih =>
    rw [List.mapM_cons]
    exact (h a List.mem_cons_self).bind
      ((ih fun b hb => h b (List.mem_cons_of_mem a hb)).map (g a :: ·))

end Logged

open Logged Relaxation

namespace Automaton

/-- The automaton with a log of the states whose outgoing transitions are asked for. -/
def recorded (A : Automaton Id L S T W) : Automaton (Logged S) L S T W :=
  { (A.lift : Automaton (Logged S) L S T W) with
    outgoing := fun s => do
      note [s]
      return A.leaving s }

/-- `B` answers like `Q`, and logs `entries s` when it is asked for what leaves `s`. -/
structure Notes (B : Automaton (Logged U) L S T W) (Q : Automaton Id L S T W)
    (entries : S → List U) : Prop where
  initialStates : B.initialStates.Says (some Q.starts) []
  outgoing : ∀ s, (B.outgoing s).Says (some (Q.leaving s)) (entries s)
  initialWeight : ∀ s, (B.initialWeight s).Says (some (Q.entry s)) []
  weight : ∀ t, (B.weight t).Says (some (Q.cost t)) []
  source : B.source = Q.source
  target : B.target = Q.target
  order : B.order = Q.order

theorem recorded_notes (A : Automaton Id L S T W) : A.recorded.Notes A fun s => [s] where
  initialStates := says_pure _
  outgoing s := (says_note [s]).bind (says_pure _)
  initialWeight _ := says_pure _
  weight _ := says_pure _
  source := rfl
  target := rfl
  order := rfl

section Views

variable [Zero W] [One W] [Add W] [Mul W] {B : Automaton (Logged U) L S T W}
variable {Q : Automaton Id L S T W} {entries : S → List U}

theorem Notes.singleInitial (h : B.Notes Q entries) :
    B.singleInitial.Notes Q.singleInitial fun s => s.elim (Q.starts.flatMap entries) entries where
  initialStates := says_pure _
  outgoing s := by
    cases s with
    | none =>
      rw [leaving_singleInitial_none]
      refine h.initialStates.bind_silent ?_
      have hmap := says_mapM (l := Q.starts) fun s _ => h.outgoing s
      exact hmap.map fun out => out.flatten.map Rooted.fused
    | some s => exact (h.outgoing s).map fun out => out.map Rooted.plain
  initialWeight s := says_pure _
  weight t := by
    cases t with
    | fused t =>
      refine (h.initialWeight (B.source t)).bind_silent ?_
      rw [h.source]
      exact (h.weight t).bind_silent (says_pure _)
    | plain t => exact h.weight t
  source := by
    funext t
    cases t <;> simp [Automaton.singleInitial, h.source]
  target := by
    funext t
    simp [Automaton.singleInitial, h.target]
  order := by simp [Automaton.singleInitial, h.order]

end Views

variable [BEq S] [Hashable S]

section Distances

variable [Zero W] [Add W] [Mul W] [BEq W]

/-- The states that a relaxation expands within a budget of steps, one after another. -/
def expansions (Q : Automaton Id L S T W) (converged : Convergence W) :
    ℕ → Relaxation S W → List S
  | 0, _ => []
  | budget + 1, r =>
    match r.frontier.pop? with
    | none => []
    | some (p, f) =>
      (if r.residual p == 0 then [] else [p]) ++
        Q.expansions converged budget (Q.relaxed converged r p f)

variable {B : Automaton (Logged U) L S T W} {Q : Automaton Id L S T W} {entries : S → List U}
variable (h : B.Notes Q entries)
include h

theorem Notes.relaxNext (converged : Convergence W) {r : Relaxation S W} {p : S}
    {f : Frontier S W} (hpop : r.frontier.pop? = some (p, f)) :
    (B.relaxNext converged r).Says (some (some (Q.relaxed converged r p f)))
      (if r.residual p == 0 then [] else entries p) := by
  unfold Automaton.relaxNext relaxed
  rw [hpop]
  change Says (if (r.residual p == 0) = true then pure (some (r.take p f)) else do
    return some (← (← B.outgoing p).foldlM (B.relax converged (r.residual p)) (r.take p f))) _ _
  split
  · exact says_pure _
  · have hfold := says_foldlM (l := Q.leaving p) (f := B.relax converged (r.residual p))
      (fun t _ r => (h.weight t).bind_silent (says_pure _)) (r.take p f)
    rw [h.target] at hfold
    rw [← List.append_nil (entries p)]
    exact (h.outgoing p).bind (hfold.bind_silent (says_pure _))

theorem Notes.untilDone (converged : Convergence W) (budget : ℕ) (r : Relaxation S W) :
    (untilDone (B.relaxNext converged) budget r).Says
      (untilDone ((Q.lift : Automaton Option L S T W).relaxNext converged) budget r)
      ((Q.expansions converged budget r).flatMap entries) := by
  induction budget generalizing r with
  | zero => exact says_outOfSteps
  | succ budget ih =>
    rw [expansions]
    cases hpop : r.frontier.pop? with
    | none =>
      have hnext : (B.relaxNext converged r).Says (some none) [] := by
        unfold Automaton.relaxNext
        rw [hpop]
        exact says_pure none
      have hlift : (Q.lift : Automaton Option L S T W).relaxNext converged r = pure none := by
        rw [relaxNext_lift, advance, hpop]
        rfl
      rw [untilDone_of_none budget hlift]
      exact hnext.bind_silent (says_pure r)
    | some next =>
      obtain ⟨p, f⟩ := next
      have hlift : (Q.lift : Automaton Option L S T W).relaxNext converged r =
          pure (some (Q.relaxed converged r p f)) := by
        rw [relaxNext_lift, advance_of_pop? hpop]
        rfl
      have hentries : (if r.residual p == 0 then [] else [p]).flatMap entries =
          if r.residual p == 0 then [] else entries p := by
        split <;> simp
      rw [untilDone_of_some budget hlift, List.flatMap_append, hentries]
      exact (h.relaxNext converged hpop).bind (ih _)

theorem Notes.distances (budget : ℕ) (solver : Solver W) (source : S) :
    (B.distances budget solver source).Says
      ((Q.lift : Automaton Option L S T W).distances budget solver source)
      ((if Q.entry source == 0 then [] else Q.expansions solver.converged budget
        (.start (solver.queue.discipline Q.order) source (Q.entry source))).flatMap entries) := by
  have hlift : (Q.lift : Automaton Option L S T W).distances budget solver source =
      if Q.entry source == 0 then pure ∅ else do
        return (← WeightedAutomata.untilDone
          ((Q.lift : Automaton Option L S T W).relaxNext solver.converged) budget
          (.start (solver.queue.discipline Q.order) source (Q.entry source))).distances := rfl
  rw [hlift]
  refine (h.initialWeight source).bind_silent ?_
  rw [h.order]
  split
  · exact says_pure _
  · exact (h.untilDone solver.converged budget _).map Relaxation.distances

end Distances

section Expanded

variable [Zero W] [One W] [Add W] [Mul W] [BEq W] (A : Automaton Id L S T W) (budget : ℕ)
variable (solver : Solver W)

/-- The states whose outgoing transitions a search from `source` asks for, one after another. -/
def expanded (source : S) : List S := (A.recorded.distances budget solver source).log

omit [One W] in
theorem expanded_eq (source : S) : A.expanded budget solver source =
    if A.entry source == 0 then [] else A.expansions solver.converged budget
      (.start (solver.queue.discipline A.order) source (A.entry source)) :=
  (A.recorded_notes.distances budget solver source).log_eq.trans (List.flatMap_singleton' _)

/-- A search from all initial states asks for what the single-initial view has to expand. -/
theorem log_distancesFromInitial : (A.recorded.distancesFromInitial budget solver).log =
    (A.singleInitial.expanded budget solver none).flatMap fun s => s.elim A.starts ([·]) := by
  have hadd (d : Distances S W) := says_foldlM (l := A.starts)
    (f := fun d s => do return d.insert s (d.getD s 0 + (← A.recorded.initialWeight s)))
    (fun s _ d => (A.recorded_notes.initialWeight s).bind_silent (says_pure _)) d
  have h := (A.recorded_notes.singleInitial.distances budget solver none).silently fun d =>
    A.recorded_notes.initialStates.bind_silent (hadd (ownDistances d))
  rw [expanded_eq]
  refine Says.log_eq (x := A.recorded.distancesFromInitial budget solver) h |>.trans ?_
  rw [List.flatMap_singleton']

end Expanded

end Automaton

end WeightedAutomata
