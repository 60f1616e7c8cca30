import Mathlib.Algebra.BigOperators.Group.List.Basic
import Mathlib.Algebra.GroupWithZero.Nat
import WeightedAutomata.Explicit.Graph

/-!
Constructions step by step: when a step is taken, and what a graph stores after the steps that have
been.
-/
namespace WeightedAutomata

variable {L W : Type}

def Role.get (role : Role) (t : Terminal W) : W :=
  match role with
  | .initial => t.initial
  | .final => t.final

/-- A state with one of its weights replaced. -/
def Role.set (role : Role) (w : W) (t : Terminal W) : Terminal W :=
  match role with
  | .initial => { t with initial := w }
  | .final => { t with final := w }

theorem Role.get_set (role role' : Role) (w : W) (t : Terminal W) :
    role.get (role'.set w t) = if role = role' then w else role.get t := by
  cases role <;> cases role' <;> simp [Role.get, Role.set]

namespace Graph

namespace Step

/-- The states that must be there, in the order in which they are looked up. -/
def mentions : Step L W → List ℕ
  | .addState | .addStates _ => []
  | .setInitial s _ | .setFinal s _ => [s]
  | .addTransition e => [e.target, e.source]

def added : Step L W → ℕ
  | .addState => 1
  | .addStates count => count
  | _ => 0

def weight? (role : Role) (s : ℕ) : Step L W → Option W
  | .setInitial q w => if role = .initial ∧ q = s then some w else none
  | .setFinal q w => if role = .final ∧ q = s then some w else none
  | _ => none

def edge? : Step L W → Option (Edge L W)
  | .addTransition e => some e
  | _ => none

def setWeight (role : Role) (s : ℕ) (w : W) : Step L W :=
  match role with
  | .initial => .setInitial s w
  | .final => .setFinal s w

@[simp] theorem mentions_setWeight (role : Role) (s : ℕ) (w : W) :
    (setWeight role s w : Step L W).mentions = [s] := by cases role <;> rfl

@[simp] theorem added_setWeight (role : Role) (s : ℕ) (w : W) :
    (setWeight role s w : Step L W).added = 0 := by cases role <;> rfl

@[simp] theorem weight?_setWeight (role role' : Role) (s q : ℕ) (w : W) :
    (setWeight role' q w : Step L W).weight? role s =
      if role = role' ∧ q = s then some w else none := by cases role' <;> rfl

@[simp] theorem edge?_setWeight (role : Role) (s : ℕ) (w : W) :
    (setWeight role s w : Step L W).edge? = none := by cases role <;> rfl

/-- The cases of a step, those in which a weight is set taken together. -/
@[elab_as_elim]
theorem rec_setWeight {motive : Step L W → Prop} (addState : motive .addState)
    (addStates : ∀ count, motive (.addStates count))
    (setWeight : ∀ role s w, motive (.setWeight role s w))
    (addTransition : ∀ e, motive (.addTransition e)) (step : Step L W) : motive step := by
  cases step with
  | addState => exact addState
  | addStates count => exact addStates count
  | setInitial s w => exact setWeight .initial s w
  | setFinal s w => exact setWeight .final s w
  | addTransition e => exact addTransition e

/-- The last of the weights that steps give to a state, or zero. -/
def lastWeight [Zero W] (role : Role) (steps : List (Step L W)) (s : ℕ) : W :=
  (steps.filterMap (weight? role s)).getLastD 0

theorem lastWeight_concat [Zero W] (role : Role) (steps : List (Step L W)) (step : Step L W)
    (s : ℕ) : lastWeight role (steps ++ [step]) s =
      (step.weight? role s).getD (lastWeight role steps s) := by
  unfold lastWeight
  rw [List.filterMap_append]
  cases h : step.weight? role s with
  | none => rw [List.filterMap_cons_none h, List.filterMap_nil, List.append_nil, Option.getD_none]
  | some w =>
    rw [List.filterMap_cons_some h, List.filterMap_nil, List.getLastD_concat, Option.getD_some]

end Step

theorem addTransition_eq_ok (g : Graph L W) (e : Edge L W)
    (h : e.source < g.states.size ∧ e.target < g.states.size) :
    g.addTransition e = .ok (g.edges.size, g.pushEdge e h) := by
  unfold addTransition
  rw [dif_pos h.2, dif_pos h.1]

section Apply

variable [Zero W]

theorem apply_setWeight (g : Graph L W) (role : Role) (s : ℕ) (w : W) :
    g.apply (.setWeight role s w) =
      if s < g.states.size then .ok ([], g.modifyState s (role.set w))
      else .error (.unknownState s g.states.size) := by
  cases role <;>
  · change Except.map _ (g.known s >>= _) = _
    unfold known
    split <;> rfl

theorem apply_addTransition (g : Graph L W) (e : Edge L W) : g.apply (.addTransition e) =
    if target : e.target < g.states.size then
      if source : e.source < g.states.size then .ok ([g.edges.size], g.pushEdge e ⟨source, target⟩)
      else .error (.unknownState e.source g.states.size)
    else .error (.unknownState e.target g.states.size) := by
  change Except.map _ (g.addTransition e) = _
  unfold addTransition
  split
  · split <;> rfl
  · rfl

/-- A step fails at the first state that it mentions and that is not there. -/
theorem apply_eq (g : Graph L W) (step : Step L W) :
    match step.mentions.find? (g.states.size ≤ ·) with
    | some s => g.apply step = .error (.unknownState s g.states.size)
    | none => ∃ ids g', g.apply step = .ok (ids, g') := by
  cases step using Step.rec_setWeight with
  | addState => exact ⟨_, _, rfl⟩
  | addStates count => exact ⟨_, _, rfl⟩
  | setWeight role s w =>
    rw [apply_setWeight, Step.mentions_setWeight, List.find?_singleton]
    by_cases hs : s < g.states.size
    · rw [if_pos hs]
      simp [Nat.not_le.2 hs]
    · rw [if_neg hs]
      simp [Nat.not_lt.1 hs]
  | addTransition e =>
    rw [apply_addTransition, Step.mentions, List.find?_cons, List.find?_singleton]
    by_cases htarget : e.target < g.states.size
    · by_cases hsource : e.source < g.states.size
      · rw [dif_pos htarget, dif_pos hsource]
        simp [Nat.not_le.2 htarget, Nat.not_le.2 hsource]
      · rw [dif_pos htarget, dif_neg hsource]
        simp [Nat.not_le.2 htarget, Nat.not_lt.1 hsource]
    · rw [dif_neg htarget]
      simp [Nat.not_lt.1 htarget]

/-- What a graph stores after the steps `done`. -/
structure Stores (done : List (Step L W)) (g : Graph L W) : Prop where
  size : g.states.size = (done.map Step.added).sum
  weight : ∀ role s, g.states[s]?.elim 0 (Role.get role) = Step.lastWeight role done s
  edges : g.edges.toList = done.filterMap Step.edge?

theorem stores_empty : Stores [] (empty : Graph L W) := ⟨rfl, fun _ _ => rfl, rfl⟩

variable {g g' : Graph L W} {done : List (Step L W)}

theorem Stores.addStates (h : g.Stores done) (count : ℕ) {step : Step L W}
    (hadded : step.added = count) (hweight : ∀ role s, step.weight? role s = none)
    (hedge : step.edge? = none) : (g.addStates count).2.Stores (done ++ [step]) := by
  refine ⟨?_, fun role s => ?_, ?_⟩
  · change (g.states ++ Array.replicate count (Terminal.mk 0 0)).size = _
    rw [Array.size_append, Array.size_replicate, h.size, List.map_append, List.sum_append]
    simp [hadded]
  · have hzero : Role.get role (⟨0, 0⟩ : Terminal W) = 0 := by cases role <;> rfl
    rw [Step.lastWeight_concat, hweight, Option.getD_none, ← h.weight]
    change (g.states ++ Array.replicate count (Terminal.mk 0 0))[s]?.elim (0 : W) _ = _
    rw [Array.getElem?_append, Array.getElem?_replicate]
    split
    · rfl
    · next hs =>
      rw [Array.getElem?_eq_none (Nat.not_lt.1 hs)]
      split
      · exact hzero
      · rfl
  · rw [List.filterMap_append, List.filterMap_cons_none hedge, List.filterMap_nil, List.append_nil]
    exact h.edges

theorem Stores.setWeight (h : g.Stores done) (role : Role) {q : ℕ} (hq : q < g.states.size)
    (w : W) : (g.modifyState q (role.set w)).Stores (done ++ [.setWeight role q w]) := by
  refine ⟨?_, fun role' s => ?_, ?_⟩
  · change (g.states.modify q (role.set w)).size = _
    rw [Array.size_modify, h.size, List.map_append, List.sum_append]
    simp
  · rw [Step.lastWeight_concat, ← h.weight, Step.weight?_setWeight]
    change (g.states.modify q (role.set w))[s]?.elim (0 : W) _ = _
    rw [Array.getElem?_modify]
    by_cases hs : q = s
    · have hget := Array.getElem?_eq_getElem (hs ▸ hq)
      rw [if_pos hs, hget, Option.map_some, Option.elim_some, Option.elim_some, Role.get_set]
      split <;> simp_all
    · rw [if_neg hs, if_neg fun hand => hs hand.2, Option.getD_none]
  · rw [List.filterMap_append, List.filterMap_cons_none (Step.edge?_setWeight role q w),
      List.filterMap_nil, List.append_nil]
    exact h.edges

theorem Stores.pushEdge (h : g.Stores done) (e : Edge L W)
    (he : e.source < g.states.size ∧ e.target < g.states.size) :
    (g.pushEdge e he).Stores (done ++ [.addTransition e]) := by
  refine ⟨?_, fun role s => ?_, ?_⟩
  · rw [List.map_append, List.sum_append]
    exact h.size
  · rw [Step.lastWeight_concat]
    exact h.weight role s
  · rw [List.filterMap_append, ← h.edges]
    exact Array.toList_push

/-- A step that is taken stores what it says, and leaves the rest as it was. -/
theorem Stores.apply (h : g.Stores done) {step : Step L W} {ids : List ℕ}
    (hstep : g.apply step = .ok (ids, g')) : g'.Stores (done ++ [step]) := by
  cases step using Step.rec_setWeight with
  | addState =>
    obtain rfl : _ = g' := congrArg Prod.snd (Except.ok.inj hstep)
    exact h.addStates 1 rfl (fun _ _ => rfl) rfl
  | addStates count =>
    obtain rfl : _ = g' := congrArg Prod.snd (Except.ok.inj hstep)
    exact h.addStates count rfl (fun _ _ => rfl) rfl
  | setWeight role q w =>
    rw [apply_setWeight] at hstep
    split at hstep
    · next hq =>
      obtain rfl : _ = g' := congrArg Prod.snd (Except.ok.inj hstep)
      exact h.setWeight role hq w
    · cases hstep
  | addTransition e =>
    rw [apply_addTransition] at hstep
    split at hstep
    · next htarget =>
      split at hstep
      · next hsource =>
        obtain rfl : _ = g' := congrArg Prod.snd (Except.ok.inj hstep)
        exact h.pushEdge e ⟨hsource, htarget⟩
      · cases hstep
    · cases hstep

end Apply

end Graph

end WeightedAutomata
