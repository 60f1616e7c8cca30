import WeightedAutomata.Proofs.Description.Building
import WeightedAutomata.Proofs.Explicit.Steps

/-!
Which descriptions are built, and what the automata are that come out. An automaton that is
described and built again keeps all its weights, up to zeros and ones that are equal.
-/
namespace WeightedAutomata

section Decides

variable {ε α β : Type} {c c' : Prop} {Q : α → Prop} {Q' : β → Prop} {x : Except ε α}
  {f : α → Except ε β}

/-- A computation succeeds exactly under the condition `c`, and what it gives then satisfies `Q`. -/
def Decides (c : Prop) (Q : α → Prop) : Except ε α → Prop
  | .ok a => c ∧ Q a
  | .error _ => ¬c

theorem Decides.bind (hx : Decides c Q x) (hf : ∀ a, Q a → Decides c' Q' (f a)) :
    Decides (c ∧ c') Q' (x >>= f) := by
  cases x with
  | error e => exact fun h => hx h.1
  | ok a =>
    have ha := hf a hx.2
    change Decides _ _ (f a)
    revert ha
    cases f a with
    | error e => exact fun ha h => ha h.2
    | ok b => exact fun ha => ⟨⟨hx.1, ha.1⟩, ha.2⟩

theorem Decides.map (hx : Decides c Q x) {f : α → β} (hf : ∀ a, Q a → Q' (f a)) :
    Decides c Q' (x >>= fun a => pure (f a)) := by
  cases x with
  | error e => exact hx
  | ok a => exact ⟨hx.1, hf a hx.2⟩

end Decides

variable {W : Type}

namespace Description

/-- The weights that are listed for one role. -/
def listed (d : Description W) : Role → List (StateWeight W)
  | .initial => d.initial
  | .final => d.final

/-- All states are there, and none is listed twice for one role. -/
structure Accepted (d : Description W) : Prop where
  state_lt : ∀ role, ∀ x ∈ d.listed role, x.state < d.states
  nodup : ∀ role, ((d.listed role).map StateWeight.state).Nodup
  endpoints_lt : ∀ e ∈ d.transitions, e.source < d.states ∧ e.target < d.states

/-- The states, weights and transitions of an automaton are those that a description gives it. -/
structure Describes [Zero W] [One W] (d : Description W) (E : Explicit String W) : Prop where
  size : E.states.size = d.states
  listed : ∀ role, ∀ x ∈ d.listed role, E.states[x.state]?.map role.get = some (x.weight.getD 1)
  unlisted : ∀ role, ∀ s < d.states, (∀ x ∈ d.listed role, x.state ≠ s) →
    E.states[s]?.map role.get = some 0
  edges : E.edges.toList = d.transitions.map fun e => { e with weight := e.weight.getD 1 }

/-- States below `n` that have not been seen, each listed once. -/
def Fresh (n : ℕ) (seen : List ℕ) (l : List (StateWeight W)) : Prop :=
  (∀ x ∈ l, x.state < n ∧ x.state ∉ seen) ∧ (l.map StateWeight.state).Nodup

theorem fresh_cons {n : ℕ} {seen : List ℕ} {x : StateWeight W} {l : List (StateWeight W)} :
    Fresh n seen (x :: l) ↔ x.state ∉ seen ∧ x.state < n ∧ Fresh n (x.state :: seen) l := by
  unfold Fresh
  rw [List.forall_mem_cons, List.map_cons, List.nodup_cons]
  constructor
  · rintro ⟨⟨⟨hlt, hseen⟩, hrest⟩, hfirst, hnodup⟩
    refine ⟨hseen, hlt, fun y hy => ⟨(hrest y hy).1, ?_⟩, hnodup⟩
    rw [List.mem_cons, not_or]
    exact ⟨fun heq => hfirst (List.mem_map.2 ⟨y, hy, heq⟩), (hrest y hy).2⟩
  · rintro ⟨hseen, hlt, hrest, hnodup⟩
    refine ⟨⟨⟨hlt, hseen⟩, fun y hy => ⟨(hrest y hy).1, fun hmem => ?_⟩⟩, fun hmem => ?_, hnodup⟩
    · exact (hrest y hy).2 (List.mem_cons_of_mem _ hmem)
    · obtain ⟨y, hy, heq⟩ := List.mem_map.1 hmem
      exact (hrest y hy).2 (heq ▸ List.mem_cons_self)

theorem accepted_iff {d : Description W} : d.Accepted ↔ Fresh d.states [] d.initial ∧
    Fresh d.states [] d.final ∧ ∀ e ∈ d.transitions, e.source < d.states ∧ e.target < d.states := by
  constructor
  · rintro ⟨hlt, hnodup, hends⟩
    exact ⟨⟨fun x hx => ⟨hlt .initial x hx, nofun⟩, hnodup .initial⟩,
      ⟨fun x hx => ⟨hlt .final x hx, nofun⟩, hnodup .final⟩, hends⟩
  · rintro ⟨⟨hinitial, hinitial'⟩, ⟨hfinal, hfinal'⟩, hends⟩
    refine ⟨fun role x hx => ?_, fun role => ?_, hends⟩
    · cases role with
      | initial => exact (hinitial x hx).1
      | final => exact (hfinal x hx).1
    · cases role with
      | initial => exact hinitial'
      | final => exact hfinal'

section Build

variable [One W]

def weightStep (role : Role) (x : StateWeight W) : Graph.Step String W :=
  .setWeight role x.state (x.weight.getD 1)

def edgeStep (e : Edge String (Option W)) : Graph.Step String W :=
  .addTransition { e with weight := e.weight.getD 1 }

def weightOf? (s : ℕ) (x : StateWeight W) : Option W :=
  if x.state = s then some (x.weight.getD 1) else none

theorem weight?_weightStep (role role' : Role) (s : ℕ) (x : StateWeight W) :
    (weightStep role' x).weight? role s = if role = role' then weightOf? s x else none := by
  rw [weightStep, Graph.Step.weight?_setWeight, weightOf?]
  split <;> simp_all

/-- The steps in which a description is built. -/
def steps (d : Description W) : List (Graph.Step String W) :=
  [.addStates d.states] ++ d.initial.map (weightStep .initial) ++ d.final.map (weightStep .final) ++
    d.transitions.map edgeStep

variable [Zero W] {g : Graph String W} {done : List (Graph.Step String W)}

theorem setWeight_spec (h : g.Stores done) (role : Role) (x : StateWeight W) :
    Decides (x.state < g.states.size)
      (fun g' => g'.states.size = g.states.size ∧ g'.Stores (done ++ [weightStep role x]))
      (setWeight role g x.state (x.weight.getD 1)) := by
  have hset : setWeight role g x.state (x.weight.getD 1) =
      (g.apply (weightStep role x)).map Prod.snd := by
    cases role with
    | initial =>
      change g.setInitial _ _ = Except.map _ (Except.map _ (g.setInitial _ _))
      cases g.setInitial x.state (x.weight.getD 1) <;> rfl
    | final =>
      change g.setFinal _ _ = Except.map _ (Except.map _ (g.setFinal _ _))
      cases g.setFinal x.state (x.weight.getD 1) <;> rfl
  rw [hset, weightStep, Graph.apply_setWeight]
  by_cases hs : x.state < g.states.size
  · rw [if_pos hs]
    exact ⟨hs, Array.size_modify, h.setWeight role hs _⟩
  · rw [if_neg hs]
    exact hs

/-- A list of weights is set if it names states that are there, each once. -/
theorem setWeights_spec (h : g.Stores done) (role : Role) (l : List (StateWeight W))
    (seen : List ℕ) : Decides (Fresh g.states.size seen l)
      (fun g' => g'.states.size = g.states.size ∧ g'.Stores (done ++ l.map (weightStep role)))
      (setWeights role seen g l) := by
  induction l generalizing g done seen with
  | nil => exact ⟨⟨nofun, .nil⟩, rfl, (List.append_nil _).symm ▸ h⟩
  | cons x l ih =>
    rw [setWeights]
    by_cases hseen : x.state ∈ seen
    · rw [List.contains_iff_mem.2 hseen]
      exact fun hfresh => (fresh_cons.1 hfresh).1 hseen
    · have hnot : seen.contains x.state = false := by
        rwa [← Bool.not_eq_true, List.contains_iff_mem]
      rw [hnot, fresh_cons, and_iff_right hseen]
      refine (setWeight_spec h role x).bind fun g₁ hg₁ => ?_
      obtain ⟨hsize, hstores⟩ := hg₁
      have hrest := ih hstores (x.state :: seen)
      rwa [hsize, List.append_assoc] at hrest

theorem addTransition_spec (h : g.Stores done) (e : Edge String (Option W)) :
    Decides (e.source < g.states.size ∧ e.target < g.states.size)
      (fun g' => g'.states.size = g.states.size ∧ g'.Stores (done ++ [edgeStep e]))
      (addTransition g e) := by
  by_cases hends : e.source < g.states.size ∧ e.target < g.states.size
  · rw [addTransition_eq_ok g e hends]
    exact ⟨hends, rfl, h.pushEdge _ hends⟩
  · unfold addTransition
    by_cases hsource : e.source < g.states.size
    · have htarget : ¬e.target < g.states.size := fun htarget => hends ⟨hsource, htarget⟩
      have hknown : g.known e.source = .ok () := if_pos hsource
      have hadd : g.addTransition { e with weight := e.weight.getD 1 } =
        .error (.unknownState e.target g.states.size) := dif_neg htarget
      rw [hknown, hadd]
      exact hends
    · have hknown : g.known e.source = .error (.unknownState e.source g.states.size) :=
        if_neg hsource
      rw [hknown]
      exact hends

/-- Transitions are added if their endpoints are there. -/
theorem foldlM_addTransition_spec (h : g.Stores done) (es : List (Edge String (Option W))) :
    Decides (∀ e ∈ es, e.source < g.states.size ∧ e.target < g.states.size)
      (fun g' => g'.Stores (done ++ es.map edgeStep)) (es.foldlM addTransition g) := by
  induction es generalizing g done with
  | nil => exact ⟨nofun, (List.append_nil _).symm ▸ h⟩
  | cons e es ih =>
    rw [List.foldlM_cons, List.forall_mem_cons]
    refine (addTransition_spec h e).bind fun g₁ hg₁ => ?_
    obtain ⟨hsize, hstores⟩ := hg₁
    have hrest := ih hstores
    rwa [hsize, List.append_assoc] at hrest

/-- A description is built if it is accepted, in its steps. -/
theorem build_spec (d : Description W) :
    Decides d.Accepted (fun E => E.Stores d.steps) d.build := by
  have hstart : ((Graph.empty : Graph String W).addStates d.states).2.Stores
      [.addStates d.states] := Graph.stores_empty.apply rfl
  have hsize : ((Graph.empty : Graph String W).addStates d.states).2.states.size = d.states :=
    hstart.size
  have hinitial := setWeights_spec hstart .initial d.initial []
  rw [hsize] at hinitial
  rw [accepted_iff]
  refine hinitial.bind fun g₁ hg₁ => ?_
  obtain ⟨hsize₁, hstores₁⟩ := hg₁
  have hfinal := setWeights_spec hstores₁ .final d.final []
  rw [hsize₁] at hfinal
  refine hfinal.bind fun g₂ hg₂ => ?_
  obtain ⟨hsize₂, hstores₂⟩ := hg₂
  have hedges := foldlM_addTransition_spec hstores₂ d.transitions
  rw [hsize₂] at hedges
  exact hedges.map fun g hstores => hstores

/-- The steps give a state the weights that are listed for it. -/
theorem lastWeight_steps (d : Description W) (role : Role) (s : ℕ) :
    Graph.Step.lastWeight role d.steps s =
      ((d.listed role).filterMap (weightOf? s)).getLastD 0 := by
  have hset (role' : Role) (l : List (StateWeight W)) :
      (l.map (weightStep role')).filterMap (Graph.Step.weight? role s) =
        if role = role' then l.filterMap (weightOf? s) else [] := by
    rw [List.filterMap_map]
    split
    · next h => exact List.filterMap_congr fun x _ => (weight?_weightStep ..).trans (if_pos h)
    · next h =>
      exact List.filterMap_eq_nil_iff.2 fun x _ => (weight?_weightStep ..).trans (if_neg h)
  have hedges : (d.transitions.map edgeStep).filterMap (Graph.Step.weight? role s) = [] := by
    rw [List.filterMap_map, List.filterMap_eq_nil_iff]
    exact fun _ _ => rfl
  unfold Graph.Step.lastWeight steps
  rw [List.filterMap_append, List.filterMap_append, List.filterMap_append, hset, hset, hedges]
  cases role <;> simp [listed, Graph.Step.weight?]

theorem Accepted.lastWeight {d : Description W} (h : d.Accepted) {role : Role} {x : StateWeight W}
    (hx : x ∈ d.listed role) :
    Graph.Step.lastWeight role d.steps x.state = x.weight.getD 1 := by
  rw [lastWeight_steps]
  rcases List.eq_nil_or_concat' ((d.listed role).filterMap (weightOf? x.state)) with
    hnil | ⟨before, w, hlast⟩
  · have hnone := List.filterMap_eq_nil_iff.1 hnil x hx
    rw [weightOf?, if_pos rfl] at hnone
    cases hnone
  · have hmem : w ∈ before ++ [w] := List.mem_append_right _ List.mem_cons_self
    rw [← hlast, List.mem_filterMap] at hmem
    obtain ⟨y, hy, heq⟩ := hmem
    unfold weightOf? at heq
    split at heq
    · next hstate =>
      obtain rfl := List.inj_on_of_nodup_map (h.nodup role) hy hx hstate
      rw [hlast, List.getLastD_concat]
      exact (Option.some.inj heq).symm
    · cases heq

theorem Accepted.describes {d : Description W} (h : d.Accepted) {E : Explicit String W}
    (hE : E.Stores d.steps) : d.Describes E := by
  have hsize : E.states.size = d.states := by
    have hzero (role : Role) : Graph.Step.added ∘ weightStep role = fun _ : StateWeight W => 0 :=
      funext fun _ => Graph.Step.added_setWeight ..
    have hedges : Graph.Step.added ∘ edgeStep (W := W) = fun _ => 0 := rfl
    rw [hE.size]
    simp [steps, hzero, hedges, Graph.Step.added]
  have hget (role : Role) {s : ℕ} (hs : s < d.states) :
      E.states[s]?.map role.get = some (Graph.Step.lastWeight role d.steps s) := by
    have hsome := Array.getElem?_eq_getElem (hsize.symm ▸ hs)
    rw [← hE.weight, hsome]
    rfl
  refine ⟨hsize, fun role x hx => ?_, fun role s hs hother => ?_, ?_⟩
  · rw [hget role (h.state_lt role x hx), h.lastWeight hx]
  · have hnil : (d.listed role).filterMap (weightOf? s) = [] :=
      List.filterMap_eq_nil_iff.2 fun x hx => if_neg (hother x hx)
    rw [hget role hs, lastWeight_steps, hnil]
    rfl
  · have hnone (role : Role) (l : List (StateWeight W)) :
        (l.map (weightStep role)).filterMap Graph.Step.edge? = [] := by
      rw [List.filterMap_map, List.filterMap_eq_nil_iff]
      exact fun _ _ => Graph.Step.edge?_setWeight ..
    have hsome : (d.transitions.map edgeStep).filterMap Graph.Step.edge? =
        d.transitions.map fun e => { e with weight := e.weight.getD 1 } := by
      rw [List.filterMap_map, ← List.filterMap_eq_map]
      rfl
    rw [hE.edges, steps, List.filterMap_append, List.filterMap_append, List.filterMap_append, hnone,
      hnone, hsome]
    rfl

end Build

section Rebuilt

variable [One W] [BEq W]

/-- A weight comes back as it was, or as one that it is equal to. -/
def Kept (w w' : W) : Prop := w' = w ∨ w == w'

theorem kept_edgeWeight (w : W) : Kept w (edgeWeight id w) := by
  unfold edgeWeight weight?
  split
  · next hone => exact .inr hone
  · exact .inl rfl

variable [Zero W]

theorem kept_stateWeight (w : W) : Kept w (stateWeight id w) := by
  unfold stateWeight
  split
  · next hzero => exact .inr hzero
  · exact kept_edgeWeight w

/-- The automata have the same states and the same transitions in order, with their weights. -/
structure Keeps (E E' : Explicit String W) : Prop where
  states : ∀ s : ℕ, Option.Rel
    (fun t t' : Terminal W => ∀ role : Role, Kept (role.get t) (role.get t'))
    E.states[s]? E'.states[s]?
  edges : ∀ t : ℕ, Option.Rel (fun e e' : Edge String W => e'.source = e.source ∧
    e'.target = e.target ∧ e'.label = e.label ∧ Kept e.weight e'.weight)
    E.edges[t]? E'.edges[t]?

theorem keeps_mapWeights (E : Explicit String W) :
    Keeps E (E.toGraph.mapWeights (stateWeight id) (edgeWeight id)).explicit where
  states s := by
    change Option.Rel _ _ (E.states.map _)[s]?
    rw [Array.getElem?_map]
    cases E.states[s]? with
    | none => exact .none
    | some t =>
      refine .some fun role => ?_
      cases role with
      | initial => exact kept_stateWeight t.initial
      | final => exact kept_stateWeight t.final
  edges t := by
    change Option.Rel _ _ (E.edges.map _)[t]?
    rw [Array.getElem?_map]
    cases E.edges[t]? with
    | none => exact .none
    | some e => exact .some ⟨rfl, rfl, rfl, kept_edgeWeight e.weight⟩

/-- A description is built exactly if all states are there and none is listed twice for one role;
the automaton then is as described. An automaton that is described is built again, with its states
and transitions in order and their weights. -/
theorem build_exact : (∀ d : Description W, Decides d.Accepted d.Describes d.build) ∧
    ∀ E : Explicit String W, ∃ E', (describe E).build = .ok E' ∧
      E'.states.size = E.states.size ∧ E'.edges.size = E.edges.size ∧ Keeps E E' := by
  refine ⟨fun d => ?_, fun E => ⟨_, ?_, ?_, ?_, keeps_mapWeights E⟩⟩
  · have hbuild := build_spec d
    cases hresult : d.build with
    | ok E =>
      rw [hresult] at hbuild
      obtain ⟨haccepted, hstores⟩ := hbuild
      exact ⟨haccepted, haccepted.describes hstores⟩
    | error e =>
      rw [hresult] at hbuild
      exact hbuild
  · have hbuild := build_describe E id
    have hsame : (describe E).mapWeights id = describe E := by simp [mapWeights]
    rwa [hsame] at hbuild
  · exact Array.size_map
  · exact Array.size_map

end Rebuilt

end Description

end WeightedAutomata
