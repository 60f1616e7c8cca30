import WeightedAutomata.Proofs.Copy.Outcome
import WeightedAutomata.Proofs.Description.Texts

/-!
What is built from the description of an automaton after its weights have been replaced.
-/
namespace WeightedAutomata

variable {L W : Type}

namespace Graph

/-- The same graph with other weights, of the states and of the edges. -/
def mapWeights (state edge : W → W) (g : Graph L W) : Graph L W where
  states := g.states.map fun t => ⟨state t.initial, state t.final⟩
  edges := g.edges.map fun e => { e with weight := edge e.weight }
  endpoints := by
    intro e he
    obtain ⟨e', he', rfl⟩ := Array.mem_map.1 he
    rw [Array.size_map]
    exact g.endpoints e' he'

theorem eq_of_tables {g g' : Graph L W} (hstates : g.states = g'.states)
    (hedges : g.edges = g'.edges) : g = g' := by
  obtain ⟨states, edges, endpoints⟩ := g
  obtain ⟨states', edges', endpoints'⟩ := g'
  obtain rfl : states = states' := hstates
  obtain rfl : edges = edges' := hedges
  rfl

end Graph

namespace Description

theorem setWeight_eq_ok (role : Role) {states : Array (Terminal W)} {s : ℕ} (hs : s < states.size)
    (w : W) : setWeight role (.ofStates states : Graph String W) s w =
      .ok (.ofStates (states.modify s (role.set w))) := by
  have hknown : (Graph.ofStates states : Graph String W).known s = .ok () := if_pos hs
  cases role with
  | initial =>
    change ((Graph.ofStates states).known s >>= _) = _
    rw [hknown]
    rfl
  | final =>
    change ((Graph.ofStates states).known s >>= _) = _
    rw [hknown]
    rfl

theorem modify_middle {α : Type} (f : α → α) (before : List α) (a : α) (rest : List α) :
    (before ++ a :: rest).modify before.length f = before ++ f a :: rest := by
  induction before with
  | nil => rfl
  | cons b before ih => simpa using ih

/-- The weights that are not zero are set, state by state. -/
theorem setWeights_eq_ok [Zero W] [One W] [BEq W] (role : Role) (get : Terminal W → W)
    (f : W → Option W) (before : List (Terminal W)) {terminals states : List (Terminal W)}
    (hlength : terminals.length = states.length) (seen : List ℕ)
    (hseen : ∀ s ∈ seen, s < before.length) :
    setWeights role seen (.ofStates (before ++ states).toArray)
        ((terminals.zipIdx before.length).filterMap fun e =>
          if get e.1 == 0 then none else some ⟨e.2, f (get e.1)⟩) =
      .ok (.ofStates (before ++ List.zipWith (fun t s =>
        if get t == 0 then s else role.set ((f (get t)).getD 1) s) terminals states).toArray) := by
  induction terminals generalizing before states seen with
  | nil =>
    obtain rfl : states = [] := List.eq_nil_of_length_eq_zero hlength.symm
    rfl
  | cons t terminals ih =>
    obtain ⟨s, states, rfl⟩ := List.exists_cons_of_length_eq_add_one hlength.symm
    have hlength : terminals.length = states.length := Nat.succ.inj hlength
    rw [List.zipIdx_cons, List.filterMap_cons, List.zipWith_cons_cons]
    by_cases hzero : get t == 0
    · have hrest := ih (before ++ [s]) hlength seen fun q hq => by
        rw [List.length_append]
        exact Nat.lt_add_right _ (hseen q hq)
      rw [List.append_assoc, List.append_assoc, List.length_append] at hrest
      rw [if_pos hzero, if_pos hzero]
      exact hrest
    · have hfresh : seen.contains before.length = false := by
        rw [← Bool.not_eq_true, List.contains_iff_mem]
        exact fun hmem => Nat.lt_irrefl _ (hseen _ hmem)
      have hsize : before.length < (before ++ s :: states).toArray.size := by
        rw [List.size_toArray, List.length_append, List.length_cons]
        omega
      have hset := setWeight_eq_ok role hsize ((f (get t)).getD 1)
      rw [List.modify_toArray, modify_middle] at hset
      have hrest := ih (before ++ [role.set ((f (get t)).getD 1) s]) hlength
        (before.length :: seen) fun q hq => by
          rw [List.length_append, List.length_singleton]
          rcases List.mem_cons.1 hq with rfl | hq
          · exact Nat.lt_succ_self _
          · exact Nat.lt_succ_of_lt (hseen q hq)
      rw [List.append_assoc, List.append_assoc, List.length_append] at hrest
      rw [if_neg hzero, if_neg hzero]
      dsimp only
      rw [setWeights, hfresh]
      change (setWeight role _ _ _ >>= _) = _
      rw [hset]
      exact hrest

/-- A transition is added with one for a weight that is missing. -/
theorem addTransition_eq_ok [One W] (g : Graph String W) (e : Edge String (Option W))
    (h : e.source < g.states.size ∧ e.target < g.states.size) :
    addTransition g e = .ok (g.pushEdge { e with weight := e.weight.getD 1 } h) := by
  have hknown : g.known e.source = .ok () := if_pos h.1
  unfold addTransition
  rw [hknown, g.addTransition_eq_ok { e with weight := e.weight.getD 1 } h]
  rfl

theorem foldlM_addTransition [One W] (g : Graph String W) (es : List (Edge String (Option W)))
    (h : ∀ e ∈ es, e.source < g.states.size ∧ e.target < g.states.size) :
    es.foldlM addTransition g =
      g.addTransitions (es.map fun e => { e with weight := e.weight.getD 1 }) := by
  induction es generalizing g with
  | nil => rfl
  | cons e es ih =>
    have hends := h e List.mem_cons_self
    rw [List.foldlM_cons, addTransition_eq_ok g e hends, List.map_cons, Graph.addTransitions,
      List.foldlM_cons, g.addTransition_eq_ok { e with weight := e.weight.getD 1 } hends]
    exact ih _ fun e' he' => h e' (List.mem_cons_of_mem e he')

variable [Zero W] [One W] [BEq W]

section Build

variable (E : Explicit String W) (f : Option W → Option W)

/-- The weight that is built for the weight of a transition. -/
def edgeWeight (w : W) : W := (f (weight? w)).getD 1

/-- The weight that is built for the weight of a state. Zero is left out. -/
def stateWeight (w : W) : W := if w == 0 then 0 else edgeWeight f w

theorem map_stateWeights (get : Terminal W → W) :
    (stateWeights get E).map (fun s => { s with weight := f s.weight }) =
      (E.states.toList.zipIdx 0).filterMap fun e =>
        if get e.1 == 0 then none else some ⟨e.2, f (weight? (get e.1))⟩ := by
  unfold stateWeights
  rw [List.map_filterMap]
  congr 1
  funext e
  dsimp only
  split <;> rfl

/-- Setting the weights of one role in a list of states, one for each terminal. -/
theorem setWeights_stateWeights (role : Role) (get : Terminal W → W)
    (state : Terminal W → Terminal W) :
    setWeights role [] (.ofStates (E.states.toList.map state).toArray)
        ((stateWeights get E).map fun s => { s with weight := f s.weight }) =
      .ok (.ofStates (E.states.toList.map fun t => if get t == 0 then state t else
        role.set (edgeWeight f (get t)) (state t)).toArray) := by
  have hlength : E.states.toList.length = (E.states.toList.map state).length :=
    (List.length_map _).symm
  have hset := setWeights_eq_ok role get (fun w => f (weight? w)) [] hlength [] nofun
  rw [List.zipWith_map_right, List.zipWith_self] at hset
  rw [map_stateWeights]
  exact hset

/-- The initial weights are set first, then the final ones. -/
theorem setWeights_describe (states : Array (Terminal W)) (hstates : states =
    (E.states.toList.map fun t => ⟨stateWeight f t.initial, stateWeight f t.final⟩).toArray) :
    ∃ g, setWeights .initial [] ((Graph.empty : Graph String W).addStates E.states.size).2
        ((describe E).mapWeights f).initial = .ok g ∧
      setWeights .final [] g ((describe E).mapWeights f).final = .ok (.ofStates states) := by
  have hstart : ((Graph.empty : Graph String W).addStates E.states.size).2 =
      .ofStates (E.states.toList.map fun _ => Terminal.mk 0 0).toArray := by
    refine Graph.eq_of_tables ?_ rfl
    change #[] ++ Array.replicate E.states.size (Terminal.mk 0 0) = _
    rw [List.map_const', Array.length_toList, Array.empty_append, List.toArray_replicate]
    rfl
  have hone (t : Terminal W) : (if t.initial == 0 then Terminal.mk 0 0 else
      Role.initial.set (edgeWeight f t.initial) ⟨0, 0⟩) = ⟨stateWeight f t.initial, 0⟩ := by
    unfold stateWeight
    split <;> rfl
  have hboth (t : Terminal W) : (if t.final == 0 then Terminal.mk (stateWeight f t.initial) 0 else
      Role.final.set (edgeWeight f t.final) ⟨stateWeight f t.initial, 0⟩) =
        ⟨stateWeight f t.initial, stateWeight f t.final⟩ := by
    unfold stateWeight
    split <;> rfl
  have hinitial := setWeights_stateWeights E f .initial Terminal.initial fun _ => ⟨0, 0⟩
  have hfinal := setWeights_stateWeights E f .final Terminal.final fun t =>
    ⟨stateWeight f t.initial, 0⟩
  rw [List.map_congr_left fun t _ => hone t] at hinitial
  rw [List.map_congr_left fun t _ => hboth t] at hfinal
  rw [hstart, hstates]
  exact ⟨_, hinitial, hfinal⟩

theorem transitions_describe {g : Graph String W} (hsize : g.states.size = E.states.size) :
    ∃ g', ((describe E).mapWeights f).transitions.foldlM addTransition g = .ok g' ∧
      g'.states = g.states ∧ g'.edges.toList = g.edges.toList ++
        E.edges.toList.map fun e => { e with weight := edgeWeight f e.weight } := by
  have hends {e : Edge String W} (he : e ∈ E.edges.toList) :
      e.source < g.states.size ∧ e.target < g.states.size := by
    rw [hsize]
    exact E.endpoints e (Array.mem_toList_iff.1 he)
  have hlist : ((describe E).mapWeights f).transitions.map
      (fun e => { e with weight := e.weight.getD 1 : Edge String W }) =
        E.edges.toList.map fun e => { e with weight := edgeWeight f e.weight } := by
    change ((E.edges.toList.map _).map _).map _ = _
    rw [List.map_map, List.map_map]
    rfl
  rw [foldlM_addTransition, hlist]
  · refine Graph.addTransitions_eq_ok g _ fun e he => ?_
    obtain ⟨e', he', rfl⟩ := List.mem_map.1 he
    exact hends (e := e') he'
  · intro e he
    obtain ⟨d, hd, rfl⟩ := List.mem_map.1 he
    obtain ⟨e', he', rfl⟩ := List.mem_map.1 hd
    exact hends (e := e') he'

/-- What is built has the weights that are put in the place of those described. -/
theorem build_describe : ((describe E).mapWeights f).build =
    .ok (E.toGraph.mapWeights (stateWeight f) (edgeWeight f)).explicit := by
  obtain ⟨g₀, hinitial, hfinal⟩ := setWeights_describe E f _ rfl
  set states := (E.states.toList.map fun t =>
    Terminal.mk (stateWeight f t.initial) (stateWeight f t.final)).toArray with hstates
  have hsize : states.size = E.states.size := by
    rw [hstates, List.size_toArray, List.length_map, Array.length_toList]
  obtain ⟨g, hg, hgstates, hgedges⟩ := transitions_describe E f
    (show (Graph.ofStates states : Graph String W).states.size = _ from hsize)
  have hresult : g = E.toGraph.mapWeights (stateWeight f) (edgeWeight f) := by
    refine Graph.eq_of_tables ?_ ?_
    · rw [hgstates]
      change states = E.states.map _
      rw [hstates, ← Array.toList_map, Array.toArray_toList]
    · apply Array.toList_inj.1
      change g.edges.toList = (E.edges.map _).toList
      rw [hgedges, Array.toList_map]
      rfl
  unfold build
  change (setWeights .initial [] ((Graph.empty : Graph String W).addStates E.states.size).2 _ >>= _) =
    _
  rw [hinitial]
  change (setWeights .final [] g₀ _ >>= _) = _
  rw [hfinal]
  change (((describe E).mapWeights f).transitions.foldlM addTransition _ >>= _) = _
  rw [hg, hresult]
  rfl

end Build

end Description

end WeightedAutomata
