import WeightedAutomata.Proofs.Description.Building
import WeightedAutomata.Proofs.Doubles
import WeightedAutomata.Proofs.Steady.Viewed

/-!
Automata that are written as texts and loaded again. A weight that is not finite is written as null,
which stands for one; where there is none but the zeros of the states, strings keep their weights.
-/
namespace WeightedAutomata

open Json (Value)

section Graphs

variable {L W : Type} (state edge : W → W) (g : Graph L W)

namespace Graph

theorem edgesBy_mapWeights (endpoint : Edge L W → ℕ)
    (hendpoint : ∀ e, endpoint { e with weight := edge e.weight } = endpoint e) :
    (g.mapWeights state edge).edgesBy endpoint = g.edgesBy endpoint := by
  unfold edgesBy mapWeights
  simp only [← Array.foldr_toList, Array.toList_zipIdx, Array.toList_map, List.zipIdx_map,
    List.foldr_map, Array.size_map, Prod.map_fst, Prod.map_snd, hendpoint, id]

theorem edgesBy_source_mapWeights :
    (g.mapWeights state edge).edgesBy Edge.source = g.edgesBy Edge.source :=
  g.edgesBy_mapWeights state edge _ fun _ => rfl

theorem edgesBy_target_mapWeights :
    (g.mapWeights state edge).edgesBy Edge.target = g.edgesBy Edge.target :=
  g.edgesBy_mapWeights state edge _ fun _ => rfl

theorem getElem?_states_mapWeights (s : ℕ) : (g.mapWeights state edge).states[s]? =
    g.states[s]?.map fun t => ⟨state t.initial, state t.final⟩ := Array.getElem?_map

theorem getElem?_edges_mapWeights (t : ℕ) : (g.mapWeights state edge).edges[t]? =
    g.edges[t]?.map fun e => { e with weight := edge e.weight } := Array.getElem?_map

/-- Weights have no influence on the order of the states. -/
theorem ranks_mapWeights : (g.mapWeights state edge).ranks = g.ranks := by
  have hsize : (g.mapWeights state edge).states.size = g.states.size := Array.size_map
  have htarget (t : ℕ) : ((g.mapWeights state edge).edges[t]?.map Edge.target) =
      g.edges[t]?.map Edge.target := by
    rw [getElem?_edges_mapWeights, Option.map_map]
    rfl
  unfold ranks
  simp only [edgesBy_source_mapWeights, edgesBy_target_mapWeights, hsize, htarget]

end Graph

end Graphs

theorem Echoes.dropUnit {α β : Type} {R : α → β → Prop} {x : Option α} {y : StateT Unit Option β}
    (h : Echoes () R x y) : Option.Rel R x (AnyAutomaton.dropUnit.map y) := by
  unfold Echoes at h
  change Option.Rel R x ((y.run ()).map (·.1))
  revert h
  generalize y.run () = z
  rintro (⟨h⟩ | _)
  · exact .some h.1
  · exact .none

section Mirrored

variable {L W : Type} [Zero W] [BEq W]

theorem Graph.statesWhere_mapWeights {state edge : W → W} {g : Graph L W} (get : Terminal W → W)
    (hget : ∀ t ∈ g.states, (get ⟨state t.initial, state t.final⟩ == 0) = (get t == 0)) :
    (g.mapWeights state edge).statesWhere get = g.statesWhere get := by
  have hsize : (g.mapWeights state edge).states.size = g.states.size := Array.size_map
  unfold statesWhere
  rw [hsize]
  refine List.filter_congr fun s _ => ?_
  rw [getElem?_states_mapWeights]
  cases hs : g.states[s]? with
  | none => rfl
  | some t => exact congrArg not (hget t (Array.mem_of_getElem? hs))

variable [Add W] [Mul W] {Q : W → W → Prop} {E : Explicit L W} {state edge : W → W}

/-- An automaton is mirrored by the one with other weights that the operations cannot tell from its
own. -/
theorem Explicit.mirrors_mapWeights (hQ : Congruent Q)
    (hstate : ∀ t ∈ E.states, Q t.initial (state t.initial) ∧ Q t.final (state t.final))
    (hedge : ∀ e ∈ E.edges, Q e.weight (edge e.weight)) :
    Automaton.Mirrors () Q E.view (E.toGraph.mapWeights state edge).explicit.automaton Eq Eq where
  unique := ⟨fun _ _ _ hs hq => hs.trans hq.symm, fun _ _ _ hs hq => hs.symm.trans hq⟩
  initialStates := by
    refine .pure ?_
    rw [List.forall₂_eq_eq_eq]
    exact (Graph.statesWhere_mapWeights Terminal.initial fun t ht =>
      (hQ.beq_zero_eq _ _ (hstate t ht).1).symm).symm
  outgoing s _ hs := by
    refine .pure ?_
    rw [List.forall₂_eq_eq_eq, ← hs, E.outgoing_eq]
    exact congrArg (Array.getD · s []) (E.toGraph.edgesBy_source_mapWeights state edge).symm
  initialWeight s _ hs := by
    refine .pure ?_
    subst hs
    change Q _ ((E.toGraph.mapWeights state edge).states[s]?.elim 0 Terminal.initial)
    rw [Graph.getElem?_states_mapWeights]
    cases h : E.states[s]? with
    | none => exact hQ.refl 0
    | some t => exact (hstate t (Array.mem_of_getElem? h)).1
  finalWeight s _ hs := by
    refine .pure ?_
    subst hs
    change Q _ ((E.toGraph.mapWeights state edge).states[s]?.elim 0 Terminal.final)
    rw [Graph.getElem?_states_mapWeights]
    cases h : E.states[s]? with
    | none => exact hQ.refl 0
    | some t => exact (hstate t (Array.mem_of_getElem? h)).2
  weight t _ ht := by
    refine .pure ?_
    subst ht
    change Q _ ((E.toGraph.mapWeights state edge).edges[t]?.elim 0 Edge.weight)
    rw [Graph.getElem?_edges_mapWeights]
    cases h : E.edges[t]? with
    | none => exact hQ.refl 0
    | some e => exact hedge e (Array.mem_of_getElem? h)
  source t _ ht := by
    subst ht
    change _ = (E.toGraph.mapWeights state edge).edges[t]?.elim absentState Edge.source
    rw [Graph.getElem?_edges_mapWeights, Option.elim_map]
    rfl
  target t _ ht := by
    subst ht
    change _ = (E.toGraph.mapWeights state edge).edges[t]?.elim absentState Edge.target
    rw [Graph.getElem?_edges_mapWeights, Option.elim_map]
    rfl
  label_eq t _ ht := by
    subst ht
    change _ = (E.toGraph.mapWeights state edge).edges[t]?.bind Edge.label
    rw [Graph.getElem?_edges_mapWeights, Option.bind_map]
    rfl
  order := by
    have horder : (E.toGraph.mapWeights state edge).explicit.order? = E.order? := by
      unfold Explicit.order?
      rw [E.ranks_eq, ← E.toGraph.ranks_mapWeights state edge]
      rfl
    change Option.Rel _ E.order? (E.toGraph.mapWeights state edge).explicit.order?
    rw [horder]
    cases E.order? with
    | none => exact .none
    | some order => exact .some fun _ _ hs _ _ hq => by rw [hs, hq]

/-- Strings have corresponding weights, and the same budgets do. -/
theorem Explicit.stringWeight_mapWeights [One W] [BEq L] (hQ : Congruent Q) {solver : Solver W}
    (hsolver : solver.Respects Q)
    (hstate : ∀ t ∈ E.states, Q t.initial (state t.initial) ∧ Q t.final (state t.final))
    (hedge : ∀ e ∈ E.edges, Q e.weight (edge e.weight)) (budget : ℕ) (x : List L) :
    Option.Rel Q (E.view.stringWeight budget solver x)
      ((E.toGraph.mapWeights state edge).explicit.view.stringWeight budget solver x) := by
  have h := (mirrors_mapWeights hQ hstate hedge).stringWeight hQ hsolver budget x
  exact Automaton.hoist_stringWeight AnyAutomaton.dropUnit
    (E.toGraph.mapWeights state edge).explicit.automaton budget solver x ▸ h.dropUnit

end Mirrored

/-- Weights that are doubles, in texts too, and that the operations tell apart as numbers only. -/
structure Numeric (W : Type) [Zero W] [Add W] [Mul W] [BEq W] [JsonWeight W] where
  value : W → Double
  ofValue : Double → W
  ofValue_value : ∀ w, ofValue (value w) = w
  read?_eq : ∀ v : Value, JsonWeight.read? v = v.double?.map ofValue
  write_eq : ∀ w : W, JsonWeight.write w = .ofDouble (value w)
  congruent : Congruent (Agree : W → W → Prop)
  respects : (Solver.default : Solver W).Respects Agree

def RealWeight.numeric : Numeric RealWeight where
  value := RealWeight.value
  ofValue := .mk
  ofValue_value _ := rfl
  read?_eq _ := rfl
  write_eq _ := rfl
  congruent := RealWeight.congruent_agree
  respects := RealWeight.respects_default

def TropicalWeight.numeric : Numeric TropicalWeight where
  value := TropicalWeight.value
  ofValue := .mk
  ofValue_value _ := rfl
  read?_eq _ := rfl
  write_eq _ := rfl
  congruent := TropicalWeight.congruent_agree
  respects := TropicalWeight.respects_default

/-- The weights of all states and transitions. -/
def Explicit.weights {L W : Type} (E : Explicit L W) : List W :=
  E.states.toList.map Terminal.initial ++ E.states.toList.map Terminal.final ++
    E.edges.toList.map Edge.weight

instance : DecidableEq Double := fun x y =>
  decidable_of_iff (x.bits = y.bits)
    ⟨fun h => congrArg Double.mk h, fun h => congrArg Double.bits h⟩

namespace Numeric

variable {W : Type} [Zero W] [One W] [Add W] [Mul W] [BEq W] [JsonWeight W] (ν : Numeric W)

def IsFinite (w : W) : Prop := (ν.value w).isFinite

/-- What is written for a finite weight is read as the same double. -/
def ReadsBack (w : W) : Prop :=
  ν.IsFinite w → (Value.ofDouble (ν.value w)).double? = some (ν.value w)

instance (w : W) : Decidable (ν.IsFinite w) := inferInstanceAs (Decidable (_ = true))

instance (w : W) : Decidable (ν.ReadsBack w) := inferInstanceAs (Decidable (_ → _))

/-- What is left of a weight that is written, if anything is. -/
def kept (w : Option W) : Option W := w.filter fun w => (ν.value w).isFinite

/-- What the weight of a transition becomes: one in the place of a weight that is not finite. -/
def loaded (w : W) : W := Description.edgeWeight ν.kept w

/-- What the weight of a state becomes. Zeros stay zeros. -/
def loadedState (w : W) : W := Description.stateWeight ν.kept w

variable {ν}

omit [One W] in
theorem rereadAs_kept {w : Option W} (hw : ∀ v ∈ w, ν.ReadsBack v) : RereadAs w (ν.kept w) := by
  cases w with
  | none => rfl
  | some w =>
    unfold RereadAs kept
    rw [Option.map_some, ν.write_eq, Option.filter_some]
    by_cases hfinite : (ν.value w).isFinite = true
    · have hread : JsonWeight.read? (Value.ofDouble (ν.value w)) = some w := by
        rw [ν.read?_eq, hw w rfl hfinite, Option.map_some, ν.ofValue_value]
      rw [if_pos hfinite]
      unfold Value.ofDouble at hread ⊢
      rw [if_pos hfinite] at hread ⊢
      change (JsonWeight.read? _).map some = _
      rw [hread]
      rfl
    · unfold Value.ofDouble
      rw [if_neg hfinite, if_neg hfinite]
      rfl

theorem agree_loaded {w : W} (hw : ν.IsFinite w) : Agree w (ν.loaded w) := by
  unfold loaded Description.edgeWeight Description.weight? kept
  by_cases hone : w == 1
  · rw [if_pos hone]
    exact .inr hone
  · unfold IsFinite at hw
    rw [if_neg hone, Option.filter_some, if_pos hw]
    exact .refl w

theorem agree_loadedState {w : W} (hw : w == 0 ∨ ν.IsFinite w) : Agree w (ν.loadedState w) := by
  unfold loadedState Description.stateWeight
  by_cases hzero : w == 0
  · rw [if_pos hzero]
    exact .inr hzero
  · rw [if_neg hzero]
    exact agree_loaded (hw.resolve_left hzero)

end Numeric

namespace Description

variable {W : Type} [Zero W] [One W] [BEq W]

omit [Zero W] in
theorem mem_of_weight? {v w : W} (h : v ∈ weight? w) : v = w := by
  unfold weight? at h
  split at h
  · cases h
  · exact (Option.some.inj h).symm

theorem mem_stateWeights {get : Terminal W → W} {E : Explicit String W} {s : StateWeight W}
    (h : s ∈ stateWeights get E) : s.state < E.states.size ∧
      ∃ t ∈ E.states.toList, s.weight = weight? (get t) := by
  obtain ⟨⟨t, i⟩, hmem, h⟩ := List.mem_filterMap.1 h
  have hget := List.mem_zipIdx_iff_getElem?.1 hmem
  dsimp only at h hget
  split at h
  · cases h
  · cases h
    obtain ⟨hlt, -⟩ := List.getElem?_eq_some_iff.1 hget
    exact ⟨by rwa [Array.length_toList] at hlt, t, List.mem_of_getElem? hget, rfl⟩

/-- What is described are weights of the automaton. -/
theorem mem_weights_describe {E : Explicit String W} {v : W} (h : some v ∈ (describe E).weights) :
    v ∈ E.weights := by
  have hstates {get : Terminal W → W} (h : some v ∈ (stateWeights get E).map StateWeight.weight) :
      v ∈ E.states.toList.map get := by
    obtain ⟨s, hs, hv⟩ := List.mem_map.1 h
    obtain ⟨-, t, ht, hweight⟩ := mem_stateWeights hs
    exact List.mem_map.2 ⟨t, ht, (mem_of_weight? (hweight.symm.trans hv)).symm⟩
  rcases List.mem_append.1 h with h | h
  · rcases List.mem_append.1 h with h | h
    · exact List.mem_append_left _ (List.mem_append_left _ (hstates h))
    · exact List.mem_append_left _ (List.mem_append_right _ (hstates h))
  · obtain ⟨d, hd, hv⟩ := List.mem_map.1 h
    obtain ⟨e, he, rfl⟩ := List.mem_map.1 hd
    exact List.mem_append_right _ (List.mem_map.2 ⟨e, he, (mem_of_weight? hv).symm⟩)

theorem addressable_describe {E : Explicit String W} (hsize : E.states.size < UInt64.size) :
    (describe E).Addressable where
  states := hsize
  initial _ hs := (mem_stateWeights hs).1.trans hsize
  final _ hs := (mem_stateWeights hs).1.trans hsize
  transitions d hd := by
    obtain ⟨e, he, rfl⟩ := List.mem_map.1 hd
    obtain ⟨hsource, htarget⟩ := E.endpoints e (Array.mem_toList_iff.1 he)
    exact ⟨hsource.trans hsize, htarget.trans hsize⟩

variable [Add W] [Mul W] [JsonWeight W] {ν : Numeric W}

/-- The automaton that is loaded from what has been written. -/
theorem load_describe {E : Explicit String W} (hsize : E.states.size < UInt64.size)
    (hreads : ∀ w ∈ E.weights, ν.ReadsBack w) : (read (describe E).write >>= build) =
      .ok (E.toGraph.mapWeights ν.loadedState ν.loaded).explicit := by
  have hlegible (w : W) : (JsonWeight.write w).Legible := by
    rw [ν.write_eq]
    exact Json.Value.legible_ofDouble _
  have hreread (w : Option W) (hw : w ∈ (describe E).weights) : RereadAs w (ν.kept w) :=
    Numeric.rereadAs_kept fun v hv => hreads v (mem_weights_describe (hv ▸ hw))
  rw [read_write hlegible (addressable_describe hsize) hreread]
  exact build_describe E ν.kept

/-- An automaton that is written and loaded again is the same up to its weights: one stands for a
transition weight that is not finite, and for such a state weight unless it is zero. If no weight is
replaced, each string keeps its weight. -/
theorem loaded_stringWeight (ν : Numeric W) (E : Explicit String W)
    (hsize : E.states.size < UInt64.size) (hreads : ∀ w ∈ E.weights, ν.ReadsBack w) :
    ∃ E' : Explicit String W, (read (describe E).write >>= build) = .ok E' ∧
      E'.toGraph = E.toGraph.mapWeights ν.loadedState ν.loaded ∧
      ((∀ e ∈ E.edges, ν.IsFinite e.weight) →
        (∀ t ∈ E.states, ∀ w ∈ [t.initial, t.final], w == 0 ∨ ν.IsFinite w) →
        ∀ budget x, Option.Rel Agree (E.view.stringWeight budget .default x)
          (E'.view.stringWeight budget .default x)) := by
  refine ⟨_, load_describe hsize hreads, rfl, fun hedges hstates budget x => ?_⟩
  refine E.stringWeight_mapWeights ν.congruent ν.respects (fun t ht => ⟨?_, ?_⟩) (fun e he => ?_)
    budget x
  · exact Numeric.agree_loadedState (hstates t ht _ List.mem_cons_self)
  · exact Numeric.agree_loadedState
      (hstates t ht _ (List.mem_cons_of_mem _ (List.mem_singleton_self _)))
  · exact Numeric.agree_loaded (hedges e he)

section Steps

/-- A transition with a weight, between an initial and a final state. -/
def step (initial w final : TropicalWeight) : Explicit String TropicalWeight :=
  Graph.explicit ⟨#[⟨initial, 0⟩, ⟨0, final⟩], #[⟨0, 1, some "a", w⟩], by simp⟩

def costlyStep : Explicit String TropicalWeight :=
  step ⟨.ofFloat 0.5⟩ ⟨.ofFloat 2.25⟩ ⟨.ofFloat 1e300⟩

theorem readsBack_costlyStep : ∀ w ∈ costlyStep.weights, TropicalWeight.numeric.ReadsBack w := by
  decide +kernel

theorem edges_costlyStep : ∀ e ∈ costlyStep.edges, TropicalWeight.numeric.IsFinite e.weight := by
  decide +kernel

theorem states_costlyStep : ∀ t ∈ costlyStep.states, ∀ w ∈ [t.initial, t.final],
    w == 0 ∨ TropicalWeight.numeric.IsFinite w := by
  decide +kernel

theorem loaded_costlyStep : ∃ E' : Explicit String TropicalWeight,
    (read (describe costlyStep).write >>= build) = .ok E' ∧ ∀ budget x,
      Option.Rel Agree (costlyStep.view.stringWeight budget .default x)
        (E'.view.stringWeight budget .default x) := by
  obtain ⟨E', hload, -, hweights⟩ := loaded_stringWeight TropicalWeight.numeric costlyStep
    (by decide) readsBack_costlyStep
  exact ⟨E', hload, hweights edges_costlyStep states_costlyStep⟩

/-- A transition that no path takes, as its weight is zero. -/
def blockedStep : Explicit String TropicalWeight := step 1 0 1

theorem loaded_blockedStep : blockedStep.toGraph.mapWeights TropicalWeight.numeric.loadedState
    TropicalWeight.numeric.loaded = (step 1 1 1).toGraph := by
  have hone : TropicalWeight.numeric.loadedState 1 = 1 := rfl
  have hzero : TropicalWeight.numeric.loadedState 0 = 0 := rfl
  have hweight : TropicalWeight.numeric.loaded 0 = 1 := rfl
  refine Graph.eq_of_tables ?_ ?_
  · simp [Graph.mapWeights, blockedStep, step, Graph.explicit, hone, hzero]
  · simp [Graph.mapWeights, blockedStep, step, Graph.explicit, hweight]

end Steps

end Description

section Runs

open TropicalWeight Automaton

variable {L S T : Type} [BEq S] [LawfulBEq S] [Hashable S]

/-- One transition leads from the only initial state to the only final one, both of weight one. -/
structure Automaton.IsStep (A : Automaton Option L S T TropicalWeight) (s q : S) (t : T)
    (w : TropicalWeight) : Prop where
  ne : s ≠ q
  initialStates : A.initialStates = some [s]
  initialWeight : A.initialWeight s = some 1
  finalWeight_start : A.finalWeight s = some 0
  finalWeight_end : A.finalWeight q = some 1
  outgoing_start : A.outgoing s = some [t]
  outgoing_end : A.outgoing q = some []
  weight : A.weight t = some w
  source : A.source t = s
  target : A.target t = q

theorem isStep_reading (w : TropicalWeight) (hw : w = 0 ∨ w = 1) :
    ((Description.step 1 w 1).view.intersection (singleString ["a"])).IsStep ⟨0, 0, .free⟩
      ⟨1, 1, .free⟩ ⟨⟨0, 0, .free⟩, ⟨1, 1, .free⟩, some 0, some 0, some "a"⟩ w where
  ne := nofun
  initialStates := by obtain rfl | rfl := hw <;> rfl
  initialWeight := by obtain rfl | rfl := hw <;> rfl
  finalWeight_start := by obtain rfl | rfl := hw <;> rfl
  finalWeight_end := by obtain rfl | rfl := hw <;> rfl
  outgoing_start := by obtain rfl | rfl := hw <;> rfl
  outgoing_end := by obtain rfl | rfl := hw <;> rfl
  weight := by obtain rfl | rfl := hw <;> rfl
  source := rfl
  target := rfl

variable {A : Automaton Option L S T TropicalWeight} {s q : S} {t : T} {w : TropicalWeight}

theorem TropicalWeight.eq_of_bits {v w : TropicalWeight} (h : v.value.bits = w.value.bits) : v = w := by
  obtain ⟨⟨_⟩⟩ := v
  obtain ⟨⟨_⟩⟩ := w
  exact congrArg (fun b => TropicalWeight.mk ⟨b⟩) h

theorem TropicalWeight.one_mul_one : (1 : TropicalWeight) * 1 = 1 := eq_of_bits (by decide +kernel)
theorem TropicalWeight.one_mul_zero : (1 : TropicalWeight) * 0 = 0 := eq_of_bits (by decide +kernel)
theorem TropicalWeight.zero_add_one : (0 : TropicalWeight) + 1 = 1 := eq_of_bits (by decide +kernel)
theorem TropicalWeight.one_ne : ((1 : TropicalWeight) == 0) = false := by decide +kernel
theorem TropicalWeight.zero_eq : ((0 : TropicalWeight) == 0) = true := by decide +kernel
theorem TropicalWeight.zero_ne : ((0 : TropicalWeight) == 1) = false := by decide +kernel

theorem Automaton.IsStep.distances (h : A.IsStep s q t w) (hw : w = 0 ∨ w = 1) :
    ∃ d, A.singleInitial.distances 4 .default none = some d ∧ d[some s]? = none ∧
      d[some q]? = if w == 0 then none else some 1 := by
  have hinitial : A.singleInitial.initialWeight none = some 1 := rfl
  have hout : A.singleInitial.outgoing none = some [.fused t] := by
    simp [singleInitial, h.initialStates, h.outgoing_start]
  have hlast : A.singleInitial.outgoing (some q) = some [] := by
    simp [singleInitial, h.outgoing_end]
  have hweight : A.singleInitial.weight (.fused t) = some w := by
    rcases hw with rfl | rfl <;>
      simp [singleInitial, h.source, h.initialWeight, h.weight, one_mul_one, one_mul_zero]
  have htarget : A.singleInitial.target (.fused t) = some q := congrArg some h.target
  rcases hw with rfl | rfl <;>
    simp [Automaton.distances, untilDone, Automaton.relaxNext, Automaton.relax, Relaxation.start,
      Relaxation.improve, Frontier.pop?, Frontier.insert, Frontier.place, Frontier.empty,
      Solver.default, Convergence.exact, Std.HashMap.getD_insert, hinitial, hout, hlast, hweight,
      htarget, h.ne.symm, one_ne, zero_eq, zero_ne, one_mul_one, one_mul_zero, zero_add_one]

theorem Automaton.IsStep.states (h : A.IsStep s q t w) : A.states 4 = some [s, q] := by
  simp [Automaton.states, Automaton.explore, untilDone, Automaton.visitNext, Sweep.start,
    Sweep.discover, Frontier.pop?, Frontier.insert, Frontier.place, Frontier.empty,
    h.initialStates, h.outgoing_start, h.outgoing_end, h.target, h.ne]

/-- The transition counts unless its weight is zero. -/
theorem Automaton.IsStep.completeDistance (h : A.IsStep s q t w) (hw : w = 0 ∨ w = 1) :
    A.completeDistance 4 .default = some w := by
  obtain ⟨d, hd, hstart, hend⟩ := h.distances hw
  rcases hw with rfl | rfl <;>
    simp [Automaton.completeDistance, Automaton.distancesFromInitial, hd, h.states,
      h.initialStates, h.initialWeight, h.finalWeight_start, h.finalWeight_end,
      Std.HashMap.getElem?_insert, Std.HashMap.getD_eq_getD_getElem?, getElem?_ownDistances,
      hstart, hend, h.ne, zero_eq, one_ne, one_mul_one, zero_add_one]

end Runs

/-- Written and loaded again, a transition of weight zero becomes one that paths take. -/
theorem Description.loaded_blockedStep_stringWeight :
    ∃ E' : Explicit String TropicalWeight,
      (∀ w ∈ blockedStep.weights, TropicalWeight.numeric.ReadsBack w) ∧
      (read (describe blockedStep).write >>= build) = .ok E' ∧
      blockedStep.view.stringWeight 4 .default ["a"] = some 0 ∧
      E'.view.stringWeight 4 .default ["a"] = some 1 ∧ ¬Agree (0 : TropicalWeight) 1 := by
  have hreads : ∀ w ∈ blockedStep.weights, TropicalWeight.numeric.ReadsBack w := by
    decide +kernel
  refine ⟨step 1 1 1, hreads, ?_, (isStep_reading 0 (.inl rfl)).completeDistance (.inl rfl),
    (isStep_reading 1 (.inr rfl)).completeDistance (.inr rfl), ?_⟩
  · rw [load_describe (by decide) hreads, loaded_blockedStep]
    rfl
  · rintro (h | h)
    · exact absurd (congrArg (fun w => w.value.bits) h) (by decide +kernel)
    · exact absurd h (by decide +kernel)

end WeightedAutomata
