import Mathlib.Data.List.Forall2
import WeightedAutomata.Explicit.Copy
import WeightedAutomata.Proofs.Answered
import WeightedAutomata.Proofs.Explicit.Steps
import WeightedAutomata.Proofs.Explicit.Tables

/-!
What the copy of an automaton looks like. The places in the list of the states found are the copy's
states, and its transitions stand at each state in the order in which the automaton lists them.
-/
namespace WeightedAutomata

section Lists

variable {α β γ : Type}

theorem forall₂_of_mapM {f : α → Option β} {l : List α} {l' : List β} (h : l.mapM f = some l') :
    List.Forall₂ (fun a b => f a = some b) l l' := by
  induction l generalizing l' with
  | nil =>
    cases h
    exact .nil
  | cons a l ih =>
    rw [List.mapM_cons] at h
    obtain ⟨b, hb, h⟩ := Option.bind_eq_some_iff.1 h
    obtain ⟨bs, hbs, h⟩ := Option.bind_eq_some_iff.1 h
    cases h
    exact .cons hb (ih hbs)

theorem exists_getElem?_of_forall₂ {R : α → β → Prop} {l : List α} {l' : List β}
    (h : List.Forall₂ R l l') {i : ℕ} {a : α} (ha : l[i]? = some a) :
    ∃ b, l'[i]? = some b ∧ R a b := by
  induction h generalizing i with
  | nil => cases ha
  | @cons a' b l l' hab _ ih =>
    cases i with
    | zero =>
      cases ha
      exact ⟨b, rfl, hab⟩
    | succ i => exact ih ha

theorem exists_mem_of_forall₂ {R : α → β → Prop} {l : List α} {l' : List β} (h : List.Forall₂ R l l')
    {b : β} (hb : b ∈ l') : ∃ a ∈ l, R a b := by
  obtain ⟨i, hi⟩ := List.mem_iff_getElem?.1 hb
  obtain ⟨a, ha, hab⟩ := exists_getElem?_of_forall₂ h.flip hi
  exact ⟨a, List.mem_of_getElem? ha, hab⟩

theorem forall₂_through {P : α → β → Prop} {Q : γ → β → Prop} {R : α → γ → Prop} {as : List α}
    {bs : List β} {cs : List γ} (h : List.Forall₂ P as bs) (h' : List.Forall₂ Q cs bs)
    (hR : ∀ a b c, P a b → Q c b → R a c) : List.Forall₂ R as cs := by
  induction h generalizing cs with
  | nil =>
    cases h'
    exact .nil
  | cons hab _ ih =>
    cases h' with
    | cons hcb hrest => exact .cons (hR _ _ _ hab hcb) (ih hrest)

/-- A list put together from rows, the elements of which tell their row, sorted into rows again. -/
theorem filter_flatten (f : α → ℕ) {rows : List (List α)} (n : ℕ)
    (h : ∀ i row, rows[i]? = some row → ∀ a ∈ row, f a = n + i) {i : ℕ} {row : List α}
    (hi : rows[i]? = some row) : rows.flatten.filter (fun a => f a == n + i) = row := by
  induction rows generalizing n i with
  | nil => cases hi
  | cons r rows ih =>
    have hrest (j : ℕ) (row : List α) (hrow : rows[j]? = some row) (a : α) (ha : a ∈ row) :
        f a = n + 1 + j := by
      rw [h (j + 1) row hrow a ha]
      omega
    rw [List.flatten_cons, List.filter_append]
    cases i with
    | zero =>
      cases hi
      have hfirst : row.filter (fun a => f a == n + 0) = row :=
        List.filter_eq_self.2 fun a ha => beq_iff_eq.2 (h 0 row rfl a ha)
      have hothers : rows.flatten.filter (fun a => f a == n + 0) = [] := by
        refine List.filter_eq_nil_iff.2 fun a ha heq => ?_
        obtain ⟨row, hrow, ha⟩ := List.mem_flatten.1 ha
        obtain ⟨j, hj⟩ := List.mem_iff_getElem?.1 hrow
        have hlater := hrest j row hj a ha
        have heq := eq_of_beq heq
        omega
      rw [hfirst, hothers, List.append_nil]
    | succ i =>
      have hfirst : r.filter (fun a => f a == n + (i + 1)) = [] := by
        refine List.filter_eq_nil_iff.2 fun a ha heq => ?_
        have hsame := h 0 r rfl a ha
        have heq := eq_of_beq heq
        omega
      rw [hfirst, List.nil_append, show n + (i + 1) = n + 1 + i by omega]
      exact ih (n + 1) hrest hi

end Lists

namespace Graph

variable {L W : Type}

/-- Transitions between states that there are can be added. -/
theorem addTransitions_eq_ok (g : Graph L W) (es : List (Edge L W))
    (h : ∀ e ∈ es, e.source < g.states.size ∧ e.target < g.states.size) :
    ∃ g', g.addTransitions es = .ok g' ∧ g'.states = g.states ∧
      g'.edges.toList = g.edges.toList ++ es := by
  induction es generalizing g with
  | nil => exact ⟨g, rfl, rfl, (List.append_nil _).symm⟩
  | cons e es ih =>
    have hends := h e List.mem_cons_self
    obtain ⟨g', hg', hstates, hedges⟩ := ih (g.pushEdge e hends) fun e' he' =>
      h e' (List.mem_cons_of_mem e he')
    refine ⟨g', ?_, hstates, ?_⟩
    · unfold addTransitions at hg' ⊢
      rw [List.foldlM_cons, g.addTransition_eq_ok e hends]
      exact hg'
    · rw [hedges, pushEdge, Array.toList_push, List.append_assoc]
      rfl

/-- A state finds the numbers of the edges that leave it. -/
theorem forall₂_edgesBy (g : Graph L W) (s : ℕ) :
    List.Forall₂ (fun t e => g.edges[t]? = some e) ((g.edgesBy Edge.source).getD s [])
      (g.edges.toList.filter fun e => e.source == s) := by
  have hfst : (g.edges.toList.filter fun e => e.source == s) =
      (g.edges.toList.zipIdx.filter fun e => e.1.source == s).map Prod.fst := by
    rw [← List.zipIdx_map_fst 0 g.edges.toList, List.filter_map]
    simp only [List.zipIdx_map_fst]
    rfl
  rw [getD_edgesBy g fun e he => g.source_lt he, hfst, List.forall₂_map_left_iff,
    List.forall₂_map_right_iff, List.forall₂_same]
  intro e he
  rw [← Array.getElem?_toList]
  exact List.mem_zipIdx_iff_getElem?.1 (List.mem_filter.1 he).1

end Graph

/-- The queries of an explicit automaton, all of which are answered. -/
abbrev Explicit.view {L W : Type} [Zero W] [BEq W] (E : Explicit L W) : Automaton Option L ℕ ℕ W :=
  E.automaton

/-- The same queries, without an effect. -/
abbrev Explicit.bare {L W : Type} [Zero W] [BEq W] (E : Explicit L W) : Automaton Id L ℕ ℕ W :=
  E.automaton

/-- The states of `E` are the places in the list `ss` of the states that `C` leads to, each of which
occurs there once. Under this numbering all weights are those of `C`, and so are the transitions at
each state, in their order. -/
structure IsCopy {L S T W : Type} [Zero W] [BEq W] (E : Explicit L W) (C : Automaton Option L S T W)
    (ss : List S) : Prop where
  nodup : ss.Nodup
  mem_iff : ∀ s, s ∈ ss ↔ C.answered.Reachable s
  size_eq : E.states.size = ss.length
  initialWeight_eq : ∀ i s, ss[i]? = some s → E.view.initialWeight i = C.initialWeight s
  finalWeight_eq : ∀ i s, ss[i]? = some s → E.view.finalWeight i = C.finalWeight s
  outgoing : ∀ i s, ss[i]? = some s → ∃ us ts, E.view.outgoing i = some us ∧ C.outgoing s = some ts ∧
    List.Forall₂ (fun u t => E.view.source u = i ∧ ss[E.view.target u]? = some (C.target t) ∧
      E.view.label u = C.label t ∧ E.view.weight u = C.weight t) us ts

namespace Automaton

section Steps

variable {m : Type → Type} [Monad m] {L S T W : Type}

/-- The weights of a state that has been found. -/
def copyTerminal (A : Automaton m L S T W) (e : S × List T) : m (Terminal W) :=
  return ⟨← A.initialWeight e.1, ← A.finalWeight e.1⟩

variable [BEq S] [Hashable S]

/-- The copy of a transition, in the numbering of the states that have been found. -/
def copyEdge (A : Automaton m L S T W) (visited : List (S × List T)) (source : ℕ) (t : T) :
    m (Edge L W) :=
  return ⟨source, (numbering (visited.map Prod.fst)).getD (A.target t) visited.length, A.label t,
    ← A.weight t⟩

theorem materialize_eq [StepLimited m] (A : Automaton m L S T W) (budget : ℕ) :
    A.materialize budget = (do
      let visited ← A.explore budget
      let terminals ← visited.mapM A.copyTerminal
      let rows ← visited.zipIdx.mapM fun e => e.1.2.mapM (A.copyEdge visited e.2)
      return ((Graph.ofStates terminals.toArray).addTransitions rows.flatten).map Graph.explicit) :=
  rfl

end Steps

variable {L S T W : Type} [BEq S] [LawfulBEq S] [Hashable S]

theorem getElem?_numbering {ss : List S} (hnodup : ss.Nodup) {i : ℕ} {s : S} (hs : ss[i]? = some s) :
    (numbering ss)[s]? = some i := by
  have hfold (l : List (S × ℕ)) (hl : (l.map Prod.fst).Nodup) (h : (s, i) ∈ l) :
      (l.foldl (fun numbers e => numbers.insert e.1 e.2) (∅ : Std.HashMap S ℕ))[s]? = some i := by
    induction l using List.reverseRecOn with
    | nil => cases h
    | append_singleton l e ih =>
      rw [List.foldl_append, List.foldl_cons, List.foldl_nil, Std.HashMap.getElem?_insert]
      rw [List.map_append, List.nodup_append] at hl
      rcases List.mem_append.1 h with h | h
      · have hne : e.1 ≠ s := fun heq =>
          hl.2.2 s (List.mem_map.2 ⟨_, h, rfl⟩) e.1 (List.mem_singleton_self _) heq.symm
        rw [if_neg (by simpa using hne)]
        exact ih hl.1 h
      · obtain rfl := List.mem_singleton.1 h
        rw [if_pos (beq_self_eq_true s)]
  refine hfold ss.zipIdx ?_ (List.mem_zipIdx_iff_getElem?.2 hs)
  rwa [List.zipIdx_map_fst]

/-- The number of a state is its place. -/
theorem getElem?_getD_numbering {ss : List S} (hnodup : ss.Nodup) {s : S} (hs : s ∈ ss) (d : ℕ) :
    ss[(numbering ss).getD s d]? = some s := by
  obtain ⟨i, hi⟩ := List.mem_iff_getElem?.1 hs
  rwa [Std.HashMap.getD_eq_getD_getElem?, getElem?_numbering hnodup hi, Option.getD_some]

section Copied

variable [Zero W] {C : Automaton Option L S T W} {visited : List (S × List T)} {budget : ℕ}
variable (hvisited : C.explore budget = some visited)
include hvisited

theorem exists_place_of_explore {i : ℕ} {s : S} (hs : (visited.map Prod.fst)[i]? = some s) :
    ∃ ts, visited[i]? = some (s, ts) ∧ C.outgoing s = some ts := by
  obtain ⟨-, -, houtgoing⟩ := explore_answered hvisited
  rw [List.getElem?_map] at hs
  obtain ⟨⟨_, ts⟩, hi, rfl⟩ := Option.map_eq_some_iff.1 hs
  exact ⟨ts, hi, houtgoing _ (List.mem_of_getElem? hi)⟩

theorem getElem?_numbered {s : S} (hs : C.answered.Reachable s) :
    (visited.map Prod.fst)[(numbering (visited.map Prod.fst)).getD s visited.length]? = some s := by
  obtain ⟨hnodup, hmem, -⟩ := explore_answered hvisited
  exact getElem?_getD_numbering hnodup ((hmem s).2 hs) _

section Edges

variable {rows : List (List (Edge L W))}
variable (hrows : visited.zipIdx.mapM (fun e => e.1.2.mapM (C.copyEdge visited e.2)) = some rows)
include hrows

/-- The row of the new transitions at a state. -/
theorem exists_row {i : ℕ} {s : S} {ts : List T} (hi : visited[i]? = some (s, ts)) :
    ∃ row, rows[i]? = some row ∧ List.Forall₂ (fun t e => e.source = i ∧
      (visited.map Prod.fst)[e.target]? = some (C.target t) ∧ e.label = C.label t ∧
        C.weight t = some e.weight) ts row := by
  obtain ⟨-, hmem, houtgoing⟩ := explore_answered hvisited
  have hzip : visited.zipIdx[i]? = some ((s, ts), i) := by simp [List.getElem?_zipIdx, hi]
  obtain ⟨row, hget, hrow⟩ := exists_getElem?_of_forall₂ (forall₂_of_mapM hrows) hzip
  have hmember := List.mem_of_getElem? hi
  have hs : C.answered.Reachable s := (hmem s).1 (List.mem_map.2 ⟨_, hmember, rfl⟩)
  have htarget (t : T) (ht : t ∈ ts) : C.answered.Reachable (C.target t) :=
    hs.step (t := t) (by rwa [leaving_answered (houtgoing _ hmember)])
  refine ⟨row, hget, ?_⟩
  refine ((List.forall₂_and_left _ _).2 ⟨htarget, forall₂_of_mapM hrow⟩).imp fun t e he => ?_
  obtain ⟨w, hw, heq⟩ := Option.bind_eq_some_iff.1 he.2
  cases heq
  exact ⟨rfl, getElem?_numbered hvisited he.1, rfl, hw⟩

/-- The new transitions tell their row, and stay within the states that have been found. -/
theorem ends_of_mem_row {i : ℕ} {row : List (Edge L W)} (hi : rows[i]? = some row) {e : Edge L W}
    (he : e ∈ row) : e.source = i ∧ e.source < visited.length ∧ e.target < visited.length := by
  obtain ⟨hlt, -⟩ := List.getElem?_eq_some_iff.1 hi
  rw [← (forall₂_of_mapM hrows).length_eq, List.length_zipIdx] at hlt
  obtain ⟨row', hrow', hall⟩ := exists_row hvisited hrows (List.getElem?_eq_getElem hlt)
  obtain rfl : row' = row := Option.some.inj (hrow'.symm.trans hi)
  obtain ⟨t, -, rfl, htarget, -⟩ := exists_mem_of_forall₂ hall he
  obtain ⟨hlt', -⟩ := List.getElem?_eq_some_iff.1 htarget
  rw [List.length_map] at hlt'
  exact ⟨rfl, hlt, hlt'⟩

omit [LawfulBEq S] [Zero W] hvisited in
theorem length_flatten_rows : rows.flatten.length = (visited.flatMap Prod.snd).length := by
  have hall : List.Forall₂ Eq (visited.zipIdx.map fun e => e.1.2.length)
      (rows.map List.length) := by
    rw [List.forall₂_map_left_iff, List.forall₂_map_right_iff]
    exact (forall₂_of_mapM hrows).imp fun _ _ h => (forall₂_of_mapM h).length_eq
  have hlengths : (visited.zipIdx.map fun e => e.1.2.length) = visited.map fun e => e.2.length := by
    conv => rhs; rw [← List.zipIdx_map_fst 0 visited, List.map_map]
    rfl
  rw [List.forall₂_eq_eq_eq] at hall
  rw [List.length_flatten, ← hall, hlengths, List.length_flatMap]

/-- The transitions of a graph that has been given these rows are found at their states. -/
theorem forall₂_outgoing {g : Graph L W} (hedges : g.edges.toList = rows.flatten) {i : ℕ} {s : S}
    {ts : List T} (hi : visited[i]? = some (s, ts)) :
    List.Forall₂ (fun u t => ∃ e, g.edges[u]? = some e ∧ e.source = i ∧
      (visited.map Prod.fst)[e.target]? = some (C.target t) ∧ e.label = C.label t ∧
        C.weight t = some e.weight) ((g.edgesBy Edge.source).getD i []) ts := by
  obtain ⟨row, hget, hrow⟩ := exists_row hvisited hrows hi
  have hfilter : (g.edges.toList.filter fun e => e.source == i) = row := by
    have h := filter_flatten Edge.source 0 (fun j row hj e he => by
      rw [Nat.zero_add]
      exact (ends_of_mem_row hvisited hrows hj he).1) hget
    rwa [Nat.zero_add, ← hedges] at h
  have hnumbers := g.forall₂_edgesBy i
  rw [hfilter] at hnumbers
  exact forall₂_through hnumbers hrow fun u e t hu ht => ⟨e, hu, ht⟩

end Edges

theorem exists_terminal {terminals : List (Terminal W)}
    (hterminals : visited.mapM C.copyTerminal = some terminals) {i : ℕ} {s : S}
    (hs : (visited.map Prod.fst)[i]? = some s) :
    ∃ terminal, terminals[i]? = some terminal ∧ C.initialWeight s = some terminal.initial ∧
      C.finalWeight s = some terminal.final := by
  obtain ⟨ts, hi, -⟩ := exists_place_of_explore hvisited hs
  obtain ⟨terminal, hget, h⟩ := exists_getElem?_of_forall₂ (forall₂_of_mapM hterminals) hi
  obtain ⟨v, hv, h⟩ := Option.bind_eq_some_iff.1 h
  obtain ⟨w, hw, h⟩ := Option.bind_eq_some_iff.1 h
  cases h
  exact ⟨⟨v, w⟩, hget, hv, hw⟩

end Copied

/-- A copy that comes about is one of what has been found. -/
theorem isCopy_of_materialize [Zero W] [BEq W] {C : Automaton Option L S T W} {budget : ℕ}
    {result : Except BuildError (Explicit L W)} (h : C.materialize budget = some result) :
    ∃ E visited, result = .ok E ∧ C.explore budget = some visited ∧
      IsCopy E C (visited.map Prod.fst) ∧ E.edges.size = (visited.flatMap Prod.snd).length := by
  rw [materialize_eq] at h
  obtain ⟨visited, hvisited, h⟩ := Option.bind_eq_some_iff.1 h
  obtain ⟨terminals, hterminals, h⟩ := Option.bind_eq_some_iff.1 h
  obtain ⟨rows, hrows, h⟩ := Option.bind_eq_some_iff.1 h
  obtain rfl := Option.some.inj h
  have hlength : terminals.length = visited.length := (forall₂_of_mapM hterminals).length_eq.symm
  obtain ⟨g, hg, hstates, hedges⟩ := Graph.addTransitions_eq_ok (Graph.ofStates terminals.toArray)
    rows.flatten fun e he => by
      obtain ⟨row, hrow, he⟩ := List.mem_flatten.1 he
      obtain ⟨i, hi⟩ := List.mem_iff_getElem?.1 hrow
      obtain ⟨-, hends⟩ := ends_of_mem_row hvisited hrows hi he
      rwa [← hlength] at hends
  change g.edges.toList = [] ++ rows.flatten at hedges
  rw [List.nil_append] at hedges
  have hterminal (i : ℕ) (s : S) (hs : (visited.map Prod.fst)[i]? = some s) (w : Terminal W → W) :
      ∃ terminal : Terminal W, g.states[i]?.elim 0 w = w terminal ∧
        C.initialWeight s = some terminal.initial ∧ C.finalWeight s = some terminal.final := by
    obtain ⟨terminal, hget, hweights⟩ := exists_terminal hvisited hterminals hs
    have hgi : g.states[i]? = some terminal := by
      rw [hstates]
      simpa [Graph.ofStates] using hget
    exact ⟨terminal, by rw [hgi]; rfl, hweights⟩
  obtain ⟨hnodup, hmem, -⟩ := explore_answered hvisited
  refine ⟨g.explicit, visited, by rw [hg]; rfl, hvisited, ⟨hnodup, hmem, ?_, ?_, ?_, ?_⟩, ?_⟩
  · change g.states.size = _
    rw [hstates, List.length_map, ← hlength]
    rfl
  · intro i s hs
    obtain ⟨terminal, hget, hinitial, -⟩ := hterminal i s hs Terminal.initial
    rw [hinitial]
    exact congrArg some hget
  · intro i s hs
    obtain ⟨terminal, hget, -, hfinal⟩ := hterminal i s hs Terminal.final
    rw [hfinal]
    exact congrArg some hget
  · intro i s hs
    obtain ⟨ts, hi, hts⟩ := exists_place_of_explore hvisited hs
    refine ⟨_, ts, rfl, hts, (forall₂_outgoing hvisited hrows hedges hi).imp fun u t => ?_⟩
    rintro ⟨e, hu, rfl, htarget, hlabel, hw⟩
    have hget {α : Type} (d : α) (f : Edge L W → α) : g.edges[u]?.elim d f = f e := by rw [hu]; rfl
    refine ⟨hget _ _, ?_, ?_, ?_⟩
    · rw [← htarget]
      exact congrArg ((visited.map Prod.fst)[·]?) (hget _ _)
    · rw [← hlabel]
      exact congrArg (Option.bind · Edge.label) hu
    · rw [hw]
      exact congrArg some (hget _ _)
  · change g.edges.size = _
    rw [← Array.length_toList, hedges, length_flatten_rows hrows]

end Automaton

end WeightedAutomata
