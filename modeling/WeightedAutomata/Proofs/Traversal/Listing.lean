import WeightedAutomata.Proofs.Totals
import WeightedAutomata.Proofs.Traversal.BreadthFirst

/-!
The lists that a traversal gives: the reachable states in topological order where one is known, else
breadth first, and the transitions that leave them.
-/
namespace WeightedAutomata

variable {L S T W : Type} [BEq S] [LawfulBEq S] [Hashable S] {order : S → S → Ordering}

namespace Sweep

variable {sweep : Sweep S T}

/-- No state is visited, or stands in the frontier, before one that comes earlier in the order. -/
structure InOrder (order : S → S → Ordering) (sweep : Sweep S T) : Prop where
  discipline : sweep.frontier.discipline = .ordered order
  lined : sweep.lined.Pairwise fun p q => (order p q).isLE

namespace InOrder

omit [LawfulBEq S] in
theorem start (order : S → S → Ordering) : (start (.ordered order) : Sweep S T).InOrder order where
  discipline := rfl
  lined := .nil

omit [LawfulBEq S] in
theorem visit (h : sweep.InOrder order) {p : S} {f : Frontier S Unit}
    (hpop : sweep.frontier.pop? = some (p, f)) (ts : List T) :
    { sweep with frontier := f, visited := (p, ts) :: sweep.visited }.InOrder order where
  discipline := (Frontier.discipline_of_pop? hpop).trans h.discipline
  lined := by
    have hlined := h.lined
    rw [Sweep.lined, Frontier.states_of_pop? hpop] at hlined
    simpa [Sweep.lined] using hlined

variable [Std.TransCmp order]

/-- A state that comes no earlier than the visited ones finds its place among the pending ones. -/
theorem discover (h : sweep.InOrder order) {s : S}
    (hs : ∀ p ∈ sweep.visited.map Prod.fst, (order p s).isLE) :
    (sweep.discover s).InOrder order where
  discipline := (discipline_discover s).trans h.discipline
  lined := by
    unfold Sweep.discover
    split
    · exact h.lined
    · obtain ⟨hvisited, hpending, hle⟩ := List.pairwise_append.1 h.lined
      have : Std.TransCmp sweep.frontier.discipline.rank := by
        rw [h.discipline]
        infer_instance
      have hsorted := ((Frontier.sorted_ordered_iff h.discipline).2 hpending).insert s ()
      refine List.pairwise_append.2 ⟨hvisited, ?_, fun p hp q hq => ?_⟩
      · exact (Frontier.sorted_ordered_iff ((Frontier.discipline_insert s ()).trans h.discipline)).1
          hsorted
      · rcases Frontier.mem_states_insert.1 hq with rfl | hq
        · rw [List.map_reverse, List.mem_reverse] at hp
          exact hs p hp
        · exact hle p hp q hq

theorem foldl_discover (h : sweep.InOrder order) {ss : List S}
    (hss : ∀ s ∈ ss, ∀ p ∈ sweep.visited.map Prod.fst, (order p s).isLE) :
    (ss.foldl Sweep.discover sweep).InOrder order := by
  induction ss generalizing sweep with
  | nil => exact h
  | cons s ss ih =>
    refine ih (h.discover (hss s List.mem_cons_self)) fun q hq => ?_
    rw [visited_discover]
    exact hss q (List.mem_cons_of_mem s hq)

end InOrder

end Sweep

namespace Automaton

variable {Q : Automaton Id L S T W} {sweep sweep' : Sweep S T}

/-- The order is a topological one: transitions lead from earlier to later states. -/
def Climbs (Q : Automaton Id L S T W) (order : S → S → Ordering) : Prop :=
  ∀ s, Q.Reachable s → ∀ t ∈ Q.leaving s,
    Q.source t = s ∧ order (Q.source t) (Q.target t) = .lt

theorem Climbs.inOrder_sweepOn [Std.TransCmp order] (hclimbs : Q.Climbs order)
    (h : sweep.InOrder order) (hs : Q.Sweeps sweep) (hnext : Q.sweepOn sweep = some sweep') :
    sweep'.InOrder order := by
  unfold Automaton.sweepOn at hnext
  obtain ⟨⟨p, f⟩, hpop, rfl⟩ := Option.map_eq_some_iff.1 hnext
  have hstates : sweep.frontier.states = p :: f.states := Frontier.states_of_pop? hpop
  have hp : Q.Reachable p := hs.reachable p <| List.mem_append_right _ <| by
    rw [hstates]
    exact List.mem_cons_self
  -- All that has been visited, `p` included, comes no later than `p`.
  have hvisited : ∀ q ∈ p :: sweep.visited.map Prod.fst, (order q p).isLE := by
    refine List.forall_mem_cons.2 ⟨?_, fun q hq => ?_⟩
    · rw [show order p p = .eq from Std.ReflCmp.compare_self]
      rfl
    · have hlined := h.lined
      rw [Sweep.lined, hstates] at hlined
      exact (List.pairwise_append.1 hlined).2.2 q (by simpa using hq) p List.mem_cons_self
  refine (h.visit hpop (Q.leaving p)).foldl_discover fun s hmem q hq => ?_
  obtain ⟨t, ht, rfl⟩ := List.mem_map.1 hmem
  obtain ⟨hsource, hlt⟩ := hclimbs p hp t ht
  refine Std.TransCmp.isLE_trans (hvisited q hq) ?_
  rw [← hsource, hlt]
  rfl

/-- The states that can be reached, through transitions of any weight, once each and nothing else. In
a known topological order the states never decrease, and where none is known they come breadth
first. -/
structure Lists (Q : Automaton Id L S T W) (states : List S) : Prop where
  nodup : states.Nodup
  mem_iff : ∀ s, s ∈ states ↔ Q.Reachable s
  ordered : ∀ order, Q.order = some order → Std.TransCmp order → Q.Climbs order →
    states.Pairwise fun p q => (order p q).isLE
  breadthFirst : Q.order = none → Q.BreadthFirst states

/-- A sweep that has come by the states in the order in which they are to be listed. -/
structure Proceeds (Q : Automaton Id L S T W) (sweep : Sweep S T) : Prop where
  sweeps : Q.Sweeps sweep
  inOrder : ∀ order, Q.order = some order → Std.TransCmp order → Q.Climbs order →
    sweep.InOrder order
  widens : Q.order = none → Q.Widens sweep

theorem proceeds_start (Q : Automaton Id L S T W) : Q.Proceeds (Q.starts.foldl Sweep.discover
    (Sweep.start ((Queue.topological : Queue Unit).discipline Q.order))) where
  sweeps := .start Q _
  inOrder order horder _ _ := by
    rw [horder]
    exact (Sweep.InOrder.start order).foldl_discover fun _ _ _ hp => by cases hp
  widens hnone := by
    rw [hnone]
    exact widens_start Q

theorem Proceeds.sweepOn (h : Q.Proceeds sweep) (hnext : Q.sweepOn sweep = some sweep') :
    Q.Proceeds sweep' where
  sweeps := (h.sweeps.sweepOn hnext).1
  inOrder order horder htrans hclimbs :=
    hclimbs.inOrder_sweepOn (h.inOrder order horder htrans hclimbs) h.sweeps hnext
  widens hnone := (h.widens hnone).sweepOn h.sweeps hnext

omit [LawfulBEq S] in
theorem Proceeds.lists (h : Q.Proceeds sweep) (hdone : Q.sweepOn sweep = none) :
    Q.Lists (sweep.visited.reverse.map Prod.fst) where
  nodup := by
    rw [List.map_reverse, List.nodup_reverse]
    exact h.sweeps.tracks.nodup.of_append_left
  mem_iff s := by
    rw [List.map_reverse, List.mem_reverse]
    exact h.sweeps.mem_visited hdone s
  ordered order horder htrans hclimbs := by
    have hlined := (h.inOrder order horder htrans hclimbs).lined
    rw [Sweep.lined] at hlined
    exact (List.pairwise_append.1 hlined).1
  breadthFirst hnone := (h.widens hnone).breadthFirst hdone

/-- Where finitely many states can be reached, a traversal with a large enough budget lists them, and
the transitions that leave them, state by state. -/
theorem Answers.exists_lists {m : Type → Type} [Monad m] [LawfulMonad m] [StepLimited m]
    {A : Automaton m L S T W} {R : S → Prop} (h : A.Answers Q R)
    (hfinite : {s | Q.Reachable s}.Finite) :
    ∃ states n, Q.Lists states ∧ ∀ budget, n ≤ budget → A.states budget = pure states ∧
      A.transitions budget = pure (states.flatMap Q.leaving) := by
  obtain ⟨n, hn⟩ := exists_atMost hfinite
  obtain ⟨sweep, -, hproceeds, hdone, hrun⟩ := h.explore_keeps hn Q.Proceeds (proceeds_start Q)
    fun _ _ _ hproceeds hnext => hproceeds.sweepOn hnext
  have hleaving : sweep.visited.reverse.flatMap Prod.snd =
      (sweep.visited.reverse.map Prod.fst).flatMap Q.leaving := by
    rw [List.flatMap_map]
    exact List.flatMap_congr fun e he => hproceeds.sweeps.leaving e (List.mem_reverse.1 he)
  refine ⟨_, n + 1, hproceeds.lists hdone, fun budget hbudget => ?_⟩
  rw [Automaton.states, Automaton.transitions, hrun budget hbudget, pure_bind, pure_bind, hleaving]
  exact ⟨rfl, rfl⟩

end Automaton

end WeightedAutomata
