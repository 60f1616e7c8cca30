import Mathlib.Order.Lattice.Nat
import WeightedAutomata.Proofs.Traversal.FirstIn

/-!
Breadth first: where no order is known, the states come by the number of transitions that it takes
to reach them. The pending states are at most one transition further away than the visited ones.
-/
namespace WeightedAutomata

variable {L S T W : Type}

namespace Automaton

variable (A : Automaton Id L S T W)

/-- The least number of transitions that lead from an initial state to `s`. -/
noncomputable def depth (s : S) : ℕ :=
  sInf {n | ∃ q ∈ A.starts, ∃ ts, A.IsPath q ts ∧ A.endpoint q ts = s ∧ ts.length = n}

/-- The states to which the transitions of some states lead, in their order. -/
def nextStates (ss : List S) : List S := ss.flatMap fun s => (A.leaving s).map A.target

/-- No state comes before one that takes fewer transitions to reach, and the states come in the order
in which they are found: the initial ones, then those to which the listed ones lead. -/
structure BreadthFirst [BEq S] (states : List S) : Prop where
  nearest : states.Pairwise fun p q => A.depth p ≤ A.depth q
  found : states = (A.starts ++ A.nextStates states).eraseDups

variable {A}

theorem depth_endpoint_le {q : S} (hq : q ∈ A.starts) {ts : List T} (hts : A.IsPath q ts) :
    A.depth (A.endpoint q ts) ≤ ts.length :=
  Nat.sInf_le ⟨q, hq, ts, hts, rfl, rfl⟩

theorem Reachable.exists_path_depth {s : S} (hs : A.Reachable s) :
    ∃ q ∈ A.starts, ∃ ts, A.IsPath q ts ∧ A.endpoint q ts = s ∧ ts.length = A.depth s := by
  obtain ⟨q, hq, ts, hts, hend⟩ := hs.exists_path
  exact Nat.sInf_mem
    (s := {n | ∃ q ∈ A.starts, ∃ ts, A.IsPath q ts ∧ A.endpoint q ts = s ∧ ts.length = n})
    ⟨ts.length, q, hq, ts, hts, hend, rfl⟩

theorem Reachable.depth_target_le {s : S} (hs : A.Reachable s) {t : T} (ht : t ∈ A.leaving s) :
    A.depth (A.target t) ≤ A.depth s + 1 := by
  obtain ⟨q, hq, ts, hts, rfl, hlength⟩ := hs.exists_path_depth
  have hpath : A.IsPath q (ts ++ [t]) := isPath_append.2 ⟨hts, ht, trivial⟩
  have hle := depth_endpoint_le hq hpath
  rw [endpoint_append, List.length_append, hlength] at hle
  exact hle

/-- A state is initial, or a shortest path to it ends with a transition from a nearer state. -/
theorem Reachable.mem_starts_or_exists_nearer {s : S} (hs : A.Reachable s) :
    s ∈ A.starts ∨ ∃ p t, A.Reachable p ∧ t ∈ A.leaving p ∧ A.target t = s ∧
      A.depth p < A.depth s := by
  obtain ⟨q, hq, ts, hts, rfl, hlength⟩ := hs.exists_path_depth
  rcases List.eq_nil_or_concat ts with rfl | ⟨us, t, rfl⟩
  · exact .inl hq
  · rw [List.concat_eq_append] at hts hlength ⊢
    obtain ⟨hus, ht, -⟩ := isPath_append.1 hts
    have hle := depth_endpoint_le hq hus
    rw [List.length_append, List.length_singleton] at hlength
    refine .inr ⟨_, t, A.closed_reachable.endpoint (.start hq) hus, ht, ?_, by omega⟩
    rw [endpoint_append]
    rfl

end Automaton

variable [BEq S] [LawfulBEq S] [Hashable S]

namespace Automaton

variable {Q : Automaton Id L S T W} {sweep sweep' : Sweep S T} {p : S} {f : Frontier S Unit}

/-- A sweep in whose line no state is nearer than one before it, and none more than one transition
further away than a pending one. -/
structure Widens (Q : Automaton Id L S T W) (sweep : Sweep S T) : Prop where
  lines : sweep.Lines (Q.starts ++ Q.nextStates (sweep.visited.reverse.map Prod.fst))
  nearest : sweep.lined.Pairwise fun p q => Q.depth p ≤ Q.depth q
  span : ∀ p ∈ sweep.frontier.states, ∀ q ∈ sweep.lined, Q.depth q ≤ Q.depth p + 1

theorem widens_start (Q : Automaton Id L S T W) :
    Q.Widens (Q.starts.foldl Sweep.discover (Sweep.start .fifo)) := by
  have hlines := Sweep.lines_start (T := T) Q.starts
  have hdepth {s : S} (hs : s ∈ (Q.starts.foldl Sweep.discover
      (Sweep.start .fifo : Sweep S T)).lined) : Q.depth s = 0 := by
    rw [hlines.lined, List.mem_eraseDups] at hs
    have hpath : Q.IsPath s [] := trivial
    exact Nat.le_zero.1 (depth_endpoint_le hs hpath)
  refine ⟨?_, List.pairwise_iff_forall_sublist.2 fun {p q} hpq => ?_, fun p _ q hq => ?_⟩
  · rw [Sweep.visited_foldl_discover]
    exact (List.append_nil Q.starts).symm ▸ hlines
  · rw [hdepth (hpq.subset List.mem_cons_self)]
    exact Nat.zero_le _
  · rw [hdepth hq]
    exact Nat.zero_le _

section Popped

variable (hw : Q.Widens sweep) (hpop : sweep.frontier.pop? = some (p, f))
include hw hpop

omit [LawfulBEq S] in
theorem Widens.depth_le {q : S} (hq : q ∈ f.states) : Q.depth p ≤ Q.depth q := by
  have hnearest := hw.nearest
  rw [Sweep.lined, Frontier.states_of_pop? hpop] at hnearest
  exact List.rel_of_pairwise_cons (List.pairwise_append.1 hnearest).2.1 hq

variable (hs : Q.Sweeps sweep)
include hs

omit [LawfulBEq S] in
/-- What is nearer than the next state has been visited. -/
theorem Widens.mem_visited {s : S} (hr : Q.Reachable s) (hlt : Q.depth s < Q.depth p) :
    s ∈ sweep.visited.map Prod.fst := by
  induction hn : Q.depth s using Nat.strongRecOn generalizing s with
  | ind n ih =>
    subst hn
    have hfound : s ∈ sweep.found := by
      rcases hr.mem_starts_or_exists_nearer with hstart | ⟨q, t, hq, ht, rfl, hdepth⟩
      · exact hs.starts s hstart
      · obtain ⟨e, he, rfl⟩ := List.mem_map.1 (ih _ hdepth hq (hdepth.trans hlt) rfl)
        exact hs.targets e he t (by rwa [hs.leaving e he])
    refine (List.mem_append.1 hfound).resolve_right fun hpending => ?_
    rw [Frontier.states_of_pop? hpop] at hpending
    rcases List.mem_cons.1 hpending with rfl | hpending
    · exact Nat.lt_irrefl _ hlt
    · exact absurd (hw.depth_le hpop hpending) (Nat.not_le.2 hlt)

omit [LawfulBEq S] in
/-- What the next state leads to for the first time is one transition further away. -/
theorem Widens.depth_target {t : T} (ht : t ∈ Q.leaving p) (hnew : Q.target t ∉ sweep.found) :
    Q.depth (Q.target t) = Q.depth p + 1 := by
  have hp : Q.Reachable p := hs.reachable p <| List.mem_append_right _ <| by
    rw [Frontier.states_of_pop? hpop]
    exact List.mem_cons_self
  refine Nat.le_antisymm (hp.depth_target_le ht) (Nat.succ_le_of_lt ?_)
  by_contra! hle
  rcases (hp.step ht).mem_starts_or_exists_nearer with hstart | ⟨q, u, hq, hu, htarget, hdepth⟩
  · exact hnew (hs.starts _ hstart)
  · obtain ⟨e, he, rfl⟩ := List.mem_map.1 (hw.mem_visited hpop hs hq (by omega))
    exact hnew (htarget ▸ hs.targets e he u (by rwa [hs.leaving e he]))

end Popped

theorem Widens.sweepOn (hw : Q.Widens sweep) (hs : Q.Sweeps sweep)
    (hnext : Q.sweepOn sweep = some sweep') : Q.Widens sweep' := by
  unfold Automaton.sweepOn at hnext
  obtain ⟨⟨p, f⟩, hpop, rfl⟩ := Option.map_eq_some_iff.1 hnext
  set targets := (Q.leaving p).map Q.target with htargets
  have hvisit := hw.lines.visit hpop (Q.leaving p)
  have hlines := hvisit.foldl_discover targets
  obtain ⟨new, hlined, hnew⟩ := hvisit.exists_lined_eq_append targets
  have hvisited := Sweep.visited_foldl_discover targets
    { sweep with frontier := f, visited := (p, Q.leaving p) :: sweep.visited }
  dsimp only at hlines hlined hvisited hnew ⊢
  generalize targets.foldl Sweep.discover _ = sweep' at hlines hlined hvisited ⊢
  have hfound (s : S) := (hs.tracks.visit hpop (Q.leaving p)).2 s
  have hline : sweep.lined = sweep.visited.reverse.map Prod.fst ++ p :: f.states := by
    rw [Sweep.lined, Frontier.states_of_pop? hpop]
  have hlined : sweep'.lined = sweep.lined ++ new := by
    rw [hlined, hline]
    simp [Sweep.lined]
  have hstates : sweep'.frontier.states = f.states ++ new := by
    rw [hline, Sweep.lined, hvisited] at hlined
    simpa using hlined
  have hdepth (s : S) (hmem : s ∈ new) : Q.depth s = Q.depth p + 1 := by
    obtain ⟨hmem, hnot⟩ := hnew s hmem
    obtain ⟨t, ht, rfl⟩ := List.mem_map.1 hmem
    exact hw.depth_target hpop hs ht fun hmem => hnot ((hfound _).2 hmem)
  have hspan (s : S) (hmem : s ∈ sweep.lined) : Q.depth s ≤ Q.depth p + 1 :=
    hw.span p (by rw [Frontier.states_of_pop? hpop]; exact List.mem_cons_self) s hmem
  refine ⟨?_, ?_, fun s hmem q hq => ?_⟩
  · rw [hvisited]
    simpa [nextStates, List.append_assoc] using hlines
  · rw [hlined]
    refine List.pairwise_append.2 ⟨hw.nearest, ?_, fun s hmem q hq => ?_⟩
    · exact List.pairwise_iff_forall_sublist.2 fun {a b} hab => by
        rw [hdepth a (hab.subset (by simp)), hdepth b (hab.subset (by simp))]
    · rw [hdepth q hq]
      exact hspan s hmem
  · have hle : Q.depth q ≤ Q.depth p + 1 := by
      rw [hlined] at hq
      rcases List.mem_append.1 hq with hq | hq
      · exact hspan q hq
      · exact (hdepth q hq).le
    have hge : Q.depth p ≤ Q.depth s := by
      rw [hstates] at hmem
      rcases List.mem_append.1 hmem with hmem | hmem
      · exact hw.depth_le hpop hmem
      · rw [hdepth s hmem]
        exact Nat.le_succ _
    omega

omit [LawfulBEq S] in
/-- When no state is pending, the visited ones have come breadth first. -/
theorem Widens.breadthFirst (hw : Q.Widens sweep) (hdone : Q.sweepOn sweep = none) :
    Q.BreadthFirst (sweep.visited.reverse.map Prod.fst) := by
  have hempty : sweep.frontier.states = [] := Frontier.pop?_eq_none (Option.map_eq_none_iff.1 hdone)
  have hlined : sweep.lined = sweep.visited.reverse.map Prod.fst := by
    rw [Sweep.lined, hempty, List.append_nil]
  exact ⟨hlined ▸ hw.nearest, hlined.symm.trans hw.lines.lined⟩

end Automaton

end WeightedAutomata
