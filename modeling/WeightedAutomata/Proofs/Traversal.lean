import Mathlib.Data.Finset.Dedup
import Mathlib.Data.List.Perm.Subperm
import Mathlib.Data.Set.Finite.Basic
import WeightedAutomata.Proofs.Answers
import WeightedAutomata.Proofs.Frontier
import WeightedAutomata.Proofs.Loop
import WeightedAutomata.Proofs.Paths.Complete

/-!
A traversal finds exactly the reachable states, each once, whatever the order of the frontier.
-/
namespace WeightedAutomata

variable {m : Type → Type} {L S T W : Type} [BEq S] [LawfulBEq S] [Hashable S]

namespace Sweep

variable {sweep : Sweep S T}

/-- The visited and the pending states: those that have been seen. -/
def found (sweep : Sweep S T) : List S := sweep.visited.map Prod.fst ++ sweep.frontier.states

/-- The states seen are the visited and the pending ones, each found once. -/
structure Tracks (sweep : Sweep S T) : Prop where
  nodup : sweep.found.Nodup
  mem_seen : ∀ s, s ∈ sweep.seen ↔ s ∈ sweep.found

omit [LawfulBEq S] in
theorem tracks_start (discipline : Discipline S Unit) : (start discipline : Sweep S T).Tracks where
  nodup := List.nodup_nil
  mem_seen s := by simp [start, found]

omit [LawfulBEq S] in
theorem visited_discover (s : S) : (sweep.discover s).visited = sweep.visited := by
  unfold discover
  split <;> rfl

omit [LawfulBEq S] in
theorem visited_foldl_discover (qs : List S) (sweep : Sweep S T) :
    (qs.foldl Sweep.discover sweep).visited = sweep.visited := by
  induction qs generalizing sweep with
  | nil => rfl
  | cons s qs ih => rw [List.foldl_cons, ih, visited_discover]

theorem Tracks.discover (h : sweep.Tracks) (s : S) :
    (sweep.discover s).Tracks ∧ ∀ q, q ∈ (sweep.discover s).found ↔ q = s ∨ q ∈ sweep.found := by
  unfold Sweep.discover
  by_cases hs : sweep.seen.contains s = true
  · rw [if_pos hs]
    have hfound : s ∈ sweep.found := (h.mem_seen s).1 (Std.HashSet.contains_iff_mem.1 hs)
    refine ⟨h, fun q => ⟨.inr, ?_⟩⟩
    rintro (rfl | hq)
    · exact hfound
    · exact hq
  · rw [if_neg hs]
    have hfound : s ∉ sweep.found := fun hmem =>
      hs (Std.HashSet.contains_iff_mem.2 ((h.mem_seen s).2 hmem))
    have hperm := (sweep.frontier.states_insert_perm s ()).trans
      (List.Perm.of_eq (List.insert_of_not_mem fun hmem =>
        hfound (List.mem_append.2 (.inr hmem))))
    have hall : (sweep.visited.map Prod.fst ++ (sweep.frontier.insert s ()).states).Perm
        (s :: sweep.found) := (hperm.append_left _).trans List.perm_middle
    refine ⟨⟨hall.nodup_iff.2 (List.nodup_cons.2 ⟨hfound, h.nodup⟩), fun q => ?_⟩, fun q => ?_⟩
    · have hmem := hall.mem_iff (a := q)
      rw [List.mem_cons, ← h.mem_seen] at hmem
      rw [Std.HashSet.mem_insert, beq_iff_eq, eq_comm]
      exact hmem.symm
    · exact hall.mem_iff.trans List.mem_cons

omit [LawfulBEq S] in
/-- The next state is visited, and leaves the frontier. -/
theorem Tracks.visit (h : sweep.Tracks) {p : S} {f : Frontier S Unit}
    (hpop : sweep.frontier.pop? = some (p, f)) (ts : List T) :
    let visit := { sweep with frontier := f, visited := (p, ts) :: sweep.visited }
    visit.Tracks ∧ ∀ s, s ∈ visit.found ↔ s ∈ sweep.found := by
  have hperm : ((p :: sweep.visited.map Prod.fst) ++ f.states).Perm sweep.found := by
    rw [found, Frontier.states_of_pop? hpop]
    exact List.perm_middle.symm
  exact ⟨⟨hperm.nodup_iff.2 h.nodup, fun s => (h.mem_seen s).trans hperm.mem_iff.symm⟩,
    fun s => hperm.mem_iff⟩

theorem Tracks.foldl_discover (h : sweep.Tracks) (qs : List S) :
    (qs.foldl Sweep.discover sweep).Tracks ∧
      ∀ q, q ∈ (qs.foldl Sweep.discover sweep).found ↔ q ∈ qs ∨ q ∈ sweep.found := by
  induction qs generalizing sweep with
  | nil => exact ⟨h, fun q => by simp⟩
  | cons s qs ih =>
    obtain ⟨hone, hmem⟩ := h.discover s
    obtain ⟨hrest, hmem'⟩ := ih hone
    constructor
    · exact hrest
    · intro q
      rw [List.foldl_cons, hmem', hmem, List.mem_cons]
      tauto

end Sweep

namespace Automaton

/-- The next sweep, none if no state is pending. -/
def sweepOn (Q : Automaton Id L S T W) (sweep : Sweep S T) : Option (Sweep S T) :=
  sweep.frontier.pop?.map fun (state, frontier) =>
    ((Q.leaving state).map Q.target).foldl Sweep.discover
      { sweep with frontier, visited := (state, Q.leaving state) :: sweep.visited }

/-- A sweep that has found reachable states only, and all that the visited ones lead to. -/
structure Sweeps (Q : Automaton Id L S T W) (sweep : Sweep S T) : Prop where
  tracks : sweep.Tracks
  reachable : ∀ s ∈ sweep.found, Q.Reachable s
  starts : ∀ s ∈ Q.starts, s ∈ sweep.found
  leaving : ∀ e ∈ sweep.visited, e.2 = Q.leaving e.1
  targets : ∀ e ∈ sweep.visited, ∀ t ∈ e.2, Q.target t ∈ sweep.found

namespace Sweeps

variable {Q : Automaton Id L S T W} {sweep sweep' : Sweep S T}

theorem start (Q : Automaton Id L S T W) (discipline : Discipline S Unit) :
    Q.Sweeps (Q.starts.foldl Sweep.discover (Sweep.start discipline)) := by
  obtain ⟨htracks, hmem⟩ := (Sweep.tracks_start (T := T) discipline).foldl_discover Q.starts
  have hnone : (Sweep.start (T := T) discipline).found = [] := rfl
  simp only [hnone, List.not_mem_nil, or_false] at hmem
  refine ⟨htracks, fun s hs => .start ((hmem s).1 hs), fun s hs => (hmem s).2 hs, ?_, ?_⟩
  · rw [Sweep.visited_foldl_discover]
    nofun
  · rw [Sweep.visited_foldl_discover]
    nofun

theorem sweepOn (h : Q.Sweeps sweep) (hnext : Q.sweepOn sweep = some sweep') :
    Q.Sweeps sweep' ∧ sweep'.visited.length = sweep.visited.length + 1 := by
  unfold Automaton.sweepOn at hnext
  obtain ⟨⟨p, f⟩, hpop, rfl⟩ := Option.map_eq_some_iff.1 hnext
  let visit : Sweep S T :=
    { sweep with frontier := f, visited := (p, Q.leaving p) :: sweep.visited }
  obtain ⟨hvisit, hfound⟩ := h.tracks.visit hpop (Q.leaving p)
  have hp : Q.Reachable p := h.reachable p ((hfound p).1 List.mem_cons_self)
  obtain ⟨htracks, hmem⟩ := hvisit.foldl_discover ((Q.leaving p).map Q.target)
  have hvisited := Sweep.visited_foldl_discover ((Q.leaving p).map Q.target) visit
  have hold (s : S) (hs : s ∈ sweep.found) := (hmem s).2 (.inr ((hfound s).2 hs))
  refine ⟨⟨htracks, fun s hs => ?_, fun s hs => hold s (h.starts s hs), ?_, ?_⟩,
    congrArg List.length hvisited⟩
  · rcases (hmem s).1 hs with hs | hs
    · obtain ⟨t, ht, rfl⟩ := List.mem_map.1 hs
      exact hp.step ht
    · exact h.reachable s ((hfound s).1 hs)
  · intro e he
    rw [hvisited] at he
    rcases List.mem_cons.1 he with rfl | he
    · rfl
    · exact h.leaving e he
  · intro e he t ht
    rw [hvisited] at he
    rcases List.mem_cons.1 he with rfl | he
    · exact (hmem _).2 (.inl (List.mem_map.2 ⟨t, ht, rfl⟩))
    · exact hold _ (h.targets e he t ht)

omit [LawfulBEq S] in
/-- When no state is pending, the visited states are the reachable ones. -/
theorem mem_visited (h : Q.Sweeps sweep) (hdone : Q.sweepOn sweep = none) (s : S) :
    s ∈ sweep.visited.map Prod.fst ↔ Q.Reachable s := by
  have hempty : sweep.frontier.states = [] := Frontier.pop?_eq_none (Option.map_eq_none_iff.1 hdone)
  have hfound : sweep.found = sweep.visited.map Prod.fst := by simp [Sweep.found, hempty]
  rw [← hfound]
  constructor
  · exact h.reachable s
  · intro hs
    induction hs with
    | start hs => exact h.starts _ hs
    | @step p t _ ht ih =>
      rw [hfound] at ih
      obtain ⟨e, he, rfl⟩ := List.mem_map.1 ih
      exact h.targets e he t (by rwa [h.leaving e he])

end Sweeps

omit [LawfulBEq S] in
theorem sweepOn_of_visitNext {A : Automaton Option L S T W} {Q : Automaton Id L S T W}
    (houtgoing : ∀ s ts, A.outgoing s = some ts → ts = Q.leaving s) (htarget : A.target = Q.target)
    {sweep : Sweep S T} {next : Option (Sweep S T)} (h : A.visitNext sweep = some next) :
    Q.sweepOn sweep = next ∧ ∀ sweep' ∈ next, ∀ e ∈ sweep'.visited,
      e ∈ sweep.visited ∨ A.outgoing e.1 = some e.2 := by
  unfold visitNext at h
  unfold sweepOn
  cases hpop : sweep.frontier.pop? with
  | none =>
    simp only [hpop] at h
    cases h
    exact ⟨rfl, nofun⟩
  | some popped =>
    obtain ⟨p, f⟩ := popped
    simp only [hpop] at h
    obtain ⟨ts, hts, h⟩ := Option.bind_eq_some_iff.1 h
    cases h
    obtain rfl := houtgoing p ts hts
    rw [htarget]
    constructor
    · rfl
    · intro sweep' hsweep' e he
      cases hsweep'
      rw [Sweep.visited_foldl_discover] at he
      rcases List.mem_cons.1 he with rfl | he
      · exact .inr hts
      · exact .inl he

/-- A traversal that has come to an end lists the reachable states once each, with the transitions
that it has asked for. -/
theorem explore_spec {A : Automaton Option L S T W} {Q : Automaton Id L S T W}
    (hstarts : ∀ ss, A.initialStates = some ss → ss = Q.starts)
    (houtgoing : ∀ s ts, A.outgoing s = some ts → ts = Q.leaving s) (htarget : A.target = Q.target)
    {budget : ℕ} {visited : List (S × List T)} (h : A.explore budget = some visited) :
    (visited.map Prod.fst).Nodup ∧ (∀ s, s ∈ visited.map Prod.fst ↔ Q.Reachable s) ∧
      ∀ e ∈ visited, A.outgoing e.1 = some e.2 := by
  unfold explore at h
  obtain ⟨ss, hss, h⟩ := Option.bind_eq_some_iff.1 h
  obtain ⟨sweep, hsweep, h⟩ := Option.bind_eq_some_iff.1 h
  obtain rfl := Option.some.inj h
  rw [hstarts ss hss] at hsweep
  have hnew : ∀ e ∈ (Q.starts.foldl Sweep.discover
      (Sweep.start (Queue.topological.discipline A.order) : Sweep S T)).visited,
      A.outgoing e.1 = some e.2 := by
    rw [Sweep.visited_foldl_discover]
    nofun
  let inv (sweep : Sweep S T) : Prop :=
    Q.Sweeps sweep ∧ ∀ e ∈ sweep.visited, A.outgoing e.1 = some e.2
  have hkeep : ∀ sweep sweep', inv sweep → A.visitNext sweep = some (some sweep') → inv sweep' := by
    rintro sweep sweep' ⟨hs, hasked⟩ hnext
    obtain ⟨heq, hvisited⟩ := sweepOn_of_visitNext houtgoing htarget hnext
    refine ⟨(hs.sweepOn heq).1, fun e he => ?_⟩
    rcases hvisited sweep' rfl e he with he | he
    · exact hasked e he
    · exact he
  obtain ⟨⟨hsweeps, hasked⟩, hdone⟩ := untilDone_keeps hkeep ⟨Sweeps.start Q _, hnew⟩ hsweep
  obtain ⟨hnone, -⟩ := sweepOn_of_visitNext houtgoing htarget hdone
  refine ⟨?_, fun s => ?_, fun e he => hasked e (List.mem_reverse.1 he)⟩
  · rw [List.map_reverse, List.nodup_reverse]
    exact hsweeps.tracks.nodup.of_append_left
  · rw [List.map_reverse, List.mem_reverse]
    exact hsweeps.mem_visited hnone s

/-- A traversal that has come to an end has asked for the transitions of every reachable state. -/
theorem outgoing_isSome_of_explore {A : Automaton Option L S T W} {Q : Automaton Id L S T W}
    (hstarts : ∀ ss, A.initialStates = some ss → ss = Q.starts)
    (houtgoing : ∀ s ts, A.outgoing s = some ts → ts = Q.leaving s) (htarget : A.target = Q.target)
    {budget : ℕ} {visited : List (S × List T)} (h : A.explore budget = some visited) {s : S}
    (hs : Q.Reachable s) : (A.outgoing s).isSome := by
  obtain ⟨-, hmem, hasked⟩ := explore_spec hstarts houtgoing htarget h
  obtain ⟨e, he, rfl⟩ := List.mem_map.1 ((hmem s).2 hs)
  rw [hasked e he]
  rfl

/-- The automaton has at most `n` reachable states. -/
def AtMost (Q : Automaton Id L S T W) (n : ℕ) : Prop :=
  ∀ l : List S, l.Nodup → (∀ s ∈ l, Q.Reachable s) → l.length ≤ n

omit [BEq S] [LawfulBEq S] [Hashable S] in
theorem AtMost.finite {Q : Automaton Id L S T W} {n : ℕ} (h : Q.AtMost n) :
    {s | Q.Reachable s}.Finite := by
  by_contra hinfinite
  obtain ⟨F, hF, hcard⟩ := Set.Infinite.exists_subset_card_eq hinfinite (n + 1)
  have hle := h F.toList F.nodup_toList fun s hs => hF (Finset.mem_toList.1 hs)
  rw [Finset.length_toList, hcard] at hle
  exact Nat.not_succ_le_self n hle

omit [BEq S] [LawfulBEq S] [Hashable S] in
theorem Bounded.length_paths_le {Q : Automaton Id L S T W} {R : S → Prop} {size : S → ℕ}
    (hb : Q.Bounded R size) (n : ℕ) {s : S} (hs : R s) : (Q.paths n s).length ≤ size s := by
  induction n generalizing s with
  | zero => exact Nat.zero_le _
  | succ n ih =>
    have hsum : ((Q.leaving s).map fun t => (Q.paths n (Q.target t)).length).sum ≤
        ((Q.leaving s).map fun t => size (Q.target t)).sum :=
      List.sum_le_sum fun t ht => ih (hb.closed s hs t ht)
    have hlt := hb.sum_lt s hs
    simp only [paths, List.length_cons, List.length_flatMap, List.length_map]
    omega

omit [BEq S] [LawfulBEq S] [Hashable S] in
/-- Every reachable state is the end of one of the bounded number of paths. -/
theorem Bounded.atMost {Q : Automaton Id L S T W} {size : S → ℕ} (hb : Q.Bounded Q.Reachable size) :
    Q.AtMost (Q.starts.map size).sum := by
  let ends (s : S) : List S := (Q.paths (size s) s).map (Q.endpoint s)
  have hends : ∀ s, Q.Reachable s → s ∈ Q.starts.flatMap ends := by
    intro s hs
    obtain ⟨q, hq, ts, hts, rfl⟩ := hs.exists_path
    have hlt := hb.length_lt (.start hq) hts
    exact List.mem_flatMap.2 ⟨q, hq, List.mem_map.2 ⟨ts, mem_paths.2 ⟨hts, hlt⟩, rfl⟩⟩
  intro l hl hr
  have hle : l.length ≤ (Q.starts.flatMap ends).length :=
    (List.subperm_of_subset hl fun s hs => hends s (hr s hs)).length_le
  apply hle.trans
  rw [List.length_flatMap]
  apply List.sum_le_sum
  intro s hs
  rw [List.length_map]
  exact hb.length_paths_le _ (.start hs)

variable [Monad m] [LawfulMonad m] [StepLimited m]

omit [LawfulBEq S] [StepLimited m] in
theorem Answers.visitNext {A : Automaton m L S T W} {Q : Automaton Id L S T W} {R : S → Prop}
    (h : A.Answers Q R) {sweep : Sweep S T} (hs : Q.Sweeps sweep) :
    A.visitNext sweep = pure (Q.sweepOn sweep) := by
  unfold Automaton.visitNext Automaton.sweepOn
  cases hpop : sweep.frontier.pop? with
  | none => rfl
  | some next =>
    obtain ⟨p, f⟩ := next
    have hp : Q.Reachable p := hs.reachable p
      (List.mem_append.2 (.inr (by simp [Frontier.states_of_pop? hpop])))
    simp only [h.outgoing p (h.reachable hp), pure_bind, h.target, Option.map_some]

/-- What every step of a traversal keeps holds where it ends, if there are at most `n` reachable
states. -/
theorem Answers.explore_keeps {A : Automaton m L S T W} {Q : Automaton Id L S T W} {R : S → Prop}
    (h : A.Answers Q R) {n : ℕ} (hn : Q.AtMost n) (Keeps : Sweep S T → Prop)
    (hstart : Keeps (Q.starts.foldl Sweep.discover
      (Sweep.start ((Queue.topological : Queue Unit).discipline Q.order))))
    (hkeep : ∀ sweep sweep', Q.Sweeps sweep → Keeps sweep → Q.sweepOn sweep = some sweep' →
      Keeps sweep') :
    ∃ sweep, Q.Sweeps sweep ∧ Keeps sweep ∧ Q.sweepOn sweep = none ∧
      ∀ budget, n < budget → A.explore budget = pure sweep.visited.reverse := by
  have hlength {sweep : Sweep S T} (hs : Q.Sweeps sweep) : sweep.visited.length ≤ n := by
    have hle := hn (sweep.visited.map Prod.fst) hs.tracks.nodup.of_append_left
      fun s hmem => hs.reachable s (List.mem_append_left _ hmem)
    rwa [List.length_map] at hle
  obtain ⟨sweep, ⟨hs, hkept⟩, hdone, hrun⟩ := untilDone_eq_pure A.visitNext Q.sweepOn
    (fun sweep => Q.Sweeps sweep ∧ Keeps sweep) (fun sweep => n - sweep.visited.length)
    (fun sweep hs => h.visitNext hs.1)
    (fun sweep sweep' hs hnext => by
      obtain ⟨hs', hlen⟩ := hs.1.sweepOn hnext
      have hle := hlength hs'
      exact ⟨⟨hs', hkeep sweep sweep' hs.1 hs.2 hnext⟩, by omega⟩) ⟨Sweeps.start Q _, hstart⟩
  refine ⟨sweep, hs, hkept, hdone, fun budget hbudget => ?_⟩
  have hrun := hrun budget (lt_of_le_of_lt (Nat.sub_le _ _) hbudget)
  unfold Automaton.explore
  rw [h.initialStates, pure_bind, h.order]
  change (do return (← untilDone A.visitNext budget (Q.starts.foldl Sweep.discover
    (Sweep.start ((Queue.topological : Queue Unit).discipline Q.order)))).visited.reverse) = _
  rw [hrun, pure_bind]

theorem Answers.explore_eq {A : Automaton m L S T W} {Q : Automaton Id L S T W} {R : S → Prop}
    (h : A.Answers Q R) {n : ℕ} (hn : Q.AtMost n) :
    ∃ visited : List (S × List T), (visited.map Prod.fst).Nodup ∧
      (∀ s, s ∈ visited.map Prod.fst ↔ Q.Reachable s) ∧
      (∀ e ∈ visited, e.2 = Q.leaving e.1) ∧
      ∀ budget, n < budget → A.explore budget = pure visited := by
  obtain ⟨sweep, hs, -, hdone, hrun⟩ := h.explore_keeps hn (fun _ => True) trivial
    fun _ _ _ _ _ => trivial
  refine ⟨sweep.visited.reverse, ?_, fun s => ?_, fun e he => ?_, hrun⟩
  · rw [List.map_reverse, List.nodup_reverse]
    exact hs.tracks.nodup.of_append_left
  · rw [List.map_reverse, List.mem_reverse]
    exact hs.mem_visited hdone s
  · exact hs.leaving e (List.mem_reverse.1 he)

theorem Answers.states_eq {A : Automaton m L S T W} {Q : Automaton Id L S T W} {R : S → Prop}
    (h : A.Answers Q R) {n : ℕ} (hn : Q.AtMost n) :
    ∃ states : List S, states.Nodup ∧ (∀ s, s ∈ states ↔ Q.Reachable s) ∧
      ∀ budget, n < budget → A.states budget = pure states := by
  obtain ⟨visited, hnodup, hmem, -, hrun⟩ := h.explore_eq hn
  refine ⟨visited.map Prod.fst, hnodup, hmem, fun budget hbudget => ?_⟩
  rw [states, hrun budget hbudget, pure_bind]

end Automaton

end WeightedAutomata
