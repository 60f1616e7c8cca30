import WeightedAutomata.Proofs.Traversal

/-!
First in, first out: a traversal in no particular order comes by the states in the order in which
they are found, the initial states first.
-/
namespace WeightedAutomata

variable {L S T W : Type} [BEq S] [LawfulBEq S]

theorem eraseDups_concat (ss : List S) (s : S) :
    (ss ++ [s]).eraseDups = if s ∈ ss then ss.eraseDups else ss.eraseDups ++ [s] := by
  rw [List.eraseDups_append]
  by_cases hs : s ∈ ss <;> simp [List.removeAll, List.eraseDups_cons, hs]

theorem eraseDups_of_nodup {ss : List S} (h : ss.Nodup) : ss.eraseDups = ss := by
  induction ss using List.reverseRecOn with
  | nil => rfl
  | append_singleton ss s ih =>
    obtain ⟨hss, -, hs⟩ := List.nodup_append.1 h
    have hnew : s ∉ ss := fun hmem => hs s hmem s (List.mem_singleton_self s) rfl
    rw [eraseDups_concat, if_neg hnew, ih hss]

variable [Hashable S]

namespace Sweep

variable {sweep : Sweep S T}

/-- The states found, in the order in which they have been seen. -/
def lined (sweep : Sweep S T) : List S :=
  sweep.visited.reverse.map Prod.fst ++ sweep.frontier.states

omit [LawfulBEq S] in
theorem mem_lined {s : S} : s ∈ sweep.lined ↔ s ∈ sweep.found := by simp [lined, found]

omit [LawfulBEq S] in
theorem discipline_discover (s : S) :
    (sweep.discover s).frontier.discipline = sweep.frontier.discipline := by
  unfold discover
  split
  · rfl
  · exact Frontier.discipline_insert s ()

/-- A new state goes to the end of the line. -/
theorem Tracks.lined_discover (h : sweep.Tracks) (hfifo : sweep.frontier.discipline = .fifo) (s : S) :
    (sweep.discover s).lined = if s ∈ sweep.lined then sweep.lined else sweep.lined ++ [s] := by
  have hseen : sweep.seen.contains s = true ↔ s ∈ sweep.lined := by
    rw [Std.HashSet.contains_iff_mem, h.mem_seen, mem_lined]
  unfold Sweep.discover
  split
  · next hs => rw [if_pos (hseen.1 hs)]
  · next hs =>
    have hnew : s ∉ sweep.lined := fun hmem => hs (hseen.2 hmem)
    rw [if_neg hnew, lined, lined,
      Frontier.states_insert_fifo hfifo (fun hmem => hnew (List.mem_append_right _ hmem)),
      List.append_assoc]

/-- The states stand in the order in which they have come up first. -/
structure Lines (finds : List S) (sweep : Sweep S T) : Prop where
  tracks : sweep.Tracks
  fifo : sweep.frontier.discipline = .fifo
  lined : sweep.lined = finds.eraseDups

namespace Lines

variable {finds : List S}

theorem discover (h : sweep.Lines finds) (s : S) : (sweep.discover s).Lines (finds ++ [s]) where
  tracks := (h.tracks.discover s).1
  fifo := (discipline_discover s).trans h.fifo
  lined := by
    rw [h.tracks.lined_discover h.fifo, eraseDups_concat, h.lined]
    simp only [List.mem_eraseDups]

theorem foldl_discover (h : sweep.Lines finds) (ss : List S) :
    (ss.foldl Sweep.discover sweep).Lines (finds ++ ss) := by
  induction ss generalizing sweep finds with
  | nil => rwa [List.append_nil]
  | cons s ss ih =>
    rw [← List.singleton_append, ← List.append_assoc]
    exact ih (h.discover s)

/-- What is seen for the first time is added to the line. -/
theorem exists_lined_eq_append (h : sweep.Lines finds) (ss : List S) :
    ∃ new, (ss.foldl Sweep.discover sweep).lined = sweep.lined ++ new ∧
      ∀ q ∈ new, q ∈ ss ∧ q ∉ sweep.found := by
  refine ⟨(ss.removeAll finds).eraseDups, ?_, fun q hq => ?_⟩
  · rw [(h.foldl_discover ss).lined, List.eraseDups_append, h.lined]
  · rw [List.mem_eraseDups, List.removeAll, List.mem_filter] at hq
    rw [← mem_lined, h.lined, List.mem_eraseDups]
    simpa using hq

omit [LawfulBEq S] in
theorem visit (h : sweep.Lines finds) {p : S} {f : Frontier S Unit}
    (hpop : sweep.frontier.pop? = some (p, f)) (ts : List T) :
    { sweep with frontier := f, visited := (p, ts) :: sweep.visited }.Lines finds where
  tracks := (h.tracks.visit hpop ts).1
  fifo := (Frontier.discipline_of_pop? hpop).trans h.fifo
  lined := by
    rw [← h.lined, Sweep.lined, Sweep.lined, Frontier.states_of_pop? hpop]
    simp

end Lines

/-- At first the states in line are the initial ones. -/
theorem lines_start (starts : List S) :
    (starts.foldl Sweep.discover (start .fifo : Sweep S T)).Lines starts := by
  have hnone : (start .fifo : Sweep S T).Lines [] := ⟨tracks_start _, rfl, rfl⟩
  exact hnone.foldl_discover starts

end Sweep

namespace Automaton

variable {C : Automaton Option L S T W}

theorem visitNext_lines {finds : List S} {sweep sweep' : Sweep S T} (h : sweep.Lines finds)
    (hnext : C.visitNext sweep = some (some sweep')) : ∃ ss, sweep'.Lines (finds ++ ss) := by
  unfold visitNext at hnext
  cases hpop : sweep.frontier.pop? with
  | none =>
    simp only [hpop] at hnext
    cases hnext
  | some popped =>
    obtain ⟨p, f⟩ := popped
    simp only [hpop] at hnext
    obtain ⟨ts, -, hnext⟩ := Option.bind_eq_some_iff.1 hnext
    cases hnext
    exact ⟨_, (h.visit hpop ts).foldl_discover _⟩

theorem starts_prefix_of_explore (horder : C.order = none) {starts : List S}
    (hstarts : C.initialStates = some starts) (hnodup : starts.Nodup) {budget : ℕ}
    {visited : List (S × List T)} (h : C.explore budget = some visited) :
    starts <+: visited.map Prod.fst := by
  obtain ⟨ss, hss, h⟩ := Option.bind_eq_some_iff.1 h
  obtain rfl : ss = starts := Option.some.inj (hss.symm.trans hstarts)
  obtain ⟨sweep, hsweep, h⟩ := Option.bind_eq_some_iff.1 h
  obtain rfl := Option.some.inj h
  rw [horder] at hsweep
  have hkeep (sweep sweep' : Sweep S T) (hlines : ∃ qs, sweep.Lines (ss ++ qs))
      (hnext : C.visitNext sweep = some (some sweep')) : ∃ qs, sweep'.Lines (ss ++ qs) := by
    obtain ⟨qs, hlines⟩ := hlines
    obtain ⟨rs, hlines⟩ := visitNext_lines hlines hnext
    exact ⟨qs ++ rs, by rwa [← List.append_assoc]⟩
  obtain ⟨⟨qs, hlines⟩, hdone⟩ := untilDone_keeps hkeep
    ⟨[], by rw [List.append_nil]; exact Sweep.lines_start ss⟩ hsweep
  have hempty : sweep.frontier.states = [] := by
    unfold visitNext at hdone
    cases hpop : sweep.frontier.pop? with
    | none => exact Frontier.pop?_eq_none hpop
    | some popped =>
      simp only [hpop] at hdone
      obtain ⟨_, -, hdone⟩ := Option.bind_eq_some_iff.1 hdone
      cases hdone
  have hlined := hlines.lined
  rw [Sweep.lined, hempty, List.append_nil, List.eraseDups_append, eraseDups_of_nodup hnodup]
    at hlined
  rw [hlined]
  exact List.prefix_append _ _

end Automaton

end WeightedAutomata
