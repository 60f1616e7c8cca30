import WeightedAutomata.Proofs.Copy.Outcome
import WeightedAutomata.Proofs.Steady.Logs

/-!
Exploring an automaton: asking only about what has come up. If that is finite, and every question
about it is answered, the automaton can be copied.
-/
namespace WeightedAutomata

variable {σ L S T W : Type}

section Runs

variable {α β : Type}

theorem run_bind_of_run {x : StateT σ Option α} {f : α → StateT σ Option β} {μ ν : σ} {a : α}
    (h : x.run μ = some (a, ν)) : (x >>= f).run μ = (f a).run ν := by
  rw [StateT.run_bind, h]
  rfl

/-- Steps that are all answered and bring a measure down come to an end, which the budget does not
change. -/
theorem exists_untilDone_run (step : α → StateT σ Option (Option α)) (inv post : α → σ → Prop)
    (size : α → ℕ) (hstep : ∀ a μ, inv a μ → ∃ o ν, (step a).run μ = some (o, ν) ∧
      (o = none → post a ν) ∧ ∀ b ∈ o, inv b ν ∧ size b < size a) {a : α} {μ : σ} (h : inv a μ) :
    ∃ b ν, post b ν ∧ ∀ budget, size a < budget → (untilDone step budget a).run μ = some (b, ν) := by
  induction hn : size a using Nat.strongRecOn generalizing a μ with
  | ind n ih =>
    subst hn
    obtain ⟨o, ν, hrun, hnone, hsome⟩ := hstep a μ h
    cases o with
    | none =>
      refine ⟨a, ν, hnone rfl, fun budget hbudget => ?_⟩
      cases budget with
      | zero => exact absurd hbudget (Nat.not_lt_zero _)
      | succ budget =>
        exact run_bind_of_run hrun
    | some b =>
      obtain ⟨hb, hlt⟩ := hsome b rfl
      obtain ⟨c, ξ, hc, hrest⟩ := ih (size b) hlt hb rfl
      refine ⟨c, ξ, hc, fun budget hbudget => ?_⟩
      cases budget with
      | zero => exact absurd hbudget (Nat.not_lt_zero _)
      | succ budget =>
        exact (run_bind_of_run hrun).trans (hrest budget (by omega))

theorem exists_mapM_run {f : α → StateT σ Option β} {inv : σ → Prop} {R : α → β → Prop} {l : List α}
    (hf : ∀ a ∈ l, ∀ μ, inv μ → ∃ b ν, (f a).run μ = some (b, ν) ∧ inv ν ∧ R a b) {μ : σ}
    (h : inv μ) : ∃ bs ν, (l.mapM f).run μ = some (bs, ν) ∧ inv ν ∧ List.Forall₂ R l bs := by
  induction l generalizing μ with
  | nil => exact ⟨[], μ, rfl, h, .nil⟩
  | cons a l ih =>
    obtain ⟨b, ν, hb, hν, hR⟩ := hf a List.mem_cons_self μ h
    obtain ⟨bs, ξ, hbs, hξ, hall⟩ := ih (fun c hc => hf c (List.mem_cons_of_mem a hc)) hν
    refine ⟨b :: bs, ξ, ?_, hξ, .cons hR hall⟩
    rw [List.mapM_cons, run_bind_of_run hb, run_bind_of_run hbs]
    rfl

end Runs

namespace Automaton

/-- The state is an initial one or the target of a transition, as far as a log tells. -/
def Found {m : Type → Type} (A : Automaton m L S T W) (log : List (Query S T × Answer S T W))
    (s : S) : Prop :=
  (∃ ss, (.initialStates, .states ss) ∈ log ∧ s ∈ ss) ∨
    ∃ q ts, (.outgoing q, .transitions ts) ∈ log ∧ ∃ t ∈ ts, A.target t = s

/-- Some transition leads from one state to the other, as far as a log tells. -/
def LeadsTo {m : Type → Type} (A : Automaton m L S T W) (log : List (Query S T × Answer S T W))
    (s q : S) : Prop :=
  ∃ ts, (.outgoing s, .transitions ts) ∈ log ∧ ∃ t ∈ ts, A.target t = q

/-- The query is about the initial states or about what a log tells of. -/
def About {m : Type → Type} (A : Automaton m L S T W) (log : List (Query S T × Answer S T W)) :
    Query S T → Prop
  | .initialStates => True
  | .outgoing s | .initialWeight s | .finalWeight s => A.Found log s
  | .weight t => ∃ q ts, (.outgoing q, .transitions ts) ∈ log ∧ t ∈ ts
  | .finalStates | .incoming _ => False

/-- The log of an exploration, in which every query is about what has come up before. -/
inductive Explored (A : Automaton (StateT σ Option) L S T W) (start : σ) :
    List (Query S T × Answer S T W) → σ → Prop
  | start : Explored A start [] start
  | ask {log : List (Query S T × Answer S T W)} {μ ν : σ} {q : Query S T} {a : Answer S T W}
    (before : Explored A start log μ) (about : A.About log q)
    (run : (A.query q).run μ = some (a, ν)) : Explored A start ((q, a) :: log) ν

/-- Some exploration comes by the state. -/
def Reaches (A : Automaton (StateT σ Option) L S T W) (start : σ) (s : S) : Prop :=
  ∃ log μ, A.Explored start log μ ∧ A.Found log s

/-- What an exploration asks is answered. -/
def Responds (A : Automaton (StateT σ Option) L S T W) (start : σ) : Prop :=
  ∀ log μ, A.Explored start log μ → ∀ q, A.About log q → ((A.query q).run μ).isSome

variable {A : Automaton (StateT σ Option) L S T W} {start : σ}
variable {log log' : List (Query S T × Answer S T W)} {μ : σ}

theorem Found.mono (h : log ⊆ log') {s : S} (hs : A.Found log s) : A.Found log' s := by
  obtain ⟨ss, hss, hs⟩ | ⟨q, ts, hts, t, ht, rfl⟩ := hs
  · exact .inl ⟨ss, h hss, hs⟩
  · exact .inr ⟨q, ts, h hts, t, ht, rfl⟩

section Ask

variable (hresponds : A.Responds start) (hlog : A.Explored start log μ)
include hresponds hlog

/-- A question about what has come up is answered, and goes onto the log. -/
theorem exists_ask_run {α : Type} {q : Query S T} (habout : A.About log q) {x : StateT σ Option α}
    {f : α → Answer S T W} (hquery : A.query q = x >>= fun a => pure (f a)) :
    ∃ a ν, x.run μ = some (a, ν) ∧ A.Explored start ((q, f a) :: log) ν := by
  obtain ⟨⟨b, ν⟩, hrun⟩ := Option.isSome_iff_exists.1 (hresponds log μ hlog q habout)
  have hbind := hrun
  rw [hquery] at hbind
  obtain ⟨⟨a, ξ⟩, ha, heq⟩ := Option.bind_eq_some_iff.1 hbind
  cases heq
  exact ⟨a, ν, ha, .ask hlog habout hrun⟩

theorem exists_initialStates_run : ∃ ss ν, A.initialStates.run μ = some (ss, ν) ∧
    A.Explored start ((.initialStates, .states ss) :: log) ν :=
  exists_ask_run hresponds hlog (q := .initialStates) trivial rfl

variable {s : S} (hs : A.Found log s)

include hs in
theorem exists_outgoing_run : ∃ ts ν, (A.outgoing s).run μ = some (ts, ν) ∧
    A.Explored start ((.outgoing s, .transitions ts) :: log) ν :=
  exists_ask_run hresponds hlog (q := .outgoing s) hs rfl

include hs in
theorem exists_initialWeight_run : ∃ w ν, (A.initialWeight s).run μ = some (w, ν) ∧
    A.Explored start ((.initialWeight s, .weight w) :: log) ν :=
  exists_ask_run hresponds hlog (q := .initialWeight s) hs rfl

include hs in
theorem exists_finalWeight_run : ∃ w ν, (A.finalWeight s).run μ = some (w, ν) ∧
    A.Explored start ((.finalWeight s, .weight w) :: log) ν :=
  exists_ask_run hresponds hlog (q := .finalWeight s) hs rfl

theorem exists_weight_run {q : S} {ts : List T} (hts : (.outgoing q, .transitions ts) ∈ log) {t : T}
    (ht : t ∈ ts) : ∃ w ν, (A.weight t).run μ = some (w, ν) ∧
      A.Explored start ((.weight t, .weight w) :: log) ν :=
  exists_ask_run hresponds hlog (q := .weight t) ⟨q, ts, hts, ht⟩ rfl

end Ask

variable [BEq S] [LawfulBEq S] [Hashable S]

/-- The states of a traversal are those that a log tells of, with the transitions that it tells and
the states that these lead to. -/
structure Pursues (A : Automaton (StateT σ Option) L S T W)
    (log : List (Query S T × Answer S T W)) (sweep : Sweep S T) : Prop where
  tracks : sweep.Tracks
  found : ∀ s ∈ sweep.found, A.Found log s
  visited : ∀ e ∈ sweep.visited, (.outgoing e.1, .transitions e.2) ∈ log
  targets : ∀ e ∈ sweep.visited, ∀ t ∈ e.2, A.target t ∈ sweep.found

theorem pursues_start {discipline : Discipline S Unit} {ss : List S}
    (hss : ∀ s ∈ ss, A.Found log s) :
    A.Pursues log (ss.foldl Sweep.discover (Sweep.start discipline)) := by
  obtain ⟨htracks, hmem⟩ := (Sweep.tracks_start (T := T) discipline).foldl_discover ss
  have hvisited := Sweep.visited_foldl_discover ss (Sweep.start (T := T) discipline)
  refine ⟨htracks, fun s hs => hss s (((hmem s).1 hs).resolve_right List.not_mem_nil), ?_, ?_⟩
  · rw [hvisited]
    nofun
  · rw [hvisited]
    nofun

theorem Pursues.visitNext (hresponds : A.Responds start) {sweep : Sweep S T}
    (hlog : A.Explored start log μ) (h : A.Pursues log sweep) :
    ∃ o ν, (A.visitNext sweep).run μ = some (o, ν) ∧
      (o = none → μ = ν ∧ sweep.frontier.states = []) ∧ ∀ sweep' ∈ o,
        sweep'.visited.length = sweep.visited.length + 1 ∧
          ∃ log', log ⊆ log' ∧ A.Explored start log' ν ∧ A.Pursues log' sweep' := by
  unfold Automaton.visitNext
  cases hpop : sweep.frontier.pop? with
  | none => exact ⟨none, μ, rfl, fun _ => ⟨rfl, Frontier.pop?_eq_none hpop⟩, nofun⟩
  | some popped =>
    obtain ⟨p, f⟩ := popped
    have hstates : sweep.frontier.states = p :: f.states := Frontier.states_of_pop? hpop
    have hp : A.Found log p := h.found p (List.mem_append_right _ (by simp [hstates]))
    obtain ⟨ts, ν, hts, hlog'⟩ := exists_outgoing_run hresponds hlog hp
    have hsub : log ⊆ (.outgoing p, .transitions ts) :: log := List.subset_cons_self _ _
    let visit : Sweep S T := { sweep with frontier := f, visited := (p, ts) :: sweep.visited }
    have hperm : visit.found.Perm sweep.found := by
      unfold Sweep.found
      rw [hstates]
      exact List.perm_middle.symm
    have hvisit : visit.Tracks :=
      ⟨hperm.nodup_iff.2 h.tracks.nodup, fun s => (h.tracks.mem_seen s).trans hperm.mem_iff.symm⟩
    obtain ⟨htracks, hmem⟩ := hvisit.foldl_discover (ts.map A.target)
    have hvisited := Sweep.visited_foldl_discover (ts.map A.target) visit
    refine ⟨some ((ts.map A.target).foldl Sweep.discover visit), ν, run_bind_of_run hts, nofun, ?_⟩
    rintro _ ⟨⟩
    refine ⟨congrArg List.length hvisited, _, hsub, hlog', htracks, fun s hs => ?_, fun e he => ?_,
      fun e he t ht => (hmem _).2 ?_⟩
    · rcases (hmem s).1 hs with hs | hs
      · obtain ⟨t, ht, rfl⟩ := List.mem_map.1 hs
        exact .inr ⟨p, ts, List.mem_cons_self, t, ht, rfl⟩
      · exact (h.found s (hperm.mem_iff.1 hs)).mono hsub
    · rw [hvisited] at he
      rcases List.mem_cons.1 he with rfl | he
      · exact List.mem_cons_self
      · exact hsub (h.visited e he)
    · rw [hvisited] at he
      rcases List.mem_cons.1 he with rfl | he
      · exact .inl (List.mem_map.2 ⟨t, ht, rfl⟩)
      · exact .inr (hperm.mem_iff.2 (h.targets e he t ht))

omit [LawfulBEq S] in
/-- Every state that has been visited is one of those that explorations come by. -/
theorem Pursues.length_visited_le {sweep : Sweep S T} (hlog : A.Explored start log μ)
    (h : A.Pursues log sweep) (hfinite : {s | A.Reaches start s}.Finite) :
    sweep.visited.length ≤ {s | A.Reaches start s}.ncard := by
  classical
  have hnodup : (sweep.visited.map Prod.fst).Nodup := h.tracks.nodup.of_append_left
  rw [← List.length_map (f := Prod.fst), ← List.toFinset_card_of_nodup hnodup,
    ← Set.ncard_coe_finset]
  refine Set.ncard_le_ncard (fun s hs => ⟨log, μ, hlog, ?_⟩) hfinite
  exact h.found s (List.mem_append_left _ (List.mem_toFinset.1 hs))

/-- Finitely many states are found by a traversal, with all that they lead to, and a large enough
budget does not change what it finds. -/
theorem exists_explore_run (hresponds : A.Responds start)
    (hfinite : {s | A.Reaches start s}.Finite) :
    ∃ visited ν log, A.Explored start log ν ∧ (visited.map Prod.fst).Nodup ∧
      (∃ ss μ, A.initialStates.run start = some (ss, μ) ∧ (.initialStates, .states ss) ∈ log) ∧
      (∀ e ∈ visited, A.Found log e.1 ∧ (.outgoing e.1, .transitions e.2) ∈ log ∧
        ∀ t ∈ e.2, A.target t ∈ visited.map Prod.fst) ∧
      ∀ budget, {s | A.Reaches start s}.ncard < budget →
        (A.explore budget).run start = some (visited, ν) := by
  obtain ⟨ss, μ, hss, hlog⟩ := exists_initialStates_run hresponds .start
  let first := ss.foldl Sweep.discover
    (Sweep.start ((Queue.topological : Queue Unit).discipline A.order) : Sweep S T)
  have hfirst : A.Pursues [(.initialStates, .states ss)] first :=
    pursues_start fun s hs => .inl ⟨ss, List.mem_singleton_self _, hs⟩
  let n := {s | A.Reaches start s}.ncard
  obtain ⟨sweep, ν, ⟨log, hsub, hlog', hsweep, hdone⟩, hrun⟩ := exists_untilDone_run A.visitNext
    (fun sweep ν => ∃ log, [(.initialStates, .states ss)] ⊆ log ∧ A.Explored start log ν ∧
      A.Pursues log sweep)
    (fun sweep ν => ∃ log, [(.initialStates, .states ss)] ⊆ log ∧ A.Explored start log ν ∧
      A.Pursues log sweep ∧ sweep.frontier.states = [])
    (fun sweep => n - sweep.visited.length) (by
      rintro sweep μ ⟨log, hsub, hlog, h⟩
      obtain ⟨o, ν, hrun, hnone, hsome⟩ := h.visitNext hresponds hlog
      refine ⟨o, ν, hrun, fun ho => ⟨log, hsub, (hnone ho).1 ▸ hlog, h, (hnone ho).2⟩,
        fun sweep' hsweep' => ?_⟩
      obtain ⟨hlen, log', hsub', hlog', h'⟩ := hsome sweep' hsweep'
      have hle : sweep'.visited.length ≤ n := h'.length_visited_le hlog' hfinite
      exact ⟨⟨log', List.Subset.trans hsub hsub', hlog', h'⟩, by omega⟩)
    ⟨_, List.Subset.refl _, hlog, hfirst⟩
  have hfound : sweep.found = sweep.visited.map Prod.fst := by
    rw [Sweep.found, hdone, List.append_nil]
  refine ⟨sweep.visited.reverse, ν, log, hlog', ?_, ⟨ss, μ, hss, hsub (List.mem_singleton_self _)⟩,
    fun e he => ?_, fun budget hbudget => ?_⟩
  · rw [List.map_reverse, List.nodup_reverse, ← hfound]
    exact hsweep.tracks.nodup
  · have he := List.mem_reverse.1 he
    refine ⟨hsweep.found _ ?_, hsweep.visited e he, fun t ht => ?_⟩
    · rw [hfound]
      exact List.mem_map_of_mem he
    · rw [List.map_reverse, List.mem_reverse, ← hfound]
      exact hsweep.targets e he t ht
  · have hbudget : n - first.visited.length < budget :=
      (Nat.sub_le n first.visited.length).trans_lt hbudget
    unfold Automaton.explore
    rw [run_bind_of_run hss, run_bind_of_run (hrun budget hbudget)]
    rfl

section Copy

variable {visited : List (S × List T)}

/-- Some exploration that has been told all of the log has come to the memory. -/
def Resumes (A : Automaton (StateT σ Option) L S T W) (start : σ)
    (log : List (Query S T × Answer S T W)) (μ : σ) : Prop :=
  ∃ log', log ⊆ log' ∧ A.Explored start log' μ

/-- The edge has the transition's target, in the numbering of the states that have been found. -/
def Copies (A : Automaton (StateT σ Option) L S T W) (visited : List (S × List T)) (source : ℕ)
    (t : T) (e : Edge L W) : Prop :=
  e.source = source ∧ (visited.map Prod.fst)[e.target]? = some (A.target t)

omit [BEq S] [LawfulBEq S] [Hashable S] in
theorem Resumes.copyTerminal (hresponds : A.Responds start) (h : A.Resumes start log μ)
    {e : S × List T} (hs : A.Found log e.1) : ∃ terminal ν,
      (A.copyTerminal e).run μ = some (terminal, ν) ∧ A.Resumes start log ν ∧ True := by
  obtain ⟨log', hsub, hlog⟩ := h
  have hs := hs.mono hsub
  obtain ⟨v, ν, hv, hlog⟩ := exists_initialWeight_run hresponds hlog hs
  obtain ⟨w, ξ, hw, hlog⟩ :=
    exists_finalWeight_run hresponds hlog (hs.mono (List.subset_cons_self _ _))
  refine ⟨⟨v, w⟩, ξ, (run_bind_of_run hv).trans (run_bind_of_run hw), ⟨_, fun a ha => ?_, hlog⟩,
    trivial⟩
  exact List.mem_cons_of_mem _ (List.mem_cons_of_mem _ (hsub ha))

theorem Resumes.copyEdges (hresponds : A.Responds start) (h : A.Resumes start log μ)
    (hnodup : (visited.map Prod.fst).Nodup) {s : S} {ts : List T}
    (hts : (.outgoing s, .transitions ts) ∈ log)
    (htargets : ∀ t ∈ ts, A.target t ∈ visited.map Prod.fst) (i : ℕ) : ∃ row ν,
      (ts.mapM (A.copyEdge visited i)).run μ = some (row, ν) ∧ A.Resumes start log ν ∧
        List.Forall₂ (A.Copies visited i) ts row := by
  refine exists_mapM_run (fun t ht μ hμ => ?_) h
  obtain ⟨log', hsub, hlog⟩ := hμ
  obtain ⟨w, ν, hw, hlog⟩ := exists_weight_run hresponds hlog (hsub hts) ht
  exact ⟨_, ν, run_bind_of_run hw, ⟨_, fun a ha => List.mem_cons_of_mem _ (hsub ha), hlog⟩, rfl,
    getElem?_getD_numbering hnodup (htargets t ht) _⟩

omit [BEq S] [LawfulBEq S] [Hashable S] in
/-- All edges of the rows are transitions between the states that have been found. -/
theorem exists_of_mem_rows {rows : List (List (Edge L W))}
    (h : List.Forall₂ (fun e row => List.Forall₂ (A.Copies visited e.2) e.1.2 row) visited.zipIdx
      rows) {e : Edge L W} (he : e ∈ rows.flatten) :
    ∃ s ts t, visited[e.source]? = some (s, ts) ∧ t ∈ ts ∧
      (visited.map Prod.fst)[e.target]? = some (A.target t) := by
  obtain ⟨row, hrow, he⟩ := List.mem_flatten.1 he
  obtain ⟨⟨⟨s, ts⟩, i⟩, hi, hcopies⟩ := exists_mem_of_forall₂ h hrow
  obtain ⟨t, ht, rfl, htarget⟩ := exists_mem_of_forall₂ hcopies he
  exact ⟨s, ts, t, List.mem_zipIdx_iff_getElem?.1 hi, ht, htarget⟩

/-- Automata that have finitely many states, and that respond, are copied, whatever the budget, if
it is large enough. The copy's states are those found, and its edges the transitions found at them. -/
theorem exists_copy_run (hresponds : A.Responds start) (hfinite : {s | A.Reaches start s}.Finite) :
    ∃ visited ν log E ξ, A.Explored start log ν ∧ (visited.map Prod.fst).Nodup ∧
      (∀ e ∈ visited, A.Found log e.1 ∧ (.outgoing e.1, .transitions e.2) ∈ log) ∧
      E.states.size = visited.length ∧
      (∀ e ∈ E.edges.toList, ∃ s ts t, visited[e.source]? = some (s, ts) ∧ t ∈ ts ∧
        (visited.map Prod.fst)[e.target]? = some (A.target t)) ∧
      ∀ budget, {s | A.Reaches start s}.ncard < budget →
        (A.explore budget).run start = some (visited, ν) ∧
          (A.materialize budget).run start = some (.ok E, ξ) := by
  obtain ⟨visited, ν, log, hlog, hnodup, -, hvisited, hexplore⟩ :=
    exists_explore_run hresponds hfinite
  obtain ⟨terminals, μ, hterminals, hμ, hall⟩ :=
    exists_mapM_run (fun e he μ (hμ : A.Resumes start log μ) =>
      hμ.copyTerminal hresponds (hvisited e he).1) ⟨log, List.Subset.refl _, hlog⟩
  obtain ⟨rows, ξ, hrows, -, hall'⟩ :=
    exists_mapM_run (l := visited.zipIdx) (fun e he μ (hμ : A.Resumes start log μ) => by
      obtain ⟨-, hts, htargets⟩ := hvisited e.1 (List.fst_mem_of_mem_zipIdx he)
      exact hμ.copyEdges hresponds hnodup hts htargets e.2) hμ
  have hedge := fun e he => exists_of_mem_rows hall' (e := e) he
  obtain ⟨g, hg, hstates, hlist⟩ :=
    Graph.addTransitions_eq_ok (Graph.ofStates terminals.toArray) rows.flatten fun e he => by
      obtain ⟨s, ts, t, hsource, -, htarget⟩ := hedge e he
      have hsource := (List.getElem?_eq_some_iff.1 hsource).1
      have htarget := (List.getElem?_eq_some_iff.1 htarget).1
      rw [List.length_map] at htarget
      rw [hall.length_eq] at hsource htarget
      exact ⟨hsource, htarget⟩
  refine ⟨visited, ν, log, g.explicit, ξ, hlog, hnodup,
    fun e he => ⟨(hvisited e he).1, (hvisited e he).2.1⟩, ?_, fun e he => hedge e ?_,
    fun budget hbudget => ⟨hexplore budget hbudget, ?_⟩⟩
  · change g.states.size = _
    rw [hstates, hall.length_eq]
    rfl
  · change e ∈ g.edges.toList at he
    rw [hlist] at he
    exact he
  · rw [materialize_eq, run_bind_of_run (hexplore budget hbudget), run_bind_of_run hterminals,
      run_bind_of_run hrows, hg]
    rfl

theorem exists_materialize_run (hresponds : A.Responds start)
    (hfinite : {s | A.Reaches start s}.Finite) :
    ∃ n visited ν result ξ, ∀ budget, n ≤ budget →
      (A.explore budget).run start = some (visited, ν) ∧
        (A.materialize budget).run start = some (result, ξ) := by
  obtain ⟨visited, ν, -, E, ξ, -, -, -, -, -, hrun⟩ := exists_copy_run hresponds hfinite
  exact ⟨_, visited, ν, .ok E, ξ, hrun⟩

end Copy

end Automaton

end WeightedAutomata
