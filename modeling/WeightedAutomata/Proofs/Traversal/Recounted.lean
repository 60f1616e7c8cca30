import WeightedAutomata.Proofs.Copy.Exploration
import WeightedAutomata.Proofs.Cyclic
import WeightedAutomata.Proofs.Relaxation.Topological
import WeightedAutomata.Proofs.Traversal.Listing

/-!
Traversals of automata with a memory. A traversal asks for the transitions of every state once; what
it lists is right for the automaton whose answers are those that it has been given.
-/
namespace WeightedAutomata

variable {σ L S T W : Type}

/-- What every step keeps, whatever the memory, holds of the outcome. -/
theorem untilDone_run_keeps {α : Type} {step : α → StateT σ Option (Option α)} (inv : α → Prop)
    (keep : ∀ a b μ ν, inv a → (step a).run μ = some (some b, ν) → inv b) {budget : ℕ} {a b : α}
    {μ ν : σ} (ha : inv a) (h : (untilDone step budget a).run μ = some (b, ν)) :
    inv b ∧ ∃ ξ, (step b).run ξ = some (none, ν) := by
  induction budget generalizing a μ with
  | zero => cases h
  | succ budget ih =>
    obtain ⟨⟨next, ξ⟩, hstep, h⟩ := Option.bind_eq_some_iff.1 h
    cases next with
    | none =>
      cases h
      exact ⟨ha, μ, hstep⟩
    | some c => exact ih (keep a c μ ξ ha hstep) h

namespace Automaton

variable {A : Automaton (StateT σ Option) L S T W} {Q : Automaton Id L S T Unit} {μ ν : σ}

/-- The automaton gives the answers about what it leads to that are in the log. -/
structure Recounts (Q : Automaton Id L S T Unit) (A : Automaton (StateT σ Option) L S T W)
    (log : List (Query S T × Answer S T W)) : Prop where
  starts : (.initialStates, .states Q.starts) ∈ log
  leaving : ∀ s, Q.Reachable s → (.outgoing s, .transitions (Q.leaving s)) ∈ log
  source : Q.source = A.source
  target : Q.target = A.target
  order : Q.order = A.order

variable [BEq S] [LawfulBEq S] [Hashable S] {sweep sweep' : Sweep S T}

omit [LawfulBEq S] in
/-- An automaton that gives the same answers goes on in the same way. -/
theorem sweepOn_of_run (hrun : (A.visitNext sweep).run μ = some (some sweep', ν))
    (htarget : Q.target = A.target) (hleaving : ∀ e ∈ sweep'.visited, Q.leaving e.1 = e.2) :
    Q.sweepOn sweep = some sweep' ∧ ∀ e ∈ sweep.visited, e ∈ sweep'.visited := by
  unfold visitNext at hrun
  unfold sweepOn
  cases hpop : sweep.frontier.pop? with
  | none =>
    simp only [hpop] at hrun
    cases hrun
  | some popped =>
    obtain ⟨p, f⟩ := popped
    simp only [hpop] at hrun
    obtain ⟨⟨ts, ξ⟩, -, heq⟩ := Option.bind_eq_some_iff.1 hrun
    cases heq
    rw [Sweep.visited_foldl_discover] at hleaving ⊢
    obtain rfl : Q.leaving p = ts := hleaving (p, ts) List.mem_cons_self
    rw [Option.map_some, htarget]
    exact ⟨rfl, fun e => List.mem_cons_of_mem _⟩

omit [LawfulBEq S] in
theorem sweepOn_eq_none_of_run (hrun : (A.visitNext sweep).run μ = some (none, ν)) :
    Q.sweepOn sweep = none := by
  unfold visitNext at hrun
  unfold sweepOn
  cases hpop : sweep.frontier.pop? with
  | none => rfl
  | some popped =>
    simp only [hpop] at hrun
    obtain ⟨_, -, heq⟩ := Option.bind_eq_some_iff.1 hrun
    cases heq

/-- What a traversal lists is what it owes to any automaton that gives the same answers. -/
theorem lists_of_explore_run {budget : ℕ} {visited : List (S × List T)} {ss : List S} {ξ : σ}
    (hstarts : A.initialStates.run μ = some (ss, ξ))
    (hrun : (A.explore budget).run μ = some (visited, ν)) (hss : Q.starts = ss)
    (htarget : Q.target = A.target) (horder : Q.order = A.order)
    (hleaving : ∀ e ∈ visited, Q.leaving e.1 = e.2) : Q.Lists (visited.map Prod.fst) := by
  have hloop := (run_bind_of_run hstarts).symm.trans hrun
  obtain ⟨⟨sweep, ω⟩, hloop, heq⟩ := Option.bind_eq_some_iff.1 hloop
  cases heq
  have hfirst := proceeds_start Q
  rw [hss, horder] at hfirst
  obtain ⟨hproceeds, _, hdone⟩ := untilDone_run_keeps
    (fun sweep : Sweep S T => (∀ e ∈ sweep.visited, Q.leaving e.1 = e.2) → Q.Proceeds sweep)
    (fun sweep sweep' _ _ h hstep hleaving => by
      obtain ⟨hnext, hsub⟩ := sweepOn_of_run hstep htarget hleaving
      exact (h fun e he => hleaving e (hsub e he)).sweepOn hnext)
    (fun _ => hfirst) hloop
  exact (hproceeds fun e he => hleaving e (List.mem_reverse.2 he)).lists (sweepOn_eq_none_of_run hdone)

/-- The states that have been visited, with the transitions there, as an automaton. -/
def chart (A : Automaton (StateT σ Option) L S T W) (starts : List S)
    (visited : List (S × List T)) : Automaton Id L S T Unit where
  initialStates := pure starts
  outgoing s := pure ((visited.lookup s).getD [])
  initialWeight _ := pure ()
  finalWeight _ := pure ()
  weight _ := pure ()
  source := A.source
  target := A.target
  label := A.label
  order := A.order

omit [Hashable S] in
theorem leaving_chart {visited : List (S × List T)} (h : (visited.map Prod.fst).Nodup)
    {e : S × List T} (he : e ∈ visited) (starts : List S) :
    (A.chart starts visited).leaving e.1 = e.2 := by
  have hlookup : visited.lookup e.1 = some e.2 := by
    obtain ⟨before, after, rfl⟩ := List.append_of_mem he
    rw [List.map_append, List.nodup_append] at h
    refine List.lookup_eq_some_iff.2 ⟨before, after, rfl, fun p hp => ?_⟩
    have hne := h.2.2 p.1 (List.mem_map_of_mem hp) e.1 (by simp)
    exact bne_iff_ne.2 hne.symm
  change (visited.lookup e.1).getD [] = e.2
  rw [hlookup]
  rfl

/-- Where finitely many states can be reached, and what is asked about them is answered, a traversal
with a large enough budget comes to an end. It lists the states that the answers lead to, and the
transitions that leave the listed states, state by state. -/
theorem traversal_lists_reachable (hresponds : A.Responds μ) (hfinite : {s | A.Reaches μ s}.Finite) :
    ∃ (Q : Automaton Id L S T Unit) (states : List S) (log : List (Query S T × Answer S T W))
      (ν : σ) (n : ℕ), A.Explored μ log ν ∧ Q.Recounts A log ∧ Q.Lists states ∧
        ∀ budget, n ≤ budget → (A.states budget).run μ = some (states, ν) ∧
          (A.transitions budget).run μ = some (states.flatMap Q.leaving, ν) := by
  obtain ⟨visited, ν, log, hlog, hnodup, ⟨ss, ξ, hstarts, hss⟩, hvisited, hrun⟩ :=
    exists_explore_run hresponds hfinite
  let Q := A.chart ss visited
  have hleaving (e : S × List T) (he : e ∈ visited) : Q.leaving e.1 = e.2 :=
    leaving_chart hnodup he ss
  have hlists : Q.Lists (visited.map Prod.fst) :=
    lists_of_explore_run hstarts (hrun _ (Nat.lt_succ_self _)) rfl rfl rfl hleaving
  have hflat : visited.flatMap Prod.snd = (visited.map Prod.fst).flatMap Q.leaving := by
    rw [List.flatMap_map]
    exact List.flatMap_congr fun e he => (hleaving e he).symm
  refine ⟨Q, visited.map Prod.fst, log, ν, {s | A.Reaches μ s}.ncard + 1, hlog,
    ⟨hss, fun s hs => ?_, rfl, rfl, rfl⟩, hlists, fun budget hbudget => ?_⟩
  · obtain ⟨e, he, rfl⟩ := List.mem_map.1 ((hlists.mem_iff s).2 hs)
    rw [hleaving e he]
    exact (hvisited e he).2.1
  · have hexplore := hrun budget hbudget
    rw [← hflat]
    exact ⟨run_bind_of_run hexplore, run_bind_of_run hexplore⟩

/-- The same automaton, which remembers how often it has been asked. -/
def tallied (B : Automaton Id L S T W) : Automaton (StateT ℕ Option) L S T W :=
  B.hoist fun x => do
    modify (· + 1)
    return x.run

omit [BEq S] [LawfulBEq S] [Hashable S] in
theorem responds_tallied (B : Automaton Id L S T W) (k : ℕ) : B.tallied.Responds k := by
  intro log μ _ q hq
  cases q with
  | finalStates | incoming _ => exact hq.elim
  | _ => rfl

omit [BEq S] [LawfulBEq S] [Hashable S] in
theorem Explored.leaving_tallied {B : Automaton Id L S T W} {k : ℕ}
    {log : List (Query S T × Answer S T W)} {μ : ℕ} (h : B.tallied.Explored k log μ) {s : S}
    {ts : List T} (hts : (.outgoing s, .transitions ts) ∈ log) : ts = B.leaving s := by
  induction h with
  | start => cases hts
  | ask _ _ hrun ih =>
    rcases List.mem_cons.1 hts with heq | hts
    · cases heq
      cases hrun
      rfl
    · exact ih hts

/-- The states of the rhombus come level by level, and those of the ring breadth first, although both
remember how often they have been asked. -/
theorem traversal_lists_tallied : rhombus.tallied.Responds 0 ∧
    {s | rhombus.tallied.Reaches 0 s}.Finite ∧ ring.tallied.Responds 0 ∧
    {s | ring.tallied.Reaches 0 s}.Finite ∧
    (∃ Q : Automaton Id Unit _ _ Unit, ∃ states log ν n,
      rhombus.tallied.Explored 0 log ν ∧ Q.Recounts rhombus.tallied log ∧
      Q.Lists states ∧ (∀ budget, n ≤ budget →
        (rhombus.tallied.states budget).run 0 = some (states, ν) ∧
          (rhombus.tallied.transitions budget).run 0 = some (states.flatMap Q.leaving, ν)) ∧
      states.Pairwise fun p q => (compareLevels p q).isLE) ∧
    ∃ Q : Automaton Id Unit _ _ Unit, ∃ states log ν n,
      ring.tallied.Explored 0 log ν ∧ Q.Recounts ring.tallied log ∧
      Q.Lists states ∧ (∀ budget, n ≤ budget →
        (ring.tallied.states budget).run 0 = some (states, ν) ∧
          (ring.tallied.transitions budget).run 0 = some (states.flatMap Q.leaving, ν)) ∧
      Q.BreadthFirst states := by
  have hrhombus : {s | rhombus.tallied.Reaches 0 s}.Finite := Set.toFinite _
  have hring : {s | ring.tallied.Reaches 0 s}.Finite := Set.toFinite _
  refine ⟨responds_tallied _ 0, hrhombus, responds_tallied _ 0, hring, ?_, ?_⟩
  · obtain ⟨Q, states, log, ν, n, hlog, hQ, hlists, hrun⟩ :=
      traversal_lists_reachable (responds_tallied rhombus 0) hrhombus
    have htrans : Std.TransCmp compareLevels :=
      transCmp_comap compare fun a : Bool × Bool => a.1.toNat + a.2.toNat
    have hup : ∀ s, ∀ t ∈ rhombus.leaving s, rhombus.source t = s ∧
        compareLevels (rhombus.source t) (rhombus.target t) = .lt := by
      rintro ⟨_ | _, _ | _⟩ <;> decide
    have hclimbs : Q.Climbs compareLevels := by
      intro s hs t ht
      rw [hlog.leaving_tallied (hQ.leaving s hs)] at ht
      rw [hQ.source, hQ.target]
      exact hup s t ht
    exact ⟨Q, states, log, ν, n, hlog, hQ, hlists, hrun,
      hlists.ordered compareLevels hQ.order htrans hclimbs⟩
  · obtain ⟨Q, states, log, ν, n, hlog, hQ, hlists, hrun⟩ :=
      traversal_lists_reachable (responds_tallied ring 0) hring
    exact ⟨Q, states, log, ν, n, hlog, hQ, hlists, hrun, hlists.breadthFirst hQ.order⟩

end Automaton

end WeightedAutomata
