import WeightedAutomata.Proofs.Copy.Exploration
import WeightedAutomata.Proofs.Copy.Order
import WeightedAutomata.Proofs.Determinization.Sessions
import WeightedAutomata.Proofs.Determinization.Traces

/-!
Determinizations of acyclic automata can be explored: every question is answered, no more subsets
come up than strings that the operand reads, and no transitions lead back to where they started.
-/
namespace WeightedAutomata

variable {L S T W : Type} [BEq S] [BEq W]

/-- Interning stores nothing but what it gives the index of. -/
theorem SubsetMemory.lt_size_or_eq_intern {μ : SubsetMemory L S W} {subset : WeightedStates S W}
    {i : ℕ} (hi : i < (μ.intern subset).2.subsets.size) :
    i < μ.subsets.size ∨ (μ.intern subset).1 = i := by
  unfold intern at hi ⊢
  cases hfind : μ.subsets.findIdx? (sameSubset subset) with
  | some j =>
    rw [hfind] at hi
    exact .inl hi
  | none =>
    rw [hfind] at hi
    rw [Array.size_push] at hi
    rcases Nat.lt_succ_iff_lt_or_eq.1 hi with hi | rfl
    · exact .inl hi
    · exact .inr rfl

namespace Automaton

variable [Semiring W] [Hashable S] [PartialInverse W] {A : Automaton Id L S T W}
variable {μ ν : SubsetMemory L S W} {seeds : WeightedStates S W} {r : Option (ℕ × W)} {budget : ℕ}

section Fresh

variable [LawfulBEq W]

/-- Settling stores nothing but what it leads to. -/
theorem lt_size_or_of_settle_run
    (hrun : ((A.lift : Automaton Option L S T W).settle budget seeds).run μ = some (r, ν)) {i : ℕ}
    (hi : i < ν.subsets.size) : i < μ.subsets.size ∨ ∃ w, r = some (i, w) := by
  cases hclosed : (A.lift : Automaton Option L S T W).epsilonClosure budget seeds with
  | none =>
    rw [settle_of_none hclosed] at hrun
    cases hrun
  | some closed =>
    by_cases hz : weigh closed (fun _ => 1) = 0
    · rw [settle_of_zero hclosed hz] at hrun
      cases hrun
      exact .inl hi
    · cases hinv : PartialInverse.inverse (weigh closed fun _ => 1) with
      | error e =>
        rw [settle_of_error hclosed hz hinv] at hrun
        cases hrun
        exact .inl hi
      | ok b =>
        rw [settle_of_ok hclosed hz hinv] at hrun
        cases hrun
        exact (SubsetMemory.lt_size_or_eq_intern hi).imp_right fun heq => ⟨_, by rw [heq]⟩

theorem lt_size_or_of_groups_run {i : ℕ} {groups : List (L × WeightedStates S W)}
    {ts : List (SubsetTransition L W)}
    (hrun : (groups.filterMapM fun (label, seeds) => do
      return (← (A.lift : Automaton Option L S T W).settle budget seeds).map
        fun (target, weight) => (⟨i, target, label, weight⟩ : SubsetTransition L W)).run μ =
          some (ts, ν)) {j : ℕ} (hj : j < ν.subsets.size) :
    j < μ.subsets.size ∨ ∃ t ∈ ts, t.target = j := by
  induction groups generalizing μ ts with
  | nil =>
    cases hrun
    exact .inl hj
  | cons p groups ih =>
    rw [run_filterMapM_cons] at hrun
    obtain ⟨⟨o, ξ⟩, hfirst, hrun⟩ := Option.bind_eq_some_iff.1 hrun
    obtain ⟨⟨us, ν'⟩, hus, hrun⟩ := Option.bind_eq_some_iff.1 hrun
    cases hrun
    rw [StateT.run_bind] at hfirst
    obtain ⟨⟨r, ξ'⟩, hsettle, hfirst⟩ := Option.bind_eq_some_iff.1 hfirst
    cases hfirst
    rcases ih hus with hξ | ⟨t, ht, rfl⟩
    · refine (lt_size_or_of_settle_run hsettle hξ).imp_right ?_
      rintro ⟨w, rfl⟩
      exact ⟨_, List.mem_append_left _ List.mem_cons_self, rfl⟩
    · exact .inr ⟨t, List.mem_append_right _ ht, rfl⟩

end Fresh

section Grounded

omit [Hashable S] [BEq S] [BEq W] [PartialInverse W] in
theorem Reachable.table_mono {i : ℕ} (h : (A.table μ).Reachable i) (hext : μ.Extends ν) :
    (A.table ν).Reachable i := by
  induction h with
  | start hi =>
    obtain ⟨w, hw⟩ := mem_starts_table.1 hi
    exact .start (mem_starts_table.2 ⟨w, hext.start _ hw⟩)
  | @step i t _ ht ih =>
    refine ih.step (t := t) ?_
    rw [leaving_table, Std.HashMap.getD_eq_getD_getElem?] at ht ⊢
    cases hi : μ.explored[i]? with
    | none =>
      rw [hi] at ht
      cases ht
    | some ts =>
      rw [hi] at ht
      rwa [hext.explored i ts hi]

/-- Every stored subset is reached from the start, through what has been explored. -/
def Grounded (A : Automaton Id L S T W) (μ : SubsetMemory L S W) : Prop :=
  ∀ i < μ.subsets.size, (A.table μ).Reachable i

variable [LawfulBEq S] [LawfulBEq W] [BEq L] (hinverse : LawfulInverse W)
variable (hμ : A.Consistent μ) (h : A.Grounded μ)
include hinverse hμ h

theorem Grounded.startSubset
    (hrun : ((A.lift : Automaton Option L S T W).startSubset budget).run μ = some (r, ν)) :
    A.Grounded ν := by
  obtain ⟨-, hext, hstart, -⟩ := A.lasts_startSubset hinverse budget μ r ν hμ trivial hrun
  obtain ⟨-, rfl⟩ | ⟨-, ξ, hsettle, rfl⟩ := startSubset_run hrun
  · exact h
  · intro i hi
    rcases lt_size_or_of_settle_run hsettle hi with hi | ⟨w, rfl⟩
    · exact (h i hi).table_mono hext
    · exact .start (mem_starts_table.2 ⟨w, hstart⟩)

theorem Grounded.outgoing [LawfulBEq L] {i : ℕ} (hi : i < μ.subsets.size)
    {ts : List (SubsetTransition L W)}
    (hrun : (((A.lift : Automaton Option L S T W).determinize budget).outgoing i).run μ =
      some (ts, ν)) : A.Grounded ν := by
  obtain ⟨-, hext, hexplored, -⟩ := A.lasts_outgoing hinverse i budget μ ts ν hμ hi hrun
  obtain ⟨-, rfl⟩ | ⟨-, ξ, hsettle, rfl⟩ := outgoing_run hrun
  · exact h
  · intro j hj
    rcases lt_size_or_of_groups_run hsettle hj with hj | ⟨t, ht, rfl⟩
    · exact (h j hj).table_mono hext
    · refine ((h i hi).table_mono hext).step (t := t) ?_
      rwa [leaving_table, Std.HashMap.getD_eq_getD_getElem?, hexplored]

end Grounded

section Surveys

variable [BEq L]

/-- What an exploration has been told stands in the memory, and everything in it has come up. -/
structure Surveyed (A : Automaton Id L S T W) (log : List (Query ℕ (SubsetTransition L W) ×
    Answer ℕ (SubsetTransition L W) W)) (μ : SubsetMemory L S W) : Prop where
  consistent : A.Consistent μ
  grounded : A.Grounded μ
  starts : ∀ is, (.initialStates, .states is) ∈ log →
    ∃ r, μ.start = some r ∧ is = (r.map Prod.fst).toList
  explored : ∀ i ts, (.outgoing i, .transitions ts) ∈ log → μ.explored[i]? = some ts

variable {log : List (Query ℕ (SubsetTransition L W) × Answer ℕ (SubsetTransition L W) W)}

theorem surveyed_empty : A.Surveyed [] (.empty : SubsetMemory L S W) where
  consistent := consistent_empty
  grounded _ hi := absurd hi (Nat.not_lt_zero _)
  starts := nofun
  explored := nofun

namespace Surveyed

variable (h : A.Surveyed log μ)
include h

theorem leaving_eq {i : ℕ} {ts : List (SubsetTransition L W)}
    (hts : (.outgoing i, .transitions ts) ∈ log) : (A.table μ).leaving i = ts := by
  rw [leaving_table, Std.HashMap.getD_eq_getD_getElem?, h.explored i ts hts, Option.getD_some]

theorem lt_size [LawfulBEq L] {i : ℕ}
    (hi : ((A.lift : Automaton Option L S T W).determinize budget).Found log i) :
    i < μ.subsets.size := by
  obtain ⟨is, his, hi⟩ | ⟨q, ts, hts, t, ht, rfl⟩ := hi
  · obtain ⟨r, hr, rfl⟩ := h.starts is his
    obtain ⟨p, rfl, rfl⟩ := Option.map_eq_some_iff.1 (Option.mem_toList.1 hi)
    exact (h.consistent.start _ hr).target_lt_size
  · exact ((h.consistent.explored q ts (h.explored q ts hts)).2.settled_of_mem ht).2.target_lt_size

theorem extend {ν : SubsetMemory L S W} {q : Query ℕ (SubsetTransition L W)}
    {a : Answer ℕ (SubsetTransition L W) W} (hext : μ.Extends ν) (hν : A.Consistent ν)
    (hgrounded : A.Grounded ν)
    (hstarts : ∀ is, (q, a) = (.initialStates, .states is) →
      ∃ r, ν.start = some r ∧ is = (r.map Prod.fst).toList)
    (hexplored : ∀ i ts, (q, a) = (.outgoing i, .transitions ts) → ν.explored[i]? = some ts) :
    A.Surveyed ((q, a) :: log) ν where
  consistent := hν
  grounded := hgrounded
  starts is his := by
    rcases List.mem_cons.1 his with heq | his
    · exact hstarts is heq.symm
    · obtain ⟨r, hr, his⟩ := h.starts is his
      exact ⟨r, hext.start r hr, his⟩
  explored i ts hts := by
    rcases List.mem_cons.1 hts with heq | hts
    · exact hexplored i ts heq.symm
    · exact hext.explored i ts (h.explored i ts hts)

variable [LawfulBEq S] [LawfulBEq W] [LawfulBEq L] (hinverse : LawfulInverse W)
include hinverse

/-- One more question about what has come up. -/
theorem ask {q : Query ℕ (SubsetTransition L W)} {a : Answer ℕ (SubsetTransition L W) W}
    (habout : ((A.lift : Automaton Option L S T W).determinize budget).About log q)
    (hrun : (((A.lift : Automaton Option L S T W).determinize budget).query q).run μ =
      some (a, ν)) : A.Surveyed ((q, a) :: log) ν := by
  cases q with
  | initialStates =>
    obtain ⟨⟨is, ξ⟩, his, heq⟩ := Option.bind_eq_some_iff.1 hrun
    cases heq
    obtain ⟨hν, hext, hstart, -⟩ :=
      A.lasts_initialStates hinverse budget μ is ν h.consistent trivial his
    obtain ⟨⟨r, ξ⟩, hr, heq⟩ := Option.bind_eq_some_iff.1 his
    cases heq
    refine h.extend hext hν (h.grounded.startSubset hinverse h.consistent hr) ?_ nofun
    rintro _ ⟨⟩
    exact hstart
  | outgoing i =>
    obtain ⟨⟨ts, ξ⟩, hts, heq⟩ := Option.bind_eq_some_iff.1 hrun
    cases heq
    have hi := h.lt_size habout
    obtain ⟨hν, hext, hexplored, -⟩ :=
      A.lasts_outgoing hinverse i budget μ ts ν h.consistent hi hts
    refine h.extend hext hν (h.grounded.outgoing hinverse h.consistent hi hts) nofun ?_
    rintro _ _ ⟨⟩
    exact hexplored
  | initialWeight i =>
    obtain ⟨⟨w, ξ⟩, hw, heq⟩ := Option.bind_eq_some_iff.1 hrun
    cases heq
    obtain ⟨hν, hext, -⟩ :=
      A.lasts_initialWeight hinverse i budget μ w ν h.consistent trivial hw
    obtain ⟨⟨r, ξ⟩, hr, hrest⟩ := Option.bind_eq_some_iff.1 hw
    have heq : ν = ξ := by cases r <;> cases hrest <;> rfl
    rw [heq] at hν hext ⊢
    exact h.extend hext hν (h.grounded.startSubset hinverse h.consistent hr) nofun nofun
  | finalWeight i =>
    obtain ⟨⟨w, ξ⟩, hw, heq⟩ := Option.bind_eq_some_iff.1 hrun
    cases heq
    rw [finalWeight_determinize] at hw
    cases hw
    exact h.extend (.refl μ) h.consistent h.grounded nofun nofun
  | weight t =>
    cases hrun
    exact h.extend (.refl μ) h.consistent h.grounded nofun nofun
  | finalStates => exact habout.elim
  | incoming i => exact habout.elim

end Surveyed

theorem Explored.surveyed [LawfulBEq S] [LawfulBEq W] [LawfulBEq L] (hinverse : LawfulInverse W)
    (h : ((A.lift : Automaton Option L S T W).determinize budget).Explored .empty log μ) :
    A.Surveyed log μ := by
  induction h with
  | start => exact surveyed_empty
  | ask _ habout hrun ih => exact ih.ask hinverse habout hrun

/-- No transitions, of all that have come up, lead back to where they started from. -/
theorem Surveyed.not_cycle [LawfulBEq S] [LawfulBEq W] [LawfulBEq L] (h : A.Surveyed log μ)
    (hfinite : A.traces.Finite) (i : ℕ) : ¬Relation.TransGen
      (((A.lift : Automaton Option L S T W).determinize budget).LeadsTo log) i i := by
  obtain ⟨size, hb⟩ := h.consistent.exists_bounded_table hfinite
  have hdown (i j : ℕ)
      (hij : ((A.lift : Automaton Option L S T W).determinize budget).LeadsTo log i j) :
      size i > size j := by
    obtain ⟨ts, hts, t, ht, rfl⟩ := hij
    obtain ⟨hi, -⟩ := h.consistent.explored i ts (h.explored i ts hts)
    exact hb.target_lt (h.grounded i hi) ((h.leaving_eq hts).symm ▸ ht)
  intro hcycle
  have hlt : Relation.TransGen (· > ·) (size i) (size i) := hcycle.lift size hdown
  rw [Relation.transGen_eq_self] at hlt
  exact lt_irrefl _ hlt

/-- Where the closures of reachable seeds are computed, every question about what has come up is
answered. -/
theorem responds_determinize [LawfulBEq S] [LawfulBEq W] [LawfulBEq L] (hinverse : LawfulInverse W)
    (hcloses : ∀ seeds : WeightedStates S W, (∀ e ∈ seeds, A.Reachable e.1) → ∃ closed,
      (A.lift : Automaton Option L S T W).epsilonClosure budget seeds = some closed) :
    ((A.lift : Automaton Option L S T W).determinize budget).Responds .empty := by
  intro log μ hlog q habout
  have hs := hlog.surveyed hinverse
  obtain ⟨r, ν, hr⟩ := startSubset_answered (hcloses _ reachable_startSeeds) μ
  apply Option.isSome_iff_exists.2
  cases q with
  | initialStates => exact ⟨_, run_bind_of_run (run_bind_of_run hr)⟩
  | outgoing i =>
    have hreach := (hs.consistent.normal i (hs.lt_size habout)).reachable
    obtain ⟨ts, ν, hts⟩ := outgoing_answered fun p hp => hcloses p.2 (reachable_grouped hreach p hp)
    exact ⟨_, run_bind_of_run hts⟩
  | initialWeight i =>
    cases r with
    | none => exact ⟨_, run_bind_of_run (run_bind_of_run hr)⟩
    | some p => exact ⟨_, run_bind_of_run (run_bind_of_run hr)⟩
  | finalWeight i =>
    have hw : (((A.lift : Automaton Option L S T W).determinize budget).finalWeight i).run μ =
        some (weigh (μ.subset i) A.exit, μ) := by
      rw [finalWeight_determinize]
      rfl
    exact ⟨_, run_bind_of_run hw⟩
  | weight t => exact ⟨_, rfl⟩
  | finalStates => exact habout.elim
  | incoming i => exact habout.elim

end Surveys

section Acyclic

variable [BEq L] [LawfulBEq L] [LawfulBEq S] [LawfulBEq W]

/-- The states of a determinization that an exploration may come by. -/
theorem reaches_determinize_subset (hinverse : LawfulInverse W) (hfinite : A.traces.Finite) :
    {i | ((A.lift : Automaton Option L S T W).determinize budget).Reaches .empty i} ⊆
      Set.Iio A.traces.ncard := by
  rintro i ⟨log, μ, hlog, hi⟩
  have hs := hlog.surveyed hinverse
  exact lt_of_lt_of_le (hs.lt_size hi)
    (hs.consistent.size_le_ncard_traces hfinite hs.grounded)

/-- Determinizing an acyclic automaton gives an acyclic automaton with no more states than there are
strings to read. With a large enough budget for the epsilon closures, whatever has come up has an
answer, no more subsets than that are stored, no transitions form a cycle, and with a budget of more
steps than that all states are listed, and a copy is made. -/
theorem determinize_finite (A : Automaton Id L S T W) (hA : A.Lawful)
    (hfinite : {s | A.Reachable s}.Finite) (hacyclic : A.Acyclic)
    (hfield : ∀ a : W, a ≠ 0 → ∃ b, a * b = 1)
    (hinverse : ∀ a b : W, PartialInverse.inverse a = .ok b → a * b = 1) :
    A.traces.Finite ∧ ∃ n, ∀ inner, n ≤ inner →
      let D := (A.lift : Automaton Option L S T W).determinize inner
      (∀ log μ, D.Explored .empty log μ →
        (∀ i, D.Found log i → ((D.outgoing i).run μ).isSome) ∧
        μ.subsets.size ≤ A.traces.ncard ∧ ∀ i, ¬Relation.TransGen (D.LeadsTo log) i i) ∧
      ∃ (is : List ℕ) (E : Explicit L W) (μ ν : SubsetMemory L S W),
        is.Nodup ∧ is.length ≤ A.traces.ncard ∧ E.states.size = is.length ∧
          ∀ budget, A.traces.ncard < budget → (D.states budget).run .empty = some (is, μ) ∧
            (D.materialize budget).run .empty = some (.ok E, ν) := by
  have hinv := lawfulInverse_of_semifield hfield hinverse
  have htraces := finite_traces hfinite hacyclic
  have hepsilon : A.EpsilonAcyclic := fun s hs ts hne hpath _ => hacyclic s hs ts hne hpath
  obtain ⟨closure, hc⟩ := exists_bounded_epsilonPart hfinite hepsilon
  have hlift := lift_answers_reachable Option A
  obtain ⟨n, hn⟩ := hlift.exists_closes hA hfinite hc
  refine ⟨htraces, n, fun inner hinner => ?_⟩
  have hresponds : ((A.lift : Automaton Option L S T W).determinize inner).Responds .empty :=
    responds_determinize hinv fun seeds hseeds => by
      obtain ⟨closed, -, -, -, hrun⟩ := hn inner hinner seeds hseeds
      exact ⟨closed, hrun⟩
  refine ⟨fun log μ hlog => ⟨fun i hi => ?_, ?_, ?_⟩, ?_⟩
  · obtain ⟨ts, ν, hts, -⟩ := exists_outgoing_run hresponds hlog hi
    rw [hts]
    rfl
  · have hs := hlog.surveyed hinv
    exact hs.consistent.size_le_ncard_traces htraces hs.grounded
  · exact (hlog.surveyed hinv).not_cycle htraces
  · have hsubset : {i | ((A.lift : Automaton Option L S T W).determinize inner).Reaches .empty i} ⊆
        Set.Iio A.traces.ncard := reaches_determinize_subset hinv htraces
    obtain ⟨visited, μ, log, E, ν, hlog, hnodup, hvisited, hsize, -, hrun⟩ :=
      exists_copy_run hresponds ((Set.finite_Iio _).subset hsubset)
    have hle := Set.ncard_le_ncard hsubset (Set.finite_Iio _)
    rw [Set.ncard_eq_toFinset_card' (Set.Iio _), Set.toFinset_Iio, Nat.card_Iio] at hle
    have hinside : visited.map Prod.fst ⊆ List.range A.traces.ncard := by
      intro i hi
      obtain ⟨e, he, rfl⟩ := List.mem_map.1 hi
      exact List.mem_range.2 (hsubset ⟨log, μ, hlog, (hvisited e he).1⟩)
    have hlength := (hnodup.subperm hinside).length_le
    rw [List.length_range] at hlength
    refine ⟨visited.map Prod.fst, E, μ, ν, hnodup, hlength, by rw [hsize, List.length_map],
      fun budget hbudget => ?_⟩
    obtain ⟨hexplore, hcopy⟩ := hrun budget (hle.trans_lt hbudget)
    exact ⟨run_bind_of_run hexplore, hcopy⟩

/-- Two labels lead to one state, and on to another without a label. -/
def mergedLabels : Automaton Id Bool (Option Bool) (Option Bool) ℚ≥0 where
  initialStates := pure [none]
  outgoing s := pure (if s.isNone then [some false, some true]
    else if s = some false then [none] else [])
  initialWeight s := pure (if s.isNone then 1 else 0)
  finalWeight s := pure (if s = some true then 1 else 0)
  weight _ := pure 1
  source t := if t.isNone then some false else none
  target t := some t.isNone
  label t := t

theorem determinize_finite_mergedLabels : mergedLabels.traces.Finite ∧ ∃ n, ∀ inner, n ≤ inner →
    let D := (mergedLabels.lift : Automaton Option _ _ _ _).determinize inner
    (∀ log μ, D.Explored .empty log μ →
      (∀ i, D.Found log i → ((D.outgoing i).run μ).isSome) ∧
      μ.subsets.size ≤ mergedLabels.traces.ncard ∧ ∀ i, ¬Relation.TransGen (D.LeadsTo log) i i) ∧
    ∃ (is : List ℕ) (E : Explicit Bool ℚ≥0) (μ ν : SubsetMemory Bool (Option Bool) ℚ≥0),
      is.Nodup ∧ is.length ≤ mergedLabels.traces.ncard ∧ E.states.size = is.length ∧
        ∀ budget, mergedLabels.traces.ncard < budget →
          (D.states budget).run .empty = some (is, μ) ∧
          (D.materialize budget).run .empty = some (.ok E, ν) := by
  let rank (s : Option Bool) : ℕ := s.elim 0 fun b => b.toNat + 1
  have hupwards : ∀ s, ∀ t ∈ mergedLabels.leaving s, rank s < rank (mergedLabels.target t) := by
    decide
  have hacyclic : mergedLabels.Acyclic := acyclic_of_lt (fun s q => rank s < rank q)
    (fun _ => lt_irrefl _) (fun _ _ _ _ => lt_trans) fun s _ => hupwards s
  exact determinize_finite mergedLabels ⟨by decide, by decide, by decide⟩ (Set.toFinite _) hacyclic
    (fun a ha => ⟨a⁻¹, mul_inv_cancel₀ ha⟩) fun _ _ => inverse_nnrat

end Acyclic

end Automaton

end WeightedAutomata
