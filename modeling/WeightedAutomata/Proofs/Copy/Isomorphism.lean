import WeightedAutomata.Proofs.Copy.Exploration
import WeightedAutomata.Proofs.Copy.Frozen
import WeightedAutomata.Proofs.Steady.Assembled

/-!
Copies of nested views. If finitely many states are reachable, an automaton is copied exactly, and
the copy agrees with whatever the automaton answers before and after.
-/
namespace WeightedAutomata

variable {σ L S T W : Type} {r : Regime σ} {A : Automaton (StateT σ Option) L S T W}
variable {K : σ → S → Prop}

namespace Automaton

variable {V : Automaton (Steady r) L S T W} {log : List (Query S T × Answer S T W)} {μ ν : σ}

theorem Explored.told (h : A.Explored μ log ν) : A.Told μ log ν := by
  induction h with
  | start => exact .start
  | ask _ _ hrun ih => exact ih.ask hrun

/-- The states that an exploration comes by have come up. -/
theorem Steadies.known_of_explored [Zero W] [One W] (h : Steadies A K V) (hμ : r.Sound μ)
    (hlog : A.Explored μ log ν) : (∀ s, A.Found log s → K ν s) ∧
      ∀ q ts, (.outgoing q, .transitions ts) ∈ log → K ν q := by
  induction hlog with
  | start =>
    refine ⟨?_, nofun⟩
    rintro s (⟨ss, hss, -⟩ | ⟨q, ts, hts, -⟩)
    · cases hss
    · cases hts
  | @ask log μ' ν q a before about run ih =>
    obtain ⟨hfound, hasked⟩ := ih
    obtain ⟨hμ', -, -⟩ := before.told.recollect h hμ
    obtain ⟨hν, -, hall⟩ := (before.told.ask run).recollect h hμ
    obtain ⟨-, hlater⟩ := h.keeps_query q μ' a ν hμ' run
    have houtgoing (p : S) (ts : List T)
        (hts : (.outgoing p, .transitions ts) ∈ (q, a) :: log) : K ν p := by
      rcases List.mem_cons.1 hts with heq | hts
      · cases heq
        exact h.later hlater (hfound p about)
      · exact h.later hlater (hasked p ts hts)
    have hforward := (h.honours ν hν).forward
    refine ⟨?_, houtgoing⟩
    rintro s (⟨ss, hss, hs⟩ | ⟨p, ts, hts, t, ht, rfl⟩)
    · exact hforward.known ss (mem_initialStates (B := V.hoist (Steady.recalling ν hν).map)
        ((hoist_query _ V _).trans (hall _ hss nofun ν (r.refl ν)))) s hs
    · have hfar := hforward.far_known p (houtgoing p ts hts) ts
        (mem_outgoing (B := V.hoist (Steady.recalling ν hν).map)
          ((hoist_query _ V _).trans (hall _ hts nofun ν (r.refl ν)))) t ht
      obtain ⟨f, rfl⟩ := h.exists_final
      exact hfar

end Automaton

/-- The operations on the weights are those of a semiring. -/
def IsSemiring (W : Type) [MulZeroClass W] [One W] [Add W] : Prop :=
  ∃ R : Semiring W,
    R.toNonUnitalSemiring.toNonUnitalNonAssocSemiring.toMulZeroClass = ‹MulZeroClass W› ∧
      R.toOne = ‹One W› ∧
        R.toNonUnitalSemiring.toNonUnitalNonAssocSemiring.toDistrib.toAdd = ‹Add W›

namespace Assembled

variable [MulZeroClass W] [One W] [Add W] [BEq W] [LawfulBEq W] (h : Assembled r A K)
include h

/-- Where an order is offered, no path returns to where it started from. -/
theorem acyclic_frozen (horder : A.order.isSome) (ξ : σ) : (A.frozen ξ).answered.Acyclic := by
  obtain ⟨order, horder⟩ := Option.isSome_iff_exists.1 horder
  obtain ⟨K', hnested⟩ := h.exists_nested
  have hA := hnested.ascends horder
  have hoff {s : S} (hs : K' s) {ts : List T} (hts : (A.frozen ξ).outgoing s = some ts) :
      ∀ t ∈ ts, A.source t = s ∧ K' (A.target t) ∧ order s (A.target t) = .lt :=
    (hA.outgoing s hs).run (recollect_eq_some.1 hts)
  have hknown {s : S} (hs : (A.frozen ξ).answered.Reachable s) : K' s :=
    hs.answered_induction (fun ss hss => hA.initialStates.run (recollect_eq_some.1 hss))
      fun _ hs _ hts t ht => (hoff hs hts t ht).2.1
  refine Automaton.acyclic_of_lt (fun s q => K' s ∧ K' q ∧ order s q = .lt) ?_ ?_
    fun s hs t ht => ?_
  · rintro s ⟨hs, -, hlt⟩
    rw [(hA.total.eq_iff s s hs hs).2 rfl] at hlt
    cases hlt
  · rintro a b c - ⟨ha, hb, hab⟩ ⟨-, hc, hbc⟩
    exact ⟨ha, hc, hA.total.trans a b c ha hb hc hab hbc⟩
  · change t ∈ ((A.frozen ξ).outgoing s).getD [] at ht
    cases hout : (A.frozen ξ).outgoing s with
    | none => simp [hout] at ht
    | some ts =>
      obtain ⟨-, htarget, hlt⟩ := hoff (hknown hs) hout t (by simpa [hout] using ht)
      exact ⟨hknown hs, htarget, hlt⟩

variable [BEq L] [LawfulBEq L] [BEq S] [LawfulBEq S] [Hashable S]
variable {log : List (Query S T × Answer S T W)} {μ : σ}

/-- If an automaton leads to finitely many states and answers what is asked about them, it has a
copy. From then on it answers what the copy does, the states numbered in the order in which they are
listed; and the copy has an order iff no path returns to where it started from. -/
theorem materialize_isomorphic (hlog : A.Told r.start log μ) (hresponds : A.Responds μ)
    (hfinite : {s | A.Reaches μ s}.Finite) : ∃ n E ss ν,
      (∀ budget, n ≤ budget → (A.materialize budget).run μ = some (.ok E, ν) ∧
        ∃ ω, (A.states budget).run μ = some (ss, ω)) ∧
      ∀ log' ξ, A.Told ν log' ξ →
        IsCopy E (A.frozen ξ) ss ∧
        (∀ budget, n ≤ budget → (A.states budget).run ξ = some (ss, ξ)) ∧
        (∃ ts, (∀ budget, n ≤ budget → (A.transitions budget).run ξ = some (ts, ξ)) ∧
          E.edges.size = ts.length) ∧
        (E.order?.isSome ↔ (A.frozen ξ).answered.Acyclic) ∧
        (IsSemiring W → ∀ queue x, ∃ k, ∀ budget, k ≤ budget →
          (A.stringWeight budget ⟨queue, .exact⟩ x).run ξ =
            (E.view.stringWeight budget ⟨queue, .exact⟩ x).map fun w => (w, ξ)) := by
  obtain ⟨V, hV⟩ := h.exists_steadies
  obtain ⟨hμ, -, -⟩ := hlog.recollect hV r.sound_start
  obtain ⟨n, visited, μ', result, ν, hrun⟩ := Automaton.exists_materialize_run hresponds hfinite
  obtain ⟨hexplore, hmaterialize⟩ := hrun n le_rfl
  obtain ⟨hμ', -, hagain⟩ := hV.explore_run hμ hexplore
  obtain ⟨hν, hlater⟩ := hV.later_of_materialize hμ hexplore hmaterialize
  have hcopy {ξ : σ} (hξ : r.Sound ξ) (hνξ : r.Later ν ξ) : ∃ E, result = .ok E ∧
      IsCopy E (A.frozen ξ) (visited.map Prod.fst) ∧
        E.edges.size = (visited.flatMap Prod.snd).length := by
    obtain ⟨E, visited', hE, hvisited, hcopy, hsize⟩ :=
      Automaton.isCopy_of_materialize (hV.materialize_run hξ hμ hmaterialize hνξ)
    obtain rfl : visited = visited' :=
      Option.some.inj ((hagain ξ hξ (r.trans hlater hνξ)).2.symm.trans hvisited)
    exact ⟨E, hE, hcopy, hsize⟩
  obtain ⟨E, rfl, -⟩ := hcopy hν (r.refl ν)
  refine ⟨n, E, visited.map Prod.fst, ν, fun budget hbudget => ⟨(hrun budget hbudget).2, μ', ?_⟩,
    fun log' ξ hlog' => ?_⟩
  · exact run_bind_of_run (hrun budget hbudget).1
  obtain ⟨hξ, hνξ, -⟩ := hlog'.recollect hV hν
  have hexplored (budget : ℕ) (hbudget : n ≤ budget) :
      (A.explore budget).run ξ = some (visited, ξ) ∧ (A.frozen ξ).explore budget = some visited :=
    (hV.explore_run hμ (hrun budget hbudget).1).2.2 ξ hξ (r.trans hlater hνξ)
  obtain ⟨E', heq, hE, hsize⟩ := hcopy hξ hνξ
  obtain rfl := Except.ok.inj heq
  refine ⟨hE, fun budget hbudget => run_bind_of_run (hexplored budget hbudget).1,
    ⟨visited.flatMap Prod.snd, fun budget hbudget => run_bind_of_run (hexplored budget hbudget).1,
      hsize⟩, hE.order_isSome_iff, ?_⟩
  rintro ⟨R, rfl, rfl, rfl⟩ queue x
  exact hE.stringWeight_run (hexplored n le_rfl).2 (hV.enumerates_frozen hξ)
    (fun horder => h.acyclic_frozen horder ξ) queue x

end Assembled

/-- A transition from an initial state to itself, and two with the same label to the other one, one
of them of weight zero. -/
def parallels : Explicit Bool ℕ := Graph.explicit
  { states := #[⟨2, 0⟩, ⟨1, 1⟩]
    edges := #[⟨0, 0, some true, 2⟩, ⟨0, 1, some false, 3⟩, ⟨0, 1, some false, 0⟩]
    endpoints := by decide }

/-- The same from one initial state. -/
def rootedParallels : Automaton (StateT Unit Option) Bool (Option ℕ) (Rooted ℕ) ℕ :=
  parallels.automaton.singleInitial

theorem assembled_rootedParallels : Assembled .stateless rootedParallels
    fun _ s => ∀ q ∈ s, q < parallels.states.size :=
  .singleInitial (.explicit parallels)

theorem responds_rootedParallels : rootedParallels.Responds () := by
  intro log μ _ q hq
  match q with
  | .initialStates | .outgoing none | .outgoing (some _) | .initialWeight _ | .finalWeight none
  | .finalWeight (some _) | .weight (.fused _) | .weight (.plain _) => rfl
  | .finalStates | .incoming _ => exact hq.elim

theorem finite_rootedParallels : {s | rootedParallels.Reaches () s}.Finite := by
  obtain ⟨V, hV⟩ := assembled_rootedParallels.exists_steadies
  refine (((Set.finite_Iio parallels.states.size).image some).insert none).subset ?_
  rintro s ⟨log, μ, hlog, hs⟩
  have hknown := (hV.known_of_explored trivial hlog).1 s hs
  cases s with
  | none => exact .inl rfl
  | some q => exact .inr ⟨q, hknown q rfl, rfl⟩

theorem materialize_rootedParallels : rootedParallels.Told () [] () ∧ rootedParallels.Responds () ∧
    {s | rootedParallels.Reaches () s}.Finite ∧ ∃ n E ss ν,
      (rootedParallels.materialize n).run () = some (.ok E, ν) ∧
        IsCopy E (rootedParallels.frozen ν) ss ∧ ∀ queue x, ∃ k, ∀ budget, k ≤ budget →
          (rootedParallels.stringWeight budget ⟨queue, .exact⟩ x).run ν =
            (E.view.stringWeight budget ⟨queue, .exact⟩ x).map fun w => (w, ν) := by
  obtain ⟨n, E, ss, ν, hrun, hall⟩ := assembled_rootedParallels.materialize_isomorphic
    (.start : rootedParallels.Told () [] ()) responds_rootedParallels finite_rootedParallels
  obtain ⟨hcopy, -, -, -, hstrings⟩ := hall [] ν .start
  exact ⟨.start, responds_rootedParallels, finite_rootedParallels, n, E, ss, ν,
    (hrun n le_rfl).1, hcopy, hstrings ⟨inferInstance, rfl, rfl, rfl⟩⟩

end WeightedAutomata
