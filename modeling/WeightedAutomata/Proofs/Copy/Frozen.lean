import WeightedAutomata.Proofs.Answered
import WeightedAutomata.Proofs.Traversal.FirstIn
import WeightedAutomata.Proofs.Copy.Mirrors
import WeightedAutomata.Proofs.Copy.Strings
import WeightedAutomata.Proofs.Steady.Views
import WeightedAutomata.Proofs.Totals

/-!
What an automaton answers at one memory, without effect. Once it has been copied that is all there is
to it, and its strings have the weights that they have in the copy.
-/
namespace WeightedAutomata

variable {σ L S T W : Type}

/-- The answers that `A` gives at the memory `ξ` and leaves it as it is. -/
noncomputable def Automaton.frozen (A : Automaton (StateT σ Option) L S T W) (ξ : σ) :
    Automaton Option L S T W := A.hoist (recollect ξ)

theorem mapM_congr {α β : Type} {f g : α → Option β} {l : List α} (h : ∀ a ∈ l, f a = g a) :
    l.mapM f = l.mapM g := by
  induction l with
  | nil => rfl
  | cons a l ih =>
    rw [List.mapM_cons, List.mapM_cons, h a List.mem_cons_self,
      ih fun b hb => h b (List.mem_cons_of_mem a hb)]

theorem Echoes.of_recollect {α β : Type} {ξ : σ} {R : α → β → Prop} {x : Option α}
    {y : StateT σ Option β} {a : α} {b : β} (hx : x = some a) (hy : recollect ξ y = some b)
    (hab : R a b) : Echoes ξ R x y := by
  unfold Echoes
  rw [hx, recollect_eq_some.1 hy]
  exact .some ⟨hab, rfl⟩

namespace Automaton.Steadies

variable [Zero W] [One W] {r : Regime σ} {A : Automaton (StateT σ Option) L S T W}
variable {K : σ → S → Prop} {V : Automaton (Steady r) L S T W} (h : Steadies A K V) {ξ : σ}
variable (hξ : r.Sound ξ)
include h hξ

/-- What is answered at a sound memory keeps the promises. -/
theorem enumerates_frozen : Enumerates (A.frozen ξ).initialStates (A.frozen ξ).initialWeight
    (A.frozen ξ).outgoing (A.frozen ξ).source (A.frozen ξ).target (K ξ) := by
  have hforward := (h.honours ξ hξ).forward
  obtain ⟨f, rfl⟩ := h.exists_final
  exact hforward

theorem known_of_reachable {s : S} (hs : (A.frozen ξ).answered.Reachable s) : K ξ s :=
  hs.answered_induction (h.enumerates_frozen hξ).known (h.enumerates_frozen hξ).far_known

theorem finalWeight_frozen {s : S} (hs : K ξ s) :
    (A.frozen ξ).finalWeight s = recollect ξ (V.finalWeight s).ask := by
  change recollect ξ (A.finalWeight s) = _
  unfold recollect
  rw [h.finalWeight_run ξ s hξ hs]

variable [BEq S] [Hashable S] {budget : ℕ}

omit hξ in
theorem explore_eq_ask : A.explore budget = (V.explore budget).ask := by
  obtain ⟨f, rfl⟩ := h.exists_final
  exact hoist_explore Steady.asking V budget

omit hξ in
/-- A traversal comes to the same states again. -/
theorem explore_run {visited : List (S × List T)} {μ ν : σ} (hμ : r.Sound μ)
    (hrun : (A.explore budget).run μ = some (visited, ν)) :
    r.Sound ν ∧ r.Later μ ν ∧ ∀ ω, r.Sound ω → r.Later ν ω →
      (A.explore budget).run ω = some (visited, ω) ∧ (A.frozen ω).explore budget = some visited := by
  rw [h.explore_eq_ask] at hrun ⊢
  obtain ⟨hν, hlater⟩ := (V.explore budget).keeps μ visited ν hμ hrun
  refine ⟨hν, hlater, fun ω hω hνω => ⟨(V.explore budget).again μ visited ν hμ hrun ω hνω, ?_⟩⟩
  have hagain := (V.explore budget).recollect_of_run hμ hrun hνω
  obtain ⟨f, rfl⟩ := h.exists_final
  exact (hoist_explore (Steady.recalling ω hω) V budget).trans hagain

variable [LawfulBEq S]

omit hξ in
theorem materialize_eq_ask {μ : σ} (hμ : r.Sound μ) :
    (A.materialize budget).run μ = (V.materialize budget).ask.run μ := by
  have hask : (V.hoist Steady.asking.map).materialize budget = (V.materialize budget).ask :=
    hoist_materialize Steady.asking V budget
  rw [← hask]
  have hexplore : A.explore budget = (V.hoist Steady.asking.map).explore budget :=
    h.explore_eq_ask.trans (hoist_explore Steady.asking V budget).symm
  refine Steady.run_bind_eq (congrArg (StateT.run · μ) hexplore) fun visited ν hrun => ?_
  obtain ⟨hν, -, hfrozen⟩ := h.explore_run hμ ((congrArg (StateT.run · μ) hexplore).trans hrun)
  obtain ⟨-, hmem, -⟩ := explore_answered (hfrozen ν hν (r.refl ν)).2
  have hknown : ∀ e ∈ visited, K ν e.1 := fun e he =>
    h.known_of_reachable hν ((hmem _).1 (List.mem_map.2 ⟨e, he, rfl⟩))
  have hfinal := h.finalWeight_run
  have hlater : ∀ {ζ ω}, r.Later ζ ω → ∀ {s}, K ζ s → K ω s := h.later
  obtain ⟨f, rfl⟩ := h.exists_final
  refine Steady.run_bind_eq (Steady.run_mapM_eq (I := fun ω (e : S × List T) => K ω e.1)
    (g := V.copyTerminal)
    (fun hω e he => hlater hω (s := e.1) he) (fun e ω hω he => ?_) hν hknown) fun _ _ _ => rfl
  refine Steady.run_bind_eq rfl fun v ζ hrun => ?_
  obtain ⟨hζ, hωζ⟩ := (V.initialWeight e.1).keeps ω v ζ hω hrun
  exact Steady.run_bind_eq (hfinal ζ e.1 hζ (hlater hωζ he)) fun _ _ _ => rfl

omit hξ in
/-- What is asked for a copy is asked after a traversal. -/
theorem later_of_materialize {visited : List (S × List T)}
    {result : Except BuildError (Explicit L W)} {μ μ' ν : σ} (hμ : r.Sound μ)
    (hexplore : (A.explore budget).run μ = some (visited, μ'))
    (hrun : (A.materialize budget).run μ = some (result, ν)) : r.Sound ν ∧ r.Later μ' ν := by
  rw [h.materialize_eq_ask hμ] at hrun
  rw [h.explore_eq_ask] at hexplore
  obtain ⟨⟨visited', ω⟩, hfirst, hrest⟩ := Option.bind_eq_some_iff.1 hrun
  obtain ⟨rfl, rfl⟩ : visited' = visited ∧ ω = μ' := by
    cases hfirst.symm.trans hexplore
    exact ⟨rfl, rfl⟩
  obtain ⟨hω, -⟩ := (V.explore budget).keeps μ visited' ω hμ hfirst
  exact Steady.keeps _ ω result ν hω hrest

/-- A copy that has been made would be made again from what is answered since. -/
theorem materialize_run {result : Except BuildError (Explicit L W)} {μ ν : σ} (hμ : r.Sound μ)
    (hrun : (A.materialize budget).run μ = some (result, ν)) (hνξ : r.Later ν ξ) :
    (A.frozen ξ).materialize budget = some result := by
  rw [h.materialize_eq_ask hμ] at hrun
  have hagain := (hoist_materialize (Steady.recalling ξ hξ) V budget).trans
    ((V.materialize budget).recollect_of_run hμ hrun hνξ)
  obtain ⟨visited, hvisited, hagain⟩ := Option.bind_eq_some_iff.1 hagain
  have hexplore : (A.frozen ξ).explore budget = some visited := by
    obtain ⟨f, rfl⟩ := h.exists_final
    exact hvisited
  obtain ⟨-, hmem, -⟩ := explore_answered hexplore
  obtain ⟨terminals, hterminals, hagain⟩ := Option.bind_eq_some_iff.1 hagain
  refine Option.bind_eq_some_iff.2 ⟨visited, hexplore, Option.bind_eq_some_iff.2 ⟨terminals, ?_, ?_⟩⟩
  · rw [← hterminals]
    refine mapM_congr fun e he => ?_
    have hfinal := h.finalWeight_frozen hξ
      (h.known_of_reachable hξ ((hmem _).1 (List.mem_map.2 ⟨e, he, rfl⟩)))
    obtain ⟨f, rfl⟩ := h.exists_final
    exact congrArg (fun w => (recollect ξ (V.initialWeight e.1).ask).bind fun v =>
      w.bind fun w => some (Terminal.mk v w)) hfinal
  · obtain ⟨f, rfl⟩ := h.exists_final
    exact hagain

end Automaton.Steadies

namespace IsCopy

variable {E : Explicit L W} {A : Automaton (StateT σ Option) L S T W} {ξ : σ} {ss starts : List S}

section Mirrors

variable [Zero W] [One W] [BEq W] (h : IsCopy E (A.frozen ξ) ss) {K : S → Prop}
variable (hstarts : (A.frozen ξ).initialStates = some starts)
variable (hA : Enumerates (A.frozen ξ).initialStates (A.frozen ξ).initialWeight
  (A.frozen ξ).outgoing (A.frozen ξ).source (A.frozen ξ).target K)
include h hstarts hA

/-- The answers of an automaton that has been copied, asked for once more. -/
theorem mirrors_answered :
    Automaton.Mirrors ξ Eq ((A.frozen ξ).answered.lift : Automaton Option L S T W) A
      (fun s q => s = q ∧ (A.frozen ξ).answered.Reachable q)
      fun t u => t = u ∧ ∃ s, (A.frozen ξ).answered.Reachable s ∧ u ∈ (A.frozen ξ).answered.leaving s
      where
  unique := ⟨fun _ _ _ hs hq => hs.1.trans hq.1.symm, fun _ _ _ hs hq => hs.1.symm.trans hq.1⟩
  initialStates := by
    refine .of_recollect (congrArg some (Automaton.starts_answered hstarts)) hstarts
      (List.forall₂_same.2 ?_)
    exact fun s hs => ⟨rfl, .start (by rwa [Automaton.starts_answered hstarts])⟩
  outgoing := by
    rintro s _ ⟨rfl, hs⟩
    obtain ⟨i, hi⟩ := h.exists_place hs
    obtain ⟨us, ts, -, hts, -⟩ := h.outgoing i s hi
    refine .of_recollect (congrArg some (Automaton.leaving_answered hts)) hts
      (List.forall₂_same.2 ?_)
    exact fun t ht => ⟨rfl, s, hs, by rwa [Automaton.leaving_answered hts]⟩
  initialWeight := by
    rintro s _ ⟨rfl, hs⟩
    obtain ⟨i, hi⟩ := h.exists_place hs
    exact .of_recollect (congrArg some (h.entry_eq hi)) (h.initialWeight_eq_some hi) rfl
  finalWeight := by
    rintro s _ ⟨rfl, hs⟩
    obtain ⟨i, hi⟩ := h.exists_place hs
    exact .of_recollect (congrArg some (h.exit_eq hi)) (h.finalWeight_eq_some hi) rfl
  weight := by
    rintro t _ ⟨rfl, s, hs, ht⟩
    obtain ⟨i, hi⟩ := h.exists_place hs
    obtain ⟨u, -, -, -, hw⟩ := exists_mem_of_forall₂ (h.forall₂_leaving hi) ht
    refine .of_recollect ?_ hw rfl
    change some (((A.frozen ξ).weight t).getD 0) = _
    rw [hw]
    rfl
  source := by
    rintro t _ ⟨rfl, s, hs, ht⟩
    obtain ⟨i, hi⟩ := h.exists_place hs
    obtain ⟨us, ts, -, hts, -⟩ := h.outgoing i s hi
    rw [Automaton.leaving_answered hts] at ht
    have hsource : A.source t = s := hA.near_eq s ts hts t ht
    exact ⟨rfl, by rwa [hsource]⟩
  target := by
    rintro t _ ⟨rfl, s, hs, ht⟩
    exact ⟨rfl, hs.step ht⟩
  label_eq := by
    rintro t _ ⟨rfl, -⟩
    rfl
  order := by
    change Option.Rel _ A.order A.order
    cases A.order with
    | none => exact .none
    | some order =>
      refine .some ?_
      rintro s _ ⟨rfl, -⟩ q _ ⟨rfl, -⟩
      rfl

/-- A copy without an order mirrors an automaton without an order. -/
theorem mirrors_view (hplaces : List.Forall₂ (fun (i : ℕ) s => ss[i]? = some s)
      (E.statesWhere Terminal.initial) starts) (hE : E.order? = none) (horder : A.order = none) :
    Automaton.Mirrors ξ Eq E.view A (fun i s => ss[i]? = some s) fun u t =>
      ss[E.view.source u]? = some (A.source t) ∧ ss[E.view.target u]? = some (A.target t) ∧
        E.view.label u = A.label t ∧ E.view.weight u = (A.frozen ξ).weight t where
  unique := biUnique_place h.nodup
  initialStates := .of_recollect rfl hstarts hplaces
  outgoing i s hs := by
    obtain ⟨us, ts, hus, hts, hall⟩ := h.outgoing i s hs
    refine .of_recollect hus hts ?_
    have hsource := (List.forall₂_and_left _ _).2 ⟨hA.near_eq s ts hts, hall.flip⟩
    refine hsource.flip.imp fun u t ⟨hsource, hu, htarget, hlabel, hweight⟩ => ?_
    have hs' : ss[E.view.source u]? = some (A.source t) := by
      rw [hu, hs]
      exact congrArg some hsource.symm
    exact ⟨hs', htarget, hlabel, hweight⟩
  initialWeight i s hs := .of_recollect rfl (h.initialWeight_eq_some hs) rfl
  finalWeight i s hs := .of_recollect rfl (h.finalWeight_eq_some hs) rfl
  weight u t ht := .of_recollect rfl ht.2.2.2.symm rfl
  source _ _ ht := ht.1
  target _ _ ht := ht.2.1
  label_eq _ _ ht := ht.2.2.1
  order := by
    rw [horder]
    change Option.Rel _ E.order? none
    rw [hE]
    exact .none

end Mirrors

variable [Semiring W] [BEq W] [LawfulBEq W] [BEq L] [LawfulBEq L] [BEq S] [LawfulBEq S] [Hashable S]

/-- Once the budget is large enough, a string has the same weight in the copy, or none in both. -/
theorem stringWeight_run {visited : List (S × List T)} {budget : ℕ}
    (hvisited : (A.frozen ξ).explore budget = some visited)
    (h : IsCopy E (A.frozen ξ) (visited.map Prod.fst)) {K : S → Prop}
    (hA : Enumerates (A.frozen ξ).initialStates (A.frozen ξ).initialWeight
      (A.frozen ξ).outgoing (A.frozen ξ).source (A.frozen ξ).target K)
    (horder : A.order.isSome → (A.frozen ξ).answered.Acyclic) (queue : Queue W) (x : List L) :
    ∃ n, ∀ budget, n ≤ budget → (A.stringWeight budget ⟨queue, .exact⟩ x).run ξ =
      (E.view.stringWeight budget ⟨queue, .exact⟩ x).map fun w => (w, ξ) := by
  obtain ⟨starts, hstarts, -⟩ := Option.bind_eq_some_iff.1 hvisited
  have hmirrors := h.mirrors_answered hstarts hA
  by_cases hone : (1 : W) = 0
  · have : Subsingleton W := subsingleton_of_zero_eq_one hone.symm
    have hC := Automaton.lift_answers_reachable Option (A.frozen ξ).answered
    have hE := Automaton.lift_answers_reachable Option E.bare
    refine ⟨1, fun budget hbudget => ?_⟩
    rw [hmirrors.stringWeight_run_eq, hC.stringWeight_of_subsingleton _ x hbudget]
    exact congrArg (Option.map _) (hE.stringWeight_of_subsingleton _ x hbudget).symm
  · by_cases hacyclic : (A.frozen ξ).answered.Acyclic
    · obtain ⟨n, hn⟩ := h.stringWeight_eq hone hA hstarts hacyclic queue x
      refine ⟨n, fun budget hbudget => ?_⟩
      rw [hmirrors.stringWeight_run_eq, hn budget hbudget]
    · have hnone : A.order = none := by
        cases hA : A.order with
        | none => rfl
        | some order => exact absurd (horder (by rw [hA]; rfl)) hacyclic
      have hE : E.order? = none := by
        cases hE : E.order? with
        | none => rfl
        | some order => exact absurd (h.order_isSome_iff.1 (by rw [hE]; rfl)) hacyclic
      have hprefix := Automaton.starts_prefix_of_explore (C := A.frozen ξ) hnone hstarts
        (hA.nodup starts hstarts) hvisited
      have hfilter : (visited.map Prod.fst).filter starts.contains = starts := by
        obtain ⟨others, hothers⟩ := hprefix
        have hnodup := h.nodup
        rw [← hothers] at hnodup ⊢
        rw [List.filter_append, List.filter_eq_self.2 fun s hs => List.contains_iff_mem.2 hs,
          List.filter_eq_nil_iff.2 fun s hs hmem =>
            (List.nodup_append.1 hnodup).2.2 s (List.contains_iff_mem.1 hmem) s hs rfl,
          List.append_nil]
      have hplaces := h.forall₂_starts hstarts hone hA
      rw [hfilter] at hplaces
      have hview := h.mirrors_view hstarts hA hplaces hE hnone
      exact ⟨0, fun budget _ => hview.stringWeight_run_eq budget _ x⟩

end IsCopy

end WeightedAutomata
