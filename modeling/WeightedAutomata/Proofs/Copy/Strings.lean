import WeightedAutomata.Proofs.Contract
import WeightedAutomata.Proofs.Copy.Order
import WeightedAutomata.Proofs.StringWeight

/-!
Strings have the same weights in a copy. Without cycles both weights are sums over the same paths,
in whatever order these are added.
-/
namespace WeightedAutomata

variable {L S T W : Type}

/-- The answers of an automaton that keeps its promises are lawful. -/
theorem Enumerates.lawful [Zero W] [One W] (hone : (1 : W) ≠ 0) {C : Automaton Option L S T W}
    {K : S → Prop}
    (h : Enumerates C.initialStates C.initialWeight C.outgoing C.source C.target K)
    {starts : List S} (hstarts : C.initialStates = some starts)
    (hentry : ∀ s ∈ starts, (C.initialWeight s).isSome) : C.answered.Lawful where
  starts_nodup := by
    rw [Automaton.starts_answered hstarts]
    exact h.nodup starts hstarts
  mem_starts s := by
    rw [Automaton.starts_answered hstarts]
    change s ∈ starts ↔ (C.initialWeight s).getD 0 ≠ 0
    cases hs : C.initialWeight s with
    | some w => exact h.mem_iff hone starts hstarts s w hs
    | none =>
      refine iff_of_false (fun hmem => ?_) fun hne => hne rfl
      have hsome := hentry s hmem
      rw [hs] at hsome
      cases hsome
  source_eq s t ht := by
    change t ∈ (C.outgoing s).getD [] at ht
    cases hs : C.outgoing s with
    | none => simp [hs] at ht
    | some ts => exact h.near_eq s ts hs t (by simpa [hs] using ht)

namespace IsCopy

section Answers

variable [Zero W] [BEq W] {E : Explicit L W} {C : Automaton Option L S T W} {ss : List S}
variable (h : IsCopy E C ss) {i : ℕ} {s : S} (hs : ss[i]? = some s)
include h hs

theorem initialWeight_eq_some :
    C.initialWeight s = some (E.bare.entry i) :=
  (h.initialWeight_eq i s hs).symm

theorem finalWeight_eq_some :
    C.finalWeight s = some (E.bare.exit i) :=
  (h.finalWeight_eq i s hs).symm

theorem entry_eq : C.answered.entry s = E.bare.entry i := by
  change (C.initialWeight s).getD 0 = _
  rw [h.initialWeight_eq_some hs]
  rfl

theorem exit_eq : C.answered.exit s = E.bare.exit i := by
  change (C.finalWeight s).getD 0 = _
  rw [h.finalWeight_eq_some hs]
  rfl

/-- Transitions lead on alike, and their weights are answered. -/
theorem forall₂_leaving :
    List.Forall₂ (fun u t => ss[E.bare.target u]? = some (C.target t) ∧
      E.bare.label u = C.label t ∧ C.weight t = some (E.bare.cost u))
        (E.bare.leaving i) (C.answered.leaving s) := by
  obtain ⟨us, ts, hus, hts, hall⟩ := h.outgoing i s hs
  obtain rfl := Option.some.inj hus
  rw [Automaton.leaving_answered hts]
  exact hall.imp fun u t hut => ⟨hut.2.1, hut.2.2.1, hut.2.2.2.symm⟩

end Answers

section Starts

variable [Zero W] [One W] [BEq W] [LawfulBEq W] {E : Explicit L W} {C : Automaton Option L S T W}
variable {ss starts : List S} (h : IsCopy E C ss) (hstarts : C.initialStates = some starts)
include h hstarts

omit [One W] [LawfulBEq W] in
theorem initialWeight_isSome {s : S} (hs : s ∈ starts) : (C.initialWeight s).isSome := by
  obtain ⟨i, hi⟩ := h.exists_place (.start (by rwa [Automaton.starts_answered hstarts]))
  rw [h.initialWeight_eq_some hi]
  rfl

variable [BEq S] [LawfulBEq S] (hone : (1 : W) ≠ 0) {K : S → Prop}
variable (hC : Enumerates C.initialStates C.initialWeight C.outgoing C.source C.target K)
include hone hC

/-- The copy's initial states are the places of the initial states. -/
theorem forall₂_starts :
    List.Forall₂ (fun (i : ℕ) s => ss[i]? = some s) (E.statesWhere Terminal.initial)
      (ss.filter starts.contains) := by
  let p (i : ℕ) : Bool := E.states[i]?.any fun terminal => !terminal.initial == 0
  have hagree : ∀ e ∈ ss.zipIdx, p e.2 = starts.contains e.1 := by
    rintro ⟨s, i⟩ he
    have hs := List.mem_zipIdx_iff_getElem?.1 he
    obtain ⟨hlt, -⟩ := List.getElem?_eq_some_iff.1 hs
    rw [← h.size_eq] at hlt
    have hweight := h.initialWeight_eq_some hs
    have hget : E.states[i]? = some E.states[i] := Array.getElem?_eq_getElem hlt
    have hentry : E.bare.entry i = E.states[i].initial := by
      change E.states[i]?.elim 0 Terminal.initial = _
      rw [hget]
      rfl
    rw [hentry] at hweight
    have hmem := hC.mem_iff hone starts hstarts s _ hweight
    rw [Bool.eq_iff_iff, List.contains_iff_mem, hmem]
    simp [p, hget]
  have hplaces : E.statesWhere Terminal.initial = (ss.zipIdx.filter fun e => p e.2).map Prod.snd := by
    rw [Graph.statesWhere, h.size_eq, List.range_eq_range', ← List.zipIdx_map_snd, List.filter_map]
    rfl
  have hstates : ss.filter starts.contains = (ss.zipIdx.filter fun e => p e.2).map Prod.fst := by
    rw [List.filter_congr hagree]
    conv => lhs; rw [← List.zipIdx_map_fst 0 ss, List.filter_map]
    rfl
  rw [hplaces, hstates, List.forall₂_map_left_iff, List.forall₂_map_right_iff, List.forall₂_same]
  intro e he
  exact List.mem_zipIdx_iff_getElem?.1 (List.mem_filter.1 he).1

omit [LawfulBEq W] hone in
theorem filter_starts_perm : (ss.filter starts.contains).Perm starts := by
  refine (List.perm_ext_iff_of_nodup (h.nodup.filter _) (hC.nodup starts hstarts)).2 fun s => ?_
  rw [List.mem_filter, List.contains_iff_mem, and_iff_right_iff_imp]
  intro hs
  exact (h.mem_iff s).2 (.start (by rwa [Automaton.starts_answered hstarts]))

end Starts

section Sums

variable [Semiring W] [BEq W] {E : Explicit L W} {C : Automaton Option L S T W} {ss : List S}
variable [BEq L] [LawfulBEq L] (h : IsCopy E C ss)
include h

/-- From corresponding states the same string can be read in the same ways. -/
theorem pathSum_eq (x : List L) (n : ℕ) {i : ℕ} {s : S} (hs : ss[i]? = some s) (j : ℕ) :
    (E.bare.reading x).pathSum n (E.bare.reading x).exit ⟨i, j, .free⟩ =
      (C.answered.reading x).pathSum n (C.answered.reading x).exit ⟨s, j, .free⟩ := by
  induction n generalizing i s j with
  | zero => rw [Automaton.pathSum_zero, Automaton.pathSum_zero]
  | succ n ih =>
    have honward : List.Forall₂ Eq
        ((E.bare.leaving i).map fun u => E.bare.cost u *
          E.bare.follow x ((E.bare.reading x).pathSum n (E.bare.reading x).exit) j u)
        ((C.answered.leaving s).map fun t => C.answered.cost t *
          C.answered.follow x ((C.answered.reading x).pathSum n (C.answered.reading x).exit) j t) := by
      rw [List.forall₂_map_left_iff, List.forall₂_map_right_iff]
      refine (h.forall₂_leaving hs).imp fun u t ⟨htarget, hlabel, hcost⟩ => ?_
      have hcost : C.answered.cost t = E.bare.cost u := by
        change (C.weight t).getD 0 = _
        rw [hcost]
        rfl
      have hlabel : C.answered.label t = E.bare.label u := hlabel.symm
      rw [hcost]
      congr 1
      unfold Automaton.follow
      rw [hlabel]
      cases E.bare.label u with
      | none => exact ih htarget j
      | some a =>
        dsimp only
        split
        · exact ih htarget (j + 1)
        · rfl
    rw [List.forall₂_eq_eq_eq] at honward
    rw [Automaton.pathSum_succ, Automaton.pathSum_succ, Automaton.onward_reading,
      Automaton.onward_reading, honward, Automaton.exit_product, Automaton.exit_product, h.exit_eq hs]

end Sums

section Acyclic

variable [Semiring W] [BEq W] [LawfulBEq W] {E : Explicit L W} {C : Automaton Option L S T W}
variable {ss starts : List S} [BEq L] [LawfulBEq L] [BEq S] [LawfulBEq S] [Hashable S]

omit [LawfulBEq W] [BEq L] [LawfulBEq L] [BEq S] [LawfulBEq S] [Hashable S] in
theorem acyclic_bare {E : Explicit L W} (hsome : E.order?.isSome) : E.bare.Acyclic := by
  unfold Explicit.order? at hsome
  rw [Option.isSome_map] at hsome
  obtain ⟨ranks, hranks⟩ := Option.isSome_iff_exists.1 hsome
  obtain ⟨rank, -, -, hlt⟩ := E.ranks_spec hranks
  refine Automaton.acyclic_of_lt (fun i j => rank i < rank j) (fun _ => lt_irrefl _)
    (fun _ _ _ _ => lt_trans) fun i _ u hu => ?_
  change u ∈ E.outgoing.getD i [] at hu
  rw [E.outgoing_eq, E.mem_edgesBy fun e he => E.source_lt he] at hu
  obtain ⟨e, he, rfl⟩ := hu
  have htarget : E.bare.target u = e.target := congrArg (fun o => o.elim absentState Edge.target) he
  rw [htarget]
  exact hlt e (List.mem_of_getElem? (i := u) (by simpa using he))

omit [BEq L] [LawfulBEq L] [BEq S] [LawfulBEq S] [Hashable S] in
theorem finite_bare (E : Explicit L W) : {i | E.bare.Reachable i}.Finite := by
  have hK := (Honours.explicit E).forward
  refine (Set.finite_Iio E.states.size).subset fun i hi => ?_
  induction hi with
  | start hi => exact hK.known _ rfl _ hi
  | step _ ht ih => exact hK.far_known _ ih _ rfl _ ht

/-- Without cycles the weights of a string are sums over the same paths, once the budget is large
enough. -/
theorem stringWeight_eq (h : IsCopy E C ss) (hone : (1 : W) ≠ 0) {K : S → Prop}
    (hC : Enumerates C.initialStates C.initialWeight C.outgoing C.source C.target K)
    (hstarts : C.initialStates = some starts) (hacyclic : C.answered.Acyclic) (queue : Queue W)
    (x : List L) : ∃ n, ∀ budget, n ≤ budget →
      E.view.stringWeight budget ⟨queue, .exact⟩ x =
        (C.answered.lift : Automaton Option L S T W).stringWeight budget ⟨queue, .exact⟩ x := by
  have hfinite : {s | C.answered.Reachable s}.Finite :=
    ss.finite_toSet.subset fun s hs => (h.mem_iff s).2 hs
  have hlawful := hC.lawful hone hstarts fun s hs => h.initialWeight_isSome hstarts hs
  obtain ⟨hnodup, hmem, hsource⟩ := (Honours.explicit E).forward.lawful hone rfl fun _ _ => rfl
  have hlawful' : E.bare.Lawful := ⟨hnodup, hmem, hsource⟩
  have hacyclic' := acyclic_bare (h.order_isSome_iff.2 hacyclic)
  obtain ⟨size, hb⟩ := Automaton.exists_bounded_reading hfinite
    (fun s hs ts hne hts _ => hacyclic s hs ts hne hts) x
  obtain ⟨size', hb'⟩ := Automaton.exists_bounded_reading (finite_bare E)
    (fun s hs ts hne hts _ => hacyclic' s hs ts hne hts) x
  have hanswers := Automaton.lift_answers_reachable Option C.answered
  have hanswers' := Automaton.lift_answers_reachable Option E.bare
  have hsums : (E.bare.starts.map fun i => E.bare.entry i * E.bare.rest x size' i 0).sum =
      (C.answered.starts.map fun s => C.answered.entry s * C.answered.rest x size s 0).sum := by
    have hperm := h.filter_starts_perm hstarts hC
    have hreach {s : S} (hs : s ∈ C.answered.starts) :
        (C.answered.reading x).Reachable ⟨s, 0, .free⟩ :=
      .start (by rw [Automaton.starts_reading hlawful]; exact List.mem_map.2 ⟨s, hs, rfl⟩)
    have hreach' {i : ℕ} (hi : i ∈ E.bare.starts) : (E.bare.reading x).Reachable ⟨i, 0, .free⟩ :=
      .start (by rw [Automaton.starts_reading hlawful']; exact List.mem_map.2 ⟨i, hi, rfl⟩)
    rw [Automaton.starts_answered hstarts] at hreach ⊢
    rw [← (hperm.map _).sum_eq]
    congr 1
    rw [← List.forall₂_eq_eq_eq, List.forall₂_map_left_iff, List.forall₂_map_right_iff]
    have hplaces := (List.forall₂_and_left _ _).2
      ⟨fun i (hi : i ∈ E.bare.starts) => hi, h.forall₂_starts hstarts hone hC⟩
    refine hplaces.imp fun i s ⟨hi, hs⟩ => ?_
    have hmem : s ∈ starts := by
      have hentry : C.answered.entry s ≠ 0 := by
        rw [h.entry_eq hs]
        exact (hlawful'.mem_starts i).1 hi
      rw [← Automaton.starts_answered hstarts]
      exact (hlawful.mem_starts s).2 hentry
    unfold Automaton.rest
    rw [h.entry_eq hs, ← hb'.pathSum_eq _ (hreach' hi) (le_max_left _ (size ⟨s, 0, .free⟩)),
      ← hb.pathSum_eq _ (hreach hmem) (le_max_right (size' ⟨i, 0, .free⟩) _), h.pathSum_eq x _ hs]
  refine ⟨(E.bare.starts.map fun i => size' ⟨i, 0, .free⟩).sum +
    (C.answered.starts.map fun s => size ⟨s, 0, .free⟩).sum + 2, fun budget hbudget => ?_⟩
  have hlt : (C.answered.starts.map fun s => size ⟨s, 0, .free⟩).sum + 1 < budget := by omega
  have hlt' : (E.bare.starts.map fun i => size' ⟨i, 0, .free⟩).sum + 1 < budget := by omega
  have hrun := hanswers.stringWeight_eq hlawful hb queue hlt
  have hrun' := hanswers'.stringWeight_eq hlawful' hb' queue hlt'
  rw [hrun, ← hsums]
  exact hrun'

end Acyclic

end IsCopy

end WeightedAutomata
