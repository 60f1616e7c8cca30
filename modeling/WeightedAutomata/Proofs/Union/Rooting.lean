import WeightedAutomata.Proofs.Embedding
import WeightedAutomata.Proofs.Totals

/-!
Sums over the paths of the single-initial view. What the added state leads on to is the sum over the
initial states of their weights times what they lead on to, after each label and each epsilon
transition.
-/
namespace WeightedAutomata.Automaton

variable {L S T W : Type}

section Inherited

variable {A : Automaton Id L S T W}

/-- The added state, and the states of the view that stand for reachable ones. -/
def Inherited (A : Automaton Id L S T W) (s : Option S) : Prop := ∀ q ∈ s, A.Reachable q

theorem inherited_none : A.Inherited none := nofun

theorem inherited_some {s : S} (hs : s ∈ A.starts) : A.Inherited (some s) := by
  rintro _ ⟨⟩
  exact .start hs

theorem finite_inherited (hfinite : {s | A.Reachable s}.Finite) : {s | A.Inherited s}.Finite := by
  refine ((Set.finite_singleton none).union (hfinite.image some)).subset fun s hs => ?_
  cases s with
  | none => exact .inl rfl
  | some q => exact .inr ⟨q, hs q rfl, rfl⟩

end Inherited

section Paths

variable [Zero W] [One W] [Add W] [Mul W] {A : Automaton Id L S T W}

theorem embeds_singleInitial (A : Automaton Id L S T W) :
    A.Embeds A.singleInitial some .plain where
  leaving _ := rfl
  cost _ := rfl
  target _ := rfl
  label _ := rfl

/-- No transition leads to the added state. -/
theorem endpoint_singleInitial_ne_none {s : Option S} {us : List (Rooted T)} (hne : us ≠ []) :
    A.singleInitial.endpoint s us ≠ none := by
  induction us generalizing s with
  | nil => exact absurd rfl hne
  | cons u us ih =>
    rw [endpoint_cons, target_singleInitial]
    cases us with
    | nil => exact Option.some_ne_none _
    | cons v us => exact ih (List.cons_ne_nil v us)

theorem exists_cycle_of_singleInitial {s : Option S} {us : List (Rooted T)} (hne : us ≠ [])
    (hpath : A.singleInitial.IsPath s us) (hend : A.singleInitial.endpoint s us = s) :
    ∃ q ts, s = some q ∧ ts ≠ [] ∧ A.IsPath q ts ∧ A.endpoint q ts = q ∧
      A.labels ts = A.singleInitial.labels us := by
  cases s with
  | none => exact absurd hend (endpoint_singleInitial_ne_none hne)
  | some q =>
    obtain ⟨ts, hts, hpath, hend, hlabels⟩ :=
      (embeds_singleInitial A).exists_cycle (Option.some_injective S) hne hpath hend
    exact ⟨q, ts, rfl, hts, hpath, hend, hlabels⟩

theorem closed_inherited : A.singleInitial.Closed A.Inherited :=
  A.closed_reachable.singleInitial fun _ hs => .start hs

theorem inherited_starts {s : Option S} (hs : s ∈ A.singleInitial.starts) : A.Inherited s := by
  obtain rfl := List.mem_singleton.1 hs
  exact inherited_none

theorem inherited_of_reachable {s : Option S} (hs : A.singleInitial.Reachable s) : A.Inherited s := by
  obtain ⟨q, hq, ts, hts, rfl⟩ := hs.exists_path
  exact closed_inherited.endpoint (inherited_starts hq) hts

theorem finite_singleInitial (hfinite : {s | A.Reachable s}.Finite) :
    {s | A.singleInitial.Reachable s}.Finite :=
  (finite_inherited hfinite).subset fun _ hs => inherited_of_reachable hs

theorem Lawful.singleInitial (hA : A.Lawful) (hone : (1 : W) ≠ 0) : A.singleInitial.Lawful where
  starts_nodup := List.nodup_singleton none
  mem_starts s := by
    rw [starts_singleInitial, List.mem_singleton]
    cases s with
    | none => exact iff_of_true rfl hone
    | some q => exact iff_of_false (Option.some_ne_none q) fun h => h rfl
  source_eq s t ht := by
    cases s with
    | none =>
      rw [leaving_singleInitial_none] at ht
      obtain ⟨u, -, rfl⟩ := List.mem_map.1 ht
      rfl
    | some q =>
      obtain ⟨u, hu, rfl⟩ := List.mem_map.1 ht
      exact congrArg some (hA.source_eq q u hu)

theorem EpsilonAcyclic.singleInitial (hepsilon : A.EpsilonAcyclic) :
    A.singleInitial.EpsilonAcyclic := by
  intro s hs us hne hpath hlabels hend
  obtain ⟨q, ts, rfl, hts, hpath, hend, hlabels'⟩ := exists_cycle_of_singleInitial hne hpath hend
  exact hepsilon q (inherited_of_reachable hs q rfl) ts hts hpath (hlabels'.trans hlabels) hend

theorem exists_bounded_singleInitial (hfinite : {s | A.Reachable s}.Finite) (hacyclic : A.Acyclic) :
    ∃ size, A.singleInitial.Bounded A.Inherited size := by
  refine exists_bounded closed_inherited (finite_inherited hfinite) fun s hs us hne hpath hend => ?_
  obtain ⟨q, ts, rfl, hts, hpath, hend, -⟩ := exists_cycle_of_singleInitial hne hpath hend
  exact hacyclic q (hs q rfl) ts hts hpath hend

end Paths

section Sums

variable [Semiring W] {A : Automaton Id L S T W}

theorem exists_bounded_epsilonPart_singleInitial [BEq S] [BEq W]
    (hfinite : {s | A.Reachable s}.Finite) (hepsilon : A.EpsilonAcyclic) :
    ∃ closure, (A.singleInitial.epsilonPart []).Bounded A.Inherited closure := by
  refine closed_inherited.exists_bounded_epsilonPart (finite_inherited hfinite)
    fun s hs us hne hpath hlabels hend => ?_
  obtain ⟨q, ts, rfl, hts, hpath, hend, hlabels'⟩ := exists_cycle_of_singleInitial hne hpath hend
  exact hepsilon q (hs q rfl) ts hts hpath (hlabels'.trans hlabels) hend

/-- At the added state a function has the sum of its values at the initial states, each times the
initial weight. -/
def Gathers (A : Automaton Id L S T W) (g : Option S → W) : Prop :=
  g none = A.fromStarts fun s => g (some s)

theorem gathers_exit : A.Gathers A.singleInitial.exit := by
  unfold Gathers fromStarts
  rw [exit_singleInitial_none, List.sum_eq_foldl, List.foldl_map]
  rfl

/-- Functions that add up what a step leads to gather, whatever is added. -/
theorem gathers_onward (hA : A.Lawful) (g : Option S → W) : A.Gathers (A.singleInitial.onward g) := by
  unfold Gathers
  rw [onward_singleInitial_none hA]
  unfold fromStarts
  simp only [(embeds_singleInitial A).onward_eq]

theorem gathers_onLabel [BEq L] (hA : A.Lawful) (l : Option L) (g : Option S → W) :
    A.Gathers (A.singleInitial.onLabel l g) := by
  unfold Gathers fromStarts
  simp only [(embeds_singleInitial A).onLabel_eq]
  refine sum_leaving_singleInitial_none hA fun t => ?_
  change (if A.label t == l then A.entry (A.source t) * A.cost t * g (some (A.target t)) else 0) = _
  split
  · exact mul_assoc _ _ _
  · exact (mul_zero _).symm

theorem Gathers.pathSum (hA : A.Lawful) {size : Option S → ℕ}
    (hb : A.singleInitial.Bounded A.Inherited size) {g : Option S → W} (hg : A.Gathers g) :
    A.Gathers fun s => A.singleInitial.pathSum (size s) g s := by
  change A.singleInitial.pathSum (size none) g none =
    A.fromStarts fun s => A.singleInitial.pathSum (size (some s)) g (some s)
  rw [hb.pathSum_eq_add g inherited_none, hg, gathers_onward hA, ← fromStarts_add]
  exact fromStarts_congr fun s hs => (hb.pathSum_eq_add g (inherited_some hs)).symm

variable [BEq L] [BEq S] [BEq W] {closure : Option S → ℕ}
variable (hc : (A.singleInitial.epsilonPart []).Bounded A.Inherited closure)

include hc in
theorem Gathers.closing (hA : A.Lawful) {g : Option S → W} (hg : A.Gathers g) :
    A.Gathers (A.singleInitial.closing closure g) := by
  unfold Gathers
  rw [closing_eq hc g inherited_none, hg, gathers_onLabel hA, ← fromStarts_add]
  exact fromStarts_congr fun s hs => (closing_eq hc g (inherited_some hs)).symm

theorem gathers_after (hA : A.Lawful) (x : List L) :
    A.Gathers (A.singleInitial.after closure A.singleInitial.exit x) := by
  cases x with
  | nil => exact gathers_exit
  | cons a x => exact gathers_onLabel hA (some a) _

end Sums

end WeightedAutomata.Automaton
