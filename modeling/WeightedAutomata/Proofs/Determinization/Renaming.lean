import WeightedAutomata.Proofs.Determinization.Sessions

/-!
Two sessions with determinizations of one automaton: what is asked, and in which order, decides the
indices of the subsets and the orders in which they list states, and nothing else.
-/
namespace WeightedAutomata.Automaton

variable {L S T W : Type}

section Definitions

variable (μ μ' : SubsetMemory L S W)

/-- Indices, one of each memory, of the same states with the same residual weights. -/
def Twin (i j : ℕ) : Prop :=
  i < μ.subsets.size ∧ j < μ'.subsets.size ∧ ∀ e, e ∈ μ.subset i ↔ e ∈ μ'.subset j

/-- The same transition, but for the indices. -/
def Renames (t u : SubsetTransition L W) : Prop :=
  t.label = u.label ∧ t.weight = u.weight ∧ Twin μ μ' t.target u.target

end Definitions

variable {μ μ' : SubsetMemory L S W} {i i' j j' : ℕ}

theorem Twin.symm (h : Twin μ μ' i j) : Twin μ' μ j i := ⟨h.2.1, h.1, fun e => (h.2.2 e).symm⟩

theorem Renames.symm {t u : SubsetTransition L W} (h : Renames μ μ' t u) : Renames μ' μ u t :=
  ⟨h.1.symm, h.2.1.symm, h.2.2.symm⟩

variable [Semiring W] [BEq S] [LawfulBEq S] [BEq W] [LawfulBEq W] [Hashable S] [PartialInverse W]
variable {A : Automaton Id L S T W}

/-- Seeds in another order settle to the same, in any two memories. -/
theorem SettledTo.twin (hA : A.Lawful) (hepsilon : A.EpsilonAcyclic)
    {seeds seeds' : WeightedStates S W} (hseeds : ∀ e ∈ seeds, A.Reachable e.1)
    (hperm : seeds.Perm seeds') {r r' : Option (ℕ × W)} (h : A.SettledTo μ seeds r)
    (h' : A.SettledTo μ' seeds' r') :
    Option.Rel (fun p q => Twin μ μ' p.1 q.1 ∧ p.2 = q.2) r r' := by
  by_cases hnil : seeds = []
  · have hnil' : seeds' = [] := by rwa [hnil, List.nil_perm] at hperm
    rw [h.eq_none_of_nil hnil, h'.eq_none_of_nil hnil']
    exact .none
  have hnil' : seeds' ≠ [] := fun heq => hnil (by rwa [heq, List.perm_nil] at hperm)
  have hclosed {closed closed' : WeightedStates S W} (hc : A.ClosesTo seeds closed)
      (hc' : A.ClosesTo seeds' closed') : closed.Perm closed' ∧
        weigh closed (fun _ => 1) = weigh closed' fun _ => 1 :=
    have hp := hc.perm hc' hA hepsilon hseeds hperm
    ⟨hp, weigh_perm _ hp⟩
  cases h with
  | empty heq => exact absurd heq hnil
  | vanished hc hz =>
    cases h' with
    | placed hc' hne => exact absurd ((hclosed hc hc').2.symm.trans hz) hne
    | _ => exact .none
  | stuck hc _ herror =>
    cases h' with
    | placed hc' _ hinv =>
      rw [(hclosed hc hc').2, hinv] at herror
      cases herror
    | _ => exact .none
  | placed hc hne hinv hi hsubset =>
    cases h' with
    | empty heq => exact absurd heq hnil'
    | vanished hc' hz => exact absurd ((hclosed hc hc').2.trans hz) hne
    | stuck hc' _ herror =>
      rw [← (hclosed hc hc').2, hinv] at herror
      cases herror
    | placed hc' _ hinv' hj hsubset' =>
      obtain ⟨hp, htotal⟩ := hclosed hc hc'
      rw [← htotal, hinv] at hinv'
      cases hinv'
      have hsame := (hsubset.trans (hp.map _)).trans hsubset'.symm
      exact .some ⟨⟨hi, hj, fun e => hsame.mem_iff⟩, htotal⟩

variable [BEq L]

namespace Consistent

variable (h : A.Consistent μ) (h' : A.Consistent μ')
include h h'

omit [LawfulBEq S] [LawfulBEq W] in
theorem perm_of_twin (ht : Twin μ μ' i j) : (μ.subset i).Perm (μ'.subset j) :=
  (List.perm_ext_iff_of_nodup (List.Nodup.of_map _ (h.normal i ht.1).nodup)
    (List.Nodup.of_map _ (h'.normal j ht.2.1).nodup)).2 ht.2.2

omit [LawfulBEq S] [LawfulBEq W] in
theorem twin_unique (ht : Twin μ μ' i j) (ht' : Twin μ μ' i j') : j = j' :=
  h'.distinct j ht.2.1 j' ht'.2.1 ((h.perm_of_twin h' ht).symm.trans (h.perm_of_twin h' ht'))

variable (hA : A.Lawful) (hepsilon : A.EpsilonAcyclic)
include hA hepsilon

theorem twin_start {r r' : Option (ℕ × W)} (hr : μ.start = some r) (hr' : μ'.start = some r') :
    Option.Rel (fun p q => Twin μ μ' p.1 q.1 ∧ p.2 = q.2) r r' :=
  SettledTo.twin hA hepsilon reachable_startSeeds (.refl _) (h.start r hr) (h'.start r' hr')

/-- Each transition of a state has its like at the state's twin. -/
theorem exists_renames [LawfulBEq L] (ht : Twin μ μ' i j) {ts us : List (SubsetTransition L W)}
    (hts : μ.explored[i]? = some ts) (hus : μ'.explored[j]? = some us) :
    ∀ t ∈ ts, ∃ u ∈ us, Renames μ μ' t u := by
  intro t hmem
  have hsettled := ((h.explored i ts hts).2.settled_of_mem hmem).2
  obtain ⟨r, hr, hfilter⟩ := (h'.explored j us hus).2 t.label
  have hreach := reachable_carried (h.normal i ht.1).reachable t.label
  have hperm := carried_perm (A := A) (h.perm_of_twin h' ht) t.label
  cases hsettled.twin hA hepsilon hreach hperm hr with
  | @some _ q hq =>
    have hu : ⟨j, q.1, t.label, q.2⟩ ∈ us.filter fun u => u.label == t.label := by
      rw [hfilter]
      exact List.mem_singleton_self _
    exact ⟨_, (List.mem_filter.1 hu).1, rfl, hq.2, hq.1⟩

end Consistent

variable [LawfulBEq L]

/-- Two sessions find the same automaton up to the indices: subsets with the same states and
residual weights correspond one to one, the initial states correspond, and so do the weights and
the transitions of states that correspond. -/
theorem determinize_renames (A : Automaton Id L S T W) (hA : A.Lawful)
    (hepsilon : A.EpsilonAcyclic) (hfield : ∀ a : W, a ≠ 0 → ∃ b, a * b = 1)
    (hinverse : ∀ a b : W, PartialInverse.inverse a = .ok b → a * b = 1) {s s' : Session L S W}
    (h : A.Continues .start s) (h' : A.Continues .start s') :
    (∀ i j j', Twin s.memory s'.memory i j → Twin s.memory s'.memory i j' → j = j') ∧
    (∀ i i' j, Twin s.memory s'.memory i j → Twin s.memory s'.memory i' j → i = i') ∧
    (∀ is js, (.initialStates, .states is) ∈ s.log → (.initialStates, .states js) ∈ s'.log →
      List.Forall₂ (Twin s.memory s'.memory) is js) ∧
    (∀ i ts, (.outgoing i, .transitions ts) ∈ s.log → s.memory.explored[i]? = some ts) ∧
    ∀ i j, Twin s.memory s'.memory i j →
      (∀ w v, (.initialWeight i, .weight w) ∈ s.log → (.initialWeight j, .weight v) ∈ s'.log →
        w = v) ∧
      (∀ w v, (.finalWeight i, .weight w) ∈ s.log → (.finalWeight j, .weight v) ∈ s'.log →
        w = v) ∧
      ∀ ts us, s.memory.explored[i]? = some ts → s'.memory.explored[j]? = some us →
        (∀ t ∈ ts, ∃ u ∈ us, Renames s.memory s'.memory t u) ∧
        ∀ u ∈ us, ∃ t ∈ ts, Renames s.memory s'.memory t u := by
  have hinv := lawfulInverse_of_semifield hfield hinverse
  obtain ⟨hs, -, -⟩ := h.faithful hinv faithful_start
  obtain ⟨hs', -, -⟩ := h'.faithful hinv faithful_start
  have hμ := hs.consistent
  have hμ' := hs'.consistent
  have hright (i j j' : ℕ) : Twin s.memory s'.memory i j → Twin s.memory s'.memory i j' → j = j' :=
    hμ.twin_unique hμ'
  have hleft (i i' j : ℕ) (ht : Twin s.memory s'.memory i j) (ht' : Twin s.memory s'.memory i' j) :
      i = i' := hμ'.twin_unique hμ ht.symm ht'.symm
  refine ⟨hright, hleft, fun is js his hjs => ?_, fun i ts hts => hs.tells _ hts,
    fun i j ht => ⟨fun w v hw hv => ?_, fun w v hw hv => ?_, fun ts us hts hus => ⟨?_, ?_⟩⟩⟩
  · obtain ⟨r, hr, rfl⟩ := hs.tells _ his
    obtain ⟨r', hr', rfl⟩ := hs'.tells _ hjs
    cases hμ.twin_start hμ' hA hepsilon hr hr' with
    | none => exact .nil
    | some hpq => exact .cons hpq.1 .nil
  · obtain ⟨r, hr, rfl⟩ := hs.tells _ hw
    obtain ⟨r', hr', rfl⟩ := hs'.tells _ hv
    cases hμ.twin_start hμ' hA hepsilon hr hr' with
    | none => rfl
    | @some p q hpq =>
      have hiff : p.1 = i ↔ q.1 = j :=
        ⟨fun heq => hright i q.1 j (heq ▸ hpq.1) ht, fun heq => hleft p.1 i j (heq ▸ hpq.1) ht⟩
      simp only [Option.elim_some, hiff, hpq.2]
  · rw [show w = _ from hs.tells _ hw, show v = _ from hs'.tells _ hv]
    exact weigh_perm _ (hμ.perm_of_twin hμ' ht)
  · exact hμ.exists_renames hμ' hA hepsilon ht hts hus
  · intro u hu
    obtain ⟨t, ht, htwin⟩ := hμ'.exists_renames hμ hA hepsilon ht.symm hus hts u hu
    exact ⟨t, ht, htwin.symm⟩

/-- The second session asks for the failure first. -/
theorem determinize_renames_unevenFork : ∃ (s s' : Session Unit (Option Bool) ℚ≥0) (i j : ℕ)
    (ts us : List (SubsetTransition Unit ℚ≥0)) (answer : SubsetAnswer Unit (Option Bool) ℚ≥0),
    unevenFork.Continues .start s ∧ unevenFork.Continues .start s' ∧
      s.log = [(.outgoing i, .transitions ts), (.initialStates, .states [i])] ∧
      s'.log = [(.outgoing j, .transitions us), (.initialStates, .states [j]),
        (.failure, answer)] ∧
      Twin s.memory s'.memory i j ∧ (∀ t ∈ ts, ∃ u ∈ us, Renames s.memory s'.memory t u) ∧
      ∀ u ∈ us, ∃ t ∈ ts, Renames s.memory s'.memory t u := by
  obtain ⟨i, ts, μ, h⟩ := unevenFork_initial .refl
  obtain ⟨answer, ξ, hfirst⟩ := unevenFork_ask .refl .failure nofun nofun
  obtain ⟨j, us, μ', hrest⟩ := unevenFork_initial hfirst
  have h' := hfirst.trans hrest
  have hfield (a : ℚ≥0) (ha : a ≠ 0) : ∃ b, a * b = 1 := ⟨a⁻¹, mul_inv_cancel₀ ha⟩
  obtain ⟨-, -, hinitial, hts, htwins⟩ := determinize_renames unevenFork lawful_unevenFork
    epsilonAcyclic_unevenFork hfield (fun _ _ => inverse_nnrat) h h'
  obtain ⟨-, -, -, hus, -⟩ := determinize_renames unevenFork lawful_unevenFork
    epsilonAcyclic_unevenFork hfield (fun _ _ => inverse_nnrat) h' h
  cases hinitial [i] [j] (by simp) (by simp) with
  | cons htwin _ =>
    obtain ⟨-, -, htransitions⟩ := htwins i j htwin
    exact ⟨_, _, i, j, ts, us, answer, h, h', rfl, rfl, htwin,
      htransitions ts us (hts i ts List.mem_cons_self) (hus j us List.mem_cons_self)⟩

end WeightedAutomata.Automaton
