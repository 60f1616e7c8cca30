import WeightedAutomata.Proofs.BestWeights
import WeightedAutomata.Proofs.Relaxation.BestFirst

/-!
The lists of the best paths and the distances agree: the first entry of a list has the weight that
the distance is, because both are the best weight of the same paths.
-/
namespace WeightedAutomata

open KBest

variable {m : Type → Type} {L S T W : Type} {k : ℕ} [Semiring W] [Ord W] [Std.TransOrd W]
variable [Std.LawfulEqOrd W] [BEq W] [LawfulBEq W]

theorem KBest.Best.weight_head? {X : Set (PathWeight S T W)} {l : List (PathWeight S T W)}
    (h : Best k X l) (hk : 1 ≤ k) (ho : Ordered W) {w : W}
    (hw : Automaton.BestOf (PathWeight.weight '' X) w) :
    l.head?.map PathWeight.weight = if w == 0 then none else some w := by
  cases l with
  | nil =>
    rw [h.eq_empty hk, Set.image_empty] at hw
    have hz : w = 0 := hw.mem.resolve_right (Set.notMem_empty w)
    rw [hz, if_pos (beq_self_eq_true 0)]
    rfl
  | cons e l =>
    have hbest : Automaton.BestOf (PathWeight.weight '' X) e.weight := by
      refine ⟨.inr ⟨e, h.sound e List.mem_cons_self, rfl⟩, ?_⟩
      rintro _ ⟨x, hx, rfl⟩
      by_cases hmem : x ∈ e :: l
      · rcases List.mem_cons.1 hmem with rfl | hmem
        · exact Std.ReflCmp.isLE_rfl
        · exact precedes_iff.1 (List.rel_of_pairwise_cons h.ranked.sorted hmem)
      · exact precedes_iff.1 (h.precedes_of_notMem hx hmem e List.mem_cons_self)
    have hlive : e.weight ≠ 0 := h.ranked.live e List.mem_cons_self
    rw [hw.unique ho hbest, if_neg (by simpa using hlive)]
    rfl

namespace Automaton

omit [Ord W] [Std.TransOrd W] [Std.LawfulEqOrd W] in
theorem weight_head?_filterMap_path? {A : Automaton Id L S T W} {l : List (PathWeight S T W)}
    (hl : ∀ e ∈ l, e ∈ A.completeEntry '' A.livePaths) :
    (l.filterMap A.path?).head?.map Path.weight = l.head?.map PathWeight.weight := by
  cases l with
  | nil => rfl
  | cons e l =>
    obtain ⟨c, hc, rfl⟩ := hl e List.mem_cons_self
    rw [List.filterMap_cons_some (path?_completeEntry hc)]
    rfl

variable [BEq S] [LawfulBEq S] [Hashable S] [BEq T] [LawfulBEq T]
variable [Monad m] [LawfulMonad m] [StepLimited m]

variable (m) in
/-- If a sum is the better of its summands, and the automaton is acyclic or its transitions never
make a weight better, then for every pair of queues, once the budget is large enough, the first
entry at each state has the weight that is the distance of the state, and the first of the shortest
paths the weight that is the total. Where that is zero, there is none. -/
theorem first_entry_agrees (A : Automaton Id L S T W) (hA : A.Lawful)
    (hfinite : {s | A.Reachable s}.Finite) (ho : Ordered W) (hadd : PicksBetter W)
    (hn : A.NeverBetter) (hk : 1 ≤ k) (queue : Queue W) (ranking : Queue (KBest k S T W)) :
    ∃ (d : Distances S W) (lists : Distances S (KBest k S T W)) (total : W)
      (ps : List (Path L S T W)),
      (∀ q, (lists.getD q 0).best?.map PathWeight.weight =
        if d.getD q 0 == 0 then none else some (d.getD q 0)) ∧
      ps.head?.map Path.weight = (if total == 0 then none else some total) ∧
      ∃ n, ∀ budget, n ≤ budget →
        (A.lift : Automaton m L S T W).distancesFromInitial budget ⟨queue, .exact⟩ = pure d ∧
        ((A.lift : Automaton m L S T W).kBest k).distancesFromInitial budget ⟨ranking, .exact⟩ =
          pure lists ∧
        (A.lift : Automaton m L S T W).completeDistance budget ⟨queue, .exact⟩ = pure total ∧
        (A.lift : Automaton m L S T W).shortestPaths budget k ⟨ranking, .exact⟩ = pure ps := by
  have hlift := lift_answers_reachable m A
  obtain ⟨d, total, hd, htotal, n, hrun⟩ :=
    hlift.completeDistance_bestOf hadd hA ho hn queue hfinite
  obtain ⟨lists, hlists, hsearch⟩ := hlift.distancesFromInitial_best hA
    (fun s => hfinite.mem_toFinset) ho hn hk ranking
  obtain ⟨best, hbest, n', hrank⟩ := hlift.completeDistance_best hA ho hn hk ranking hfinite
  have hweights : PathWeight.weight '' (A.completeEntry '' A.livePaths) =
      A.completeWeight '' A.livePaths := Set.image_image _ _ _
  let listed := (A.kBest k).singleInitial.searchSteps none hfinite.toFinset.insertNone
  refine ⟨d, lists, total, best.entries.filterMap A.path?,
    fun q => (hlists q).weight_head? hk ho (hd q), ?_, max n (max listed n') + 1,
    fun budget hbudget => ?_⟩
  · rw [weight_head?_filterMap_path? hbest.sound]
    exact hbest.weight_head? hk ho (hweights ▸ htotal)
  · obtain ⟨hplain, hrest⟩ := max_lt_iff.1 (Nat.lt_of_succ_le hbudget)
    obtain ⟨hlist, hpaths⟩ := max_lt_iff.1 hrest
    refine ⟨(hrun budget hplain).1, hsearch budget hlist, (hrun budget hplain).2, ?_⟩
    unfold shortestPaths
    rw [if_neg (Nat.ne_of_gt hk), hrank budget hpaths, pure_bind]
    rfl

/-- A dear way to the final state, and a cheap detour to which it is free to return. -/
def tolls : Automaton Id Unit (Option Bool) (Option Bool × Option Bool) (Tropical (WithTop ℕ)) where
  initialStates := pure [none]
  outgoing s := pure ([(none, some true), (none, some false), (some false, some true),
    (some true, some false)].filter (·.1 == s))
  initialWeight s := pure (if s = none then 1 else 0)
  finalWeight s := pure (if s = some true then .trop (3 : ℕ) else 0)
  weight t := pure (match t with
    | (none, some true) => .trop (5 : ℕ)
    | (some true, _) => 1
    | _ => .trop (1 : ℕ))
  source := Prod.fst
  target := Prod.snd
  label _ := none

def cheapestWay : Option Bool → List (Option Bool × Option Bool)
  | none => []
  | some false => [(none, some false)]
  | some true => [(none, some false), (some false, some true)]

def leastCost : Option Bool → Tropical (WithTop ℕ)
  | none => 1
  | some false => .trop (1 : ℕ)
  | some true => .trop (2 : ℕ)

theorem leastCost_bounds : (∀ s, ∀ t ∈ tolls.leaving s,
      (compare (leastCost (tolls.target t)) (leastCost s * tolls.cost t)).isLE) ∧
    (∀ s ∈ tolls.starts, (compare (leastCost s) (tolls.entry s)).isLE) ∧
    ∀ s, (compare (.trop (5 : ℕ)) (leastCost s * tolls.exit s)).isLE := by
  simp only [Costs.isLE_compare_iff]
  decide

theorem bestOf_leastCost (q : Option Bool) :
    BestOf (PathWeight.weight '' tolls.ends q) (leastCost q) := by
  obtain ⟨hstep, hstart, -⟩ := leastCost_bounds
  have hway : ∀ q, (none ∈ tolls.starts ∧ tolls.IsPath none (cheapestWay q) ∧
      tolls.endpoint none (cheapestWay q) = q ∧
      (tolls.pathEntry none (cheapestWay q)).weight ≠ 0) ∧
      (tolls.pathEntry none (cheapestWay q)).weight = leastCost q := by decide
  obtain ⟨⟨hs, hpath, hend, hlive⟩, hcost⟩ := hway q
  exact bestOf_ends Costs.ordered hstep hstart
    ⟨_, ⟨none, cheapestWay q, hs, hpath, hend, rfl, hlive⟩, hcost⟩

theorem bestOf_tolls : BestOf (tolls.completeWeight '' tolls.livePaths) (.trop (5 : ℕ)) := by
  obtain ⟨hstep, hstart, hfinal⟩ := leastCost_bounds
  have hway : ((none ∈ tolls.starts ∧ tolls.IsPath none (cheapestWay (some true)) ∧
      tolls.exit (tolls.endpoint none (cheapestWay (some true))) ≠ 0) ∧
      tolls.completeWeight (none, cheapestWay (some true)) ≠ 0) ∧
      tolls.completeWeight (none, cheapestWay (some true)) = .trop (5 : ℕ) := by decide
  obtain ⟨hlive, hcost⟩ := hway
  exact bestOf_completeWeight Costs.ordered hstep hstart hfinal
    ⟨(none, cheapestWay (some true)), hlive, hcost⟩

theorem first_entry_agrees_tolls :
    ∃ (d : Distances (Option Bool) (Tropical (WithTop ℕ)))
      (lists : Distances (Option Bool)
        (KBest 3 (Option Bool) (Option Bool × Option Bool) (Tropical (WithTop ℕ))))
      (ps : List (Path Unit (Option Bool) (Option Bool × Option Bool) (Tropical (WithTop ℕ)))),
      (∀ q, d.getD q 0 = leastCost q) ∧
      (∀ q, (lists.getD q 0).best?.map PathWeight.weight = some (leastCost q)) ∧
      ps.head?.map Path.weight = some (.trop (5 : ℕ)) ∧
      ∃ n, ∀ budget, n ≤ budget →
        (tolls.lift : Automaton Option _ _ _ _).distancesFromInitial budget
          ⟨.topological, .exact⟩ = some d ∧
        ((tolls.lift : Automaton Option _ _ _ _).kBest 3).distancesFromInitial budget
          ⟨.bestFirst compare, .exact⟩ = some lists ∧
        (tolls.lift : Automaton Option _ _ _ _).completeDistance budget ⟨.topological, .exact⟩ =
          some (.trop (5 : ℕ)) ∧
        (tolls.lift : Automaton Option _ _ _ _).shortestPaths budget 3
          ⟨.bestFirst compare, .exact⟩ = some ps := by
  have hlawful : tolls.Lawful := ⟨by decide, by decide, by decide⟩
  have hnever : tolls.NeverBetter := .inr fun _ _ t _ a => Costs.isLE_mul a (tolls.cost t)
  obtain ⟨d, lists, total, ps, hfirst, hhead, n, hrun⟩ := first_entry_agrees Option tolls hlawful
    (Set.toFinite _) Costs.ordered picksBetter_costs hnever (k := 3) (by decide) .topological
    (.bestFirst compare)
  obtain ⟨d', total', hd', htotal', n', hrun'⟩ :=
    (lift_answers_reachable Option tolls).completeDistance_bestOf picksBetter_costs hlawful
      Costs.ordered hnever .topological (Set.toFinite _)
  have hd : d = d' := eq_of_large_budgets ⟨n, fun budget hbudget => (hrun budget hbudget).1⟩
    ⟨n' + 1, fun budget hbudget => (hrun' budget hbudget).1⟩
  have htotal : total = total' := eq_of_large_budgets
    ⟨n, fun budget hbudget => (hrun budget hbudget).2.2.1⟩
    ⟨n' + 1, fun budget hbudget => (hrun' budget hbudget).2⟩
  have hleast (q : Option Bool) : d.getD q 0 = leastCost q :=
    hd ▸ (hd' q).unique Costs.ordered (bestOf_leastCost q)
  have hfive : total = .trop (5 : ℕ) := htotal ▸ htotal'.unique Costs.ordered bestOf_tolls
  refine ⟨d, lists, ps, hleast, fun q => ?_, ?_, n, hfive ▸ hrun⟩
  · have hne : ∀ q, leastCost q ≠ 0 := by decide
    rw [hfirst q, hleast q, if_neg (by simpa using hne q)]
  · rw [hhead, hfive, if_neg (by decide)]

end Automaton

end WeightedAutomata
