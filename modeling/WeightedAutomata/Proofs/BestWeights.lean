import WeightedAutomata.Proofs.Determinization.BestStrings
import WeightedAutomata.Proofs.Relaxation.Cycles
import WeightedAutomata.Proofs.Union.Rooting

/-!
Distances where a sum is the better of its summands, and nothing that comes back to a state is
better than it was there. The distances are then the best weights of the paths, on cycles too: a
path round a cycle is absorbed by the path that leaves it out.
-/
namespace WeightedAutomata.Automaton

open KBest

variable {m : Type → Type} {L S T W : Type}

section Best

variable [Semiring W] [Ord W]

/-- The best of some weights, zero if all of them are zero or there are none. -/
structure BestOf (X : Set W) (w : W) : Prop where
  mem : w = 0 ∨ w ∈ X
  isLE : ∀ x ∈ X, (compare w x).isLE

variable {X Y : Set W} {a b : W}

namespace BestOf

theorem empty : BestOf (∅ : Set W) 0 where
  mem := .inl rfl
  isLE := nofun

theorem singleton [Std.TransOrd W] (a : W) : BestOf {a} a where
  mem := .inr rfl
  isLE x hx := by
    rw [Set.mem_singleton_iff.1 hx]
    exact Std.ReflCmp.isLE_rfl

variable (ho : Ordered W)

include ho in
theorem mul (h : BestOf X a) (c : W) : BestOf ((· * c) '' X) (a * c) where
  mem := by
    rcases h.mem with hz | hX
    · exact .inl (by rw [hz, zero_mul])
    · exact .inr ⟨a, hX, rfl⟩
  isLE := by
    rintro _ ⟨x, hx, rfl⟩
    exact ho.mul_right a x c (h.isLE x hx)

include ho in
/-- Whether zero is among the weights does not matter. -/
theorem congr (h : BestOf X a) (hXY : ∀ x, x ≠ 0 → (x ∈ X ↔ x ∈ Y)) : BestOf Y a where
  mem := by
    by_cases hz : a = 0
    · exact .inl hz
    · exact .inr ((hXY a hz).1 (h.mem.resolve_left hz))
  isLE x hx := by
    by_cases hz : x = 0
    · rw [hz]
      exact ho.zero_last a
    · exact h.isLE x ((hXY x hz).2 hx)

variable [Std.TransOrd W]

theorem add (hadd : PicksBetter W) (ha : BestOf X a) (hb : BestOf Y b) :
    BestOf (X ∪ Y) (a + b) where
  mem := by
    rcases (hadd a b).1 with heq | heq
    · rw [heq]
      exact ha.mem.imp_right .inl
    · rw [heq]
      exact hb.mem.imp_right .inr
  isLE := by
    rintro x (hx | hx)
    · exact Std.TransCmp.isLE_trans (hadd a b).2.1 (ha.isLE x hx)
    · exact Std.TransCmp.isLE_trans (hadd a b).2.2 (hb.isLE x hx)

theorem list_sum (hadd : PicksBetter W) {ι : Type} {l : List ι} {f : ι → W} {X : ι → Set W}
    (h : ∀ i ∈ l, BestOf (X i) (f i)) : BestOf {x | ∃ i ∈ l, x ∈ X i} (l.map f).sum := by
  induction l with
  | nil =>
    simp only [List.not_mem_nil, false_and, exists_false]
    exact empty
  | cons i l ih =>
    have hset : {x | ∃ j ∈ i :: l, x ∈ X j} = X i ∪ {x | ∃ j ∈ l, x ∈ X j} := by
      ext x
      simp only [Set.mem_union, Set.mem_ofPred_eq, List.exists_mem_cons_iff]
    rw [hset, List.map_cons, List.sum_cons]
    exact (h i List.mem_cons_self).add hadd (ih fun j hj => h j (List.mem_cons_of_mem i hj))

variable [Std.LawfulEqOrd W]

include ho in
theorem unique (ha : BestOf X a) (hb : BestOf X b) : a = b := by
  have hle {a b : W} (ha : BestOf X a) (hb : BestOf X b) : (compare a b).isLE := by
    rcases hb.mem with hz | hX
    · rw [hz]
      exact ho.zero_last a
    · exact ha.isLE b hX
  exact Std.LawfulEqOrd.eq_of_compare (Std.OrientedCmp.isLE_antisymm (hle ha hb) (hle hb ha))

end BestOf

namespace PicksBetter

variable [Std.TransOrd W] [Std.LawfulEqOrd W] (h : PicksBetter W)
include h

omit [Std.TransOrd W] [Std.LawfulEqOrd W] in
theorem add_self (a : W) : a + a = a := (h a a).1.elim id id

theorem add_eq_right (hle : (compare b a).isLE) : a + b = b := by
  refine (h a b).1.elim (fun heq => ?_) id
  have hab : (compare a b).isLE := by
    have hsum := (h a b).2.2
    rwa [heq] at hsum
  rw [heq]
  exact Std.LawfulEqOrd.eq_of_compare (Std.OrientedCmp.isLE_antisymm hab hle)

end PicksBetter

end Best

section Rooted

variable [Semiring W] {A : Automaton Id L S T W} {s : S} {ts : List T} {us : List (Rooted T)}

theorem isPath_rooted (hs : s ∈ A.starts) (hpath : A.IsPath s ts) :
    A.singleInitial.IsPath none (rooted ts) := by
  cases ts with
  | nil => trivial
  | cons t ts =>
    refine ⟨?_, ((embeds_singleInitial A).isPath_iff).2 ⟨ts, hpath.2, rfl⟩⟩
    rw [leaving_singleInitial_none]
    exact List.mem_map.2 ⟨t, List.mem_flatMap.2 ⟨s, hs, hpath.1⟩, rfl⟩

/-- A path from the added state is empty or a path from an initial state. -/
theorem eq_rooted (hpath : A.singleInitial.IsPath none us) :
    us = [] ∨ ∃ s ts, s ∈ A.starts ∧ ts ≠ [] ∧ A.IsPath s ts ∧ us = rooted ts := by
  cases us with
  | nil => exact .inl rfl
  | cons u us =>
    obtain ⟨hu, hpath⟩ := hpath
    rw [leaving_singleInitial_none] at hu
    obtain ⟨t, ht, rfl⟩ := List.mem_map.1 hu
    obtain ⟨s, hs, ht⟩ := List.mem_flatMap.1 ht
    obtain ⟨ts, hts, rfl⟩ := ((embeds_singleInitial A).isPath_iff).1 hpath
    exact .inr ⟨s, t :: ts, hs, List.cons_ne_nil t ts, ⟨ht, hts⟩, rfl⟩

theorem endpoint_rooted (hne : ts ≠ []) (s : S) :
    A.singleInitial.endpoint none (rooted ts) = some (A.endpoint s ts) := by
  cases ts with
  | nil => exact absurd rfl hne
  | cons t ts => exact (embeds_singleInitial A).endpoint_map (A.target t) ts

theorem forwardWeight_rooted (hA : A.Lawful) (hne : ts ≠ []) (hpath : A.IsPath s ts) :
    A.singleInitial.forwardWeight (none, rooted ts) = (A.pathEntry s ts).weight := by
  cases ts with
  | nil => exact absurd rfl hne
  | cons t ts =>
    have hrest : A.singleInitial.pathCost (ts.map .plain) = A.pathCost ts := by
      rw [pathCost, List.map_map]
      rfl
    have hentry : A.singleInitial.entry none = 1 := rfl
    rw [forwardWeight, rooted, pathCost_cons, hrest, hentry, cost_singleInitial_fused,
      hA.source_eq s t hpath.1, one_mul, mul_assoc, ← pathCost_cons]
    rfl

/-- The weights of the paths to a state: those of paths from the added state, and the initial
weight. -/
theorem mem_weight_ends (hA : A.Lawful) {q : S} {w : W} (hw : w ≠ 0) :
    w ∈ {w | ∃ us, A.singleInitial.IsPath none us ∧ A.singleInitial.endpoint none us = some q ∧
        w = A.singleInitial.forwardWeight (none, us)} ∪ {A.entry q} ↔
      w ∈ PathWeight.weight '' A.ends q := by
  have hempty (s : S) : (A.pathEntry s []).weight = A.entry s := by
    rw [pathEntry, pathCost_nil, mul_one]
  constructor
  · rintro (⟨us, hpath, hend, rfl⟩ | rfl)
    · rcases eq_rooted hpath with rfl | ⟨s, ts, hs, hne, hts, rfl⟩
      · cases hend
      · rw [endpoint_rooted hne s] at hend
        rw [forwardWeight_rooted hA hne hts] at hw ⊢
        exact ⟨_, ⟨s, ts, hs, hts, Option.some.inj hend, rfl, hw⟩, rfl⟩
    · refine ⟨_, ⟨q, [], (hA.mem_starts q).2 hw, trivial, rfl, rfl, ?_⟩, hempty q⟩
      rwa [hempty]
  · rintro ⟨_, ⟨s, ts, hs, hts, rfl, rfl, -⟩, rfl⟩
    by_cases hne : ts = []
    · subst hne
      exact .inr (hempty s)
    · exact .inl ⟨rooted ts, isPath_rooted hs hts, endpoint_rooted hne s,
        (forwardWeight_rooted hA hne hts).symm⟩

/-- The weights of the complete paths: those of the paths to the states, times the final weights. -/
theorem mem_completeWeight_livePaths {states : List S} (hstates : ∀ s, s ∈ states ↔ A.Reachable s)
    {w : W} (hw : w ≠ 0) :
    (∃ s ∈ states, w ∈ (· * A.exit s) '' (PathWeight.weight '' A.ends s)) ↔
      w ∈ A.completeWeight '' A.livePaths := by
  constructor
  · rintro ⟨_, -, _, ⟨_, ⟨s, ts, hs, hts, rfl, rfl, -⟩, rfl⟩, rfl⟩
    have hexit : A.exit (A.endpoint s ts) ≠ 0 := by
      intro hz
      apply hw
      change _ * A.exit (A.endpoint s ts) = 0
      rw [hz, mul_zero]
    exact ⟨(s, ts), ⟨⟨hs, hts, hexit⟩, hw⟩, rfl⟩
  · rintro ⟨⟨s, ts⟩, ⟨⟨hs, hts, -⟩, -⟩, rfl⟩
    exact ⟨A.endpoint s ts, (hstates _).2 (A.closed_reachable.endpoint (.start hs) hts), _,
      ⟨_, ⟨s, ts, hs, hts, rfl, rfl, weight_pathEntry_ne_zero hw⟩, rfl⟩, rfl⟩

variable [Ord W] [Std.TransOrd W]

theorem NeverBetter.forwardWeight_isLE (hn : A.NeverBetter) (hA : A.Lawful)
    {vs : List (Rooted T)} (hpath : A.singleInitial.IsPath none (us ++ vs))
    (hend : A.singleInitial.endpoint none (us ++ vs) = A.singleInitial.endpoint none us) :
    (compare (A.singleInitial.forwardWeight (none, us))
      (A.singleInitial.forwardWeight (none, us ++ vs))).isLE := by
  rcases eq_rooted (isPath_append.1 hpath).1 with rfl | ⟨s, ts, hs, hne, hts, rfl⟩
  · have hvs : vs = [] := by
      by_contra hne
      exact endpoint_singleInitial_ne_none hne hend
    rw [hvs]
    exact Std.ReflCmp.isLE_rfl
  · have hback := (isPath_append.1 hpath).2
    rw [endpoint_rooted hne s] at hback
    obtain ⟨ws, hws, rfl⟩ := ((embeds_singleInitial A).isPath_iff).1 hback
    have hlonger : ts ++ ws ≠ [] := List.append_ne_nil_of_left_ne_nil hne ws
    have hpath' : A.IsPath s (ts ++ ws) := isPath_append.2 ⟨hts, hws⟩
    rw [← rooted_append hne, endpoint_rooted hne s, endpoint_rooted hlonger s] at hend
    rw [← rooted_append hne, forwardWeight_rooted hA hne hts,
      forwardWeight_rooted hA hlonger hpath']
    exact precedes_iff.1 (hn.precedes_of_return hs hpath' (Option.some.inj hend))

end Rooted

section Bounds

variable [Semiring W] [Ord W] [Std.TransOrd W] {A : Automaton Id L S T W} {bound : S → W}
variable (ho : Ordered W)
variable (hstep : ∀ s, ∀ t ∈ A.leaving s, (compare (bound (A.target t)) (bound s * A.cost t)).isLE)
include ho hstep

theorem isLE_mul_of_isPath {s : S} {ts : List T} (hpath : A.IsPath s ts) :
    (compare (bound (A.endpoint s ts)) (bound s * A.pathCost ts)).isLE := by
  induction ts generalizing s with
  | nil =>
    rw [pathCost_nil, mul_one]
    exact Std.ReflCmp.isLE_rfl
  | cons t ts ih =>
    have hfirst := ho.mul_right _ _ (A.pathCost ts) (hstep s t hpath.1)
    rw [pathCost_cons, ← mul_assoc]
    exact Std.TransCmp.isLE_trans (ih hpath.2) hfirst

variable (hstart : ∀ s ∈ A.starts, (compare (bound s) (A.entry s)).isLE)
include hstart

theorem isLE_entry_mul_of_isPath {s : S} {ts : List T} (hs : s ∈ A.starts)
    (hpath : A.IsPath s ts) :
    (compare (bound (A.endpoint s ts)) (A.entry s * A.pathCost ts)).isLE :=
  Std.TransCmp.isLE_trans (isLE_mul_of_isPath ho hstep hpath) (ho.mul_right _ _ _ (hstart s hs))

/-- A bound that no transition undercuts is the best weight of the paths to a state, if it is the
weight of one of them. -/
theorem bestOf_ends {q : S} (hq : bound q ∈ PathWeight.weight '' A.ends q) :
    BestOf (PathWeight.weight '' A.ends q) (bound q) where
  mem := .inr hq
  isLE := by
    rintro _ ⟨_, ⟨s, ts, hs, hpath, rfl, rfl, -⟩, rfl⟩
    exact isLE_entry_mul_of_isPath ho hstep hstart hs hpath

/-- So is a bound below all of these, followed by the final weights, for the complete paths. -/
theorem bestOf_completeWeight {w : W} (hfinal : ∀ s, (compare w (bound s * A.exit s)).isLE)
    (hw : w ∈ A.completeWeight '' A.livePaths) : BestOf (A.completeWeight '' A.livePaths) w where
  mem := .inr hw
  isLE := by
    rintro _ ⟨⟨s, ts⟩, ⟨⟨hs, hpath, -⟩, -⟩, rfl⟩
    have hpaths := isLE_entry_mul_of_isPath ho hstep hstart hs hpath
    exact Std.TransCmp.isLE_trans (hfinal _) (ho.mul_right _ _ _ hpaths)

end Bounds

section Distances

variable [BEq S] [LawfulBEq S] [Hashable S] [Semiring W] [Ord W] [Std.TransOrd W]
variable [Std.LawfulEqOrd W] [BEq W] [LawfulBEq W] [Monad m] [LawfulMonad m] [StepLimited m]
variable {F : Finset S} (hadd : PicksBetter W)
include hadd

/-- The distance of a state is the best weight of a path to it. -/
theorem Answers.distances_bestOf {Q : Automaton Id L S T W} {B : Automaton m L S T W}
    {R : S → Prop} (h : B.Answers Q R) (hF : ∀ q ∈ F, R q) (hc : Q.Closed (· ∈ F)) {o : S}
    (ho : o ∈ F) (hback : ∀ us vs, Q.IsPath o (us ++ vs) →
      Q.endpoint o (us ++ vs) = Q.endpoint o us →
      (compare (Q.forwardWeight (o, us)) (Q.forwardWeight (o, us ++ vs))).isLE)
    (queue : Queue W) : ∃ d : Distances S W,
      (∀ q, BestOf {w | ∃ ts, Q.IsPath o ts ∧ Q.endpoint o ts = q ∧ w = Q.forwardWeight (o, ts)}
        (d.getD q 0)) ∧
      ∃ n, ∀ budget, n < budget → B.distances budget ⟨queue, .exact⟩ o = pure d := by
  -- in the order of the sums one weight is below another that absorbs it
  let idem : IdemSemiring W := IdemSemiring.ofSemiring hadd.add_self
  have hreturning : Q.Returning o := fun us vs hpath hend =>
    hadd.add_eq_right (hback us vs hpath hend)
  obtain ⟨d, hd, habs, n, hrun⟩ := h.distances_returning hF hc ho hreturning queue
  refine ⟨d, fun q => ⟨?_, ?_⟩, n, hrun⟩
  · rw [hd q]
    refine (hadd.finsum_mem (finite_cycleFreePaths (closed_numbered hc) ho q)).imp_right ?_
    rintro ⟨ts, ⟨hpath, hend, -⟩, heq⟩
    rw [endpoint_numbered] at hend
    rw [forwardWeight_numbered] at heq
    exact ⟨ts.map Prod.fst, isPath_map_fst hpath, hend, heq⟩
  · rintro _ ⟨ts, hpath, rfl, rfl⟩
    have hsum : Q.forwardWeight (o, ts) + d.getD (Q.endpoint o ts) 0 =
      d.getD (Q.endpoint o ts) 0 := habs ts hpath
    rw [← hsum]
    exact (hadd _ _).2.1

variable {A : Automaton Id L S T W} {B : Automaton m L S T W} (h : B.Answers A A.Reachable)
variable (hA : A.Lawful) (ho : Ordered W) (hn : A.NeverBetter) (queue : Queue W)
variable (hfinite : {s | A.Reachable s}.Finite)
include h hA ho hn hfinite

theorem Answers.distancesFromInitial_bestOf : ∃ d : Distances S W,
    (∀ q, BestOf (PathWeight.weight '' A.ends q) (d.getD q 0)) ∧
      ∃ n, ∀ budget, n < budget → B.distancesFromInitial budget ⟨queue, .exact⟩ = pure d := by
  have hmem (s : Option S) : s ∈ hfinite.toFinset.insertNone ↔ A.Inherited s := by
    simp only [Finset.mem_insertNone, Set.Finite.mem_toFinset, Set.mem_ofPred_eq, Inherited]
  have hclosed : A.singleInitial.Closed (· ∈ hfinite.toFinset.insertNone) := by
    simpa only [hmem] using A.closed_inherited
  obtain ⟨d₀, hd₀, n, hrun⟩ := (h.singleInitial hA).distances_bestOf hadd
    (fun s hs => (hmem s).1 hs) hclosed Finset.none_mem_insertNone
    (fun us vs => hn.forwardWeight_isLE hA) queue
  refine ⟨A.addStarts (ownDistances d₀), fun q => ?_, n, fun budget hbudget => ?_⟩
  · rw [getD_addStarts hA, getD_ownDistances]
    refine ((hd₀ (some q)).add hadd (.singleton (A.entry q))).congr ho fun w hw => ?_
    exact mem_weight_ends hA hw
  · rw [h.distancesFromInitial_eq_bind, hrun budget hbudget, pure_bind]

/-- The distances of the states, and the total that is added up from them. -/
theorem Answers.completeDistance_bestOf : ∃ (d : Distances S W) (total : W),
    (∀ q, BestOf (PathWeight.weight '' A.ends q) (d.getD q 0)) ∧
      BestOf (A.completeWeight '' A.livePaths) total ∧ ∃ n, ∀ budget, n < budget →
        B.distancesFromInitial budget ⟨queue, .exact⟩ = pure d ∧
        B.completeDistance budget ⟨queue, .exact⟩ = pure total := by
  obtain ⟨d, hd, n, hrun⟩ := h.distancesFromInitial_bestOf hadd hA ho hn queue hfinite
  obtain ⟨n', hmost⟩ := exists_atMost hfinite
  obtain ⟨states, -, hmem, hstates⟩ := h.states_eq hmost
  have hsum := BestOf.list_sum hadd (l := states) fun s _ => (hd s).mul ho (A.exit s)
  refine ⟨d, states.foldl (A.addFinal d) 0, hd, ?_, max n n', fun budget hbudget => ?_⟩
  · rw [foldl_addFinal]
    exact hsum.congr ho fun w hw => mem_completeWeight_livePaths hmem hw
  · have hbudget := max_lt_iff.1 hbudget
    exact ⟨hrun budget hbudget.1, h.completeDistance_eq_pure (hrun budget hbudget.1)
      (hstates budget hbudget.2) fun s hs => (hmem s).1 hs⟩

end Distances

end WeightedAutomata.Automaton
