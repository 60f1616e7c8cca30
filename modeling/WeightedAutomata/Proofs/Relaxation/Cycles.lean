import Mathlib.Algebra.Order.BigOperators.Group.Finset
import Mathlib.Algebra.Order.Kleene
import WeightedAutomata.Proofs.Paths.Visits
import WeightedAutomata.Proofs.Relaxation.Sums

/-!
Relaxation through cycles that add nothing, as none does where one absorbs everything. What goes
round a cycle is absorbed by the path that leaves it out, so the distances are sums over cycle-free
paths. They grow only when they absorb another one of these, and there are finitely many.
-/
namespace WeightedAutomata

open scoped BigOperators

section Order

variable {ι W : Type} [IdemSemiring W]

theorem list_sum_le {l : List W} {b : W} (h : ∀ a ∈ l, a ≤ b) : l.sum ≤ b := by
  induction l with
  | nil => exact zero_le
  | cons a l ih =>
    rw [List.sum_cons]
    exact add_le (h a List.mem_cons_self) (ih fun c hc => h c (List.mem_cons_of_mem a hc))

theorem finset_sum_le {s : Finset ι} {f : ι → W} {b : W} (h : ∀ i ∈ s, f i ≤ b) :
    ∑ i ∈ s, f i ≤ b := by
  rw [← Finset.sum_map_toList]
  refine list_sum_le fun a ha => ?_
  obtain ⟨i, hi, rfl⟩ := List.mem_map.1 ha
  exact h i (Finset.mem_toList.1 hi)

theorem mul_le_of_le_one (hone : ∀ a : W, a ≤ 1) (a b : W) : a * b ≤ a := by
  calc a * b ≤ a * 1 := mul_le_mul_right (hone b) a
    _ = a := mul_one a

theorem weigh_mul_le {S : Type} {ws : List (S × W)} {g h : S → W} {c : W}
    (hle : ∀ e ∈ ws, g e.1 * c ≤ h e.1) : weigh ws g * c ≤ weigh ws h := by
  induction ws with
  | nil => simp
  | cons e ws ih =>
    rw [weigh_cons, weigh_cons, add_mul, mul_assoc]
    exact add_le_add (mul_le_mul_right (hle e List.mem_cons_self) e.2)
      (ih fun e' he => hle e' (List.mem_cons_of_mem e he))

end Order

variable {m : Type → Type} {L S T W : Type} [BEq S] [LawfulBEq S] [Hashable S]
variable [IdemSemiring W] [BEq W] [LawfulBEq W]
variable {Q : Automaton Id L S T W} {o : S} {F : Finset S}

open Relaxation

namespace Automaton

section Steps

variable {r r' : Relaxation S W}

omit [BEq S] [LawfulBEq S] [Hashable S] [BEq W] [LawfulBEq W] in
theorem cost_le_onward {p : S} {t : T} (ht : t ∈ Q.leaving p) :
    Q.cost t ≤ Q.onward (indicator (Q.target t)) p := by
  refine List.le_sum_of_mem (List.mem_map.2 ⟨t, ht, ?_⟩)
  rw [indicator_self, mul_one]

/-- Carrying a residual on changes nothing, or some distance grows. -/
theorem carry_eq_or_lt (ρ : W) (r : Relaxation S W) (ts : List T) :
    Q.carry .exact ρ r ts = r ∨ ∃ q, r.distance q < (Q.carry .exact ρ r ts).distance q := by
  induction ts generalizing r with
  | nil => exact .inl rfl
  | cons t ts ih =>
    rw [carry_cons]
    have hgrow (q : S) : r.distance q ≤ (r.receive (Q.target t) (ρ * Q.cost t)).distance q := by
      rw [distance_receive]
      exact le_self_add
    have hone : r.receive (Q.target t) (ρ * Q.cost t) = r ∨
        ∃ q, r.distance q < (r.receive (Q.target t) (ρ * Q.cost t)).distance q := by
      by_cases hsame : r.distance (Q.target t) + ρ * Q.cost t = r.distance (Q.target t)
      · refine .inl ?_
        unfold receive
        rw [improve_of_eq hsame, ite_self]
      · refine .inr ⟨Q.target t, lt_of_le_of_ne (hgrow _) fun heq => hsame ?_⟩
        rw [distance_receive, indicator_self, mul_one] at heq
        exact heq.symm
    rcases ih (r.receive (Q.target t) (ρ * Q.cost t)) with hrest | ⟨q, hq⟩
    · rw [hrest]
      exact hone
    · exact .inr ⟨q, lt_of_le_of_lt (hgrow q) hq⟩

theorem distance_advance {p : S} {f : Frontier S W}
    (hr : r.residual p = 0 ∧ r' = r.take p f ∨
      r' = Q.carry .exact (r.residual p) (r.take p f) (Q.leaving p)) (q : S) :
    r'.distance q = r.distance q + r.residual p * Q.onward (indicator q) p := by
  rcases hr with ⟨hz, rfl⟩ | rfl
  · rw [hz, zero_mul, add_zero, distance_take]
  · rw [distance_carry, distance_take, onward]

end Steps

/-- The distances absorb the path and everything it passes through. -/
def Absorbs (Q : Automaton Id L S T W) (o : S) (r : Relaxation S W) (ts : List T) : Prop :=
  ∀ us, us <+: ts → Q.forwardWeight (o, us) ≤ r.distance (Q.endpoint o us)

section Absorbs

variable {r r' : Relaxation S W} {ts : List T}

omit [LawfulBEq S] [BEq W] [LawfulBEq W] in
theorem Absorbs.mono (hle : ∀ q, r.distance q ≤ r'.distance q) (h : Q.Absorbs o r ts) :
    Q.Absorbs o r' ts :=
  fun us hus => le_trans (h us hus) (hle _)

omit [LawfulBEq S] [BEq W] [LawfulBEq W] in
theorem Absorbs.append_singleton (h : Q.Absorbs o r ts) {t : T}
    (ht : Q.forwardWeight (o, ts) * Q.cost t ≤ r.distance (Q.target t)) :
    Q.Absorbs o r (ts ++ [t]) := by
  intro us hus
  rcases List.prefix_concat_iff.1 hus with rfl | hus
  · rwa [forwardWeight_append, pathCost_cons, pathCost_nil, mul_one, endpoint_append]
  · exact h us hus

end Absorbs

/-- A path that comes back to a state is absorbed by what it has been there before. -/
def Returning (Q : Automaton Id L S T W) (o : S) : Prop :=
  ∀ us vs, Q.IsPath o (us ++ vs) → Q.endpoint o (us ++ vs) = Q.endpoint o us →
    Q.forwardWeight (o, us ++ vs) ≤ Q.forwardWeight (o, us)

omit [BEq S] [LawfulBEq S] [Hashable S] [BEq W] [LawfulBEq W] in
theorem returning_of_le_one (hone : ∀ a : W, a ≤ 1) (Q : Automaton Id L S T W) (o : S) :
    Q.Returning o := by
  intro us vs _ _
  rw [forwardWeight_append]
  exact mul_le_of_le_one hone _ _

/-- The absorbed cycle-free paths to a state, of those within `F`. -/
noncomputable def tracked (Q : Automaton Id L S T W) (o : S) (F : Finset S) (r : Relaxation S W)
    (q : S) : Finset (List T) :=
  open scoped Classical in
  (Q.paths F.card o).toFinset.filter fun ts =>
    Q.endpoint o ts = q ∧ Q.CycleFree o ts ∧ Q.Absorbs o r ts

/-- The number of cycle-free paths within `F` that are not absorbed. -/
noncomputable def unabsorbed (Q : Automaton Id L S T W) (o : S) (F : Finset S)
    (r : Relaxation S W) : ℕ :=
  open scoped Classical in
  ((Q.paths F.card o).toFinset.filter fun ts => Q.CycleFree o ts ∧ ¬ Q.Absorbs o r ts).card

/-- No distance exceeds the sum of the cycle-free paths that it absorbs. -/
structure Founded (Q : Automaton Id L S T W) (o : S) (F : Finset S) (r : Relaxation S W) :
    Prop where
  account : ∃ carried, Q.Account (· ∈ F) o r carried
  le_sum : ∀ q, r.distance q ≤ ∑ ts ∈ Q.tracked o F r q, Q.forwardWeight (o, ts)

section Founded

variable {r r' : Relaxation S W} {q : S} {ts : List T} (hc : Q.Closed (· ∈ F)) (ho : o ∈ F)

omit [LawfulBEq S] [BEq W] [LawfulBEq W] in
include hc ho in
theorem mem_tracked :
    ts ∈ Q.tracked o F r q ↔ ts ∈ Q.cycleFreePaths o q ∧ Q.Absorbs o r ts := by
  classical
  unfold tracked
  rw [Finset.mem_filter, List.mem_toFinset, mem_paths]
  constructor
  · rintro ⟨⟨hpath, -⟩, hend, hfree, habs⟩
    exact ⟨⟨hpath, hend, hfree⟩, habs⟩
  · rintro ⟨⟨hpath, hend, hfree⟩, habs⟩
    exact ⟨⟨hpath, hfree.length_lt hc ho hpath⟩, hend, hfree, habs⟩

omit [LawfulBEq S] [BEq W] [LawfulBEq W] in
theorem tracked_subset (hle : ∀ q, r.distance q ≤ r'.distance q) (q : S) :
    Q.tracked o F r q ⊆ Q.tracked o F r' q := by
  classical
  exact Finset.monotone_filter_right _ fun ts _ ⟨hend, hfree, habs⟩ => ⟨hend, hfree, habs.mono hle⟩

omit [LawfulBEq S] [BEq W] [LawfulBEq W] in
theorem Founded.inside (h : Q.Founded o F r) (hq : q ∈ r.frontier.states) : q ∈ F := by
  obtain ⟨_, haccount⟩ := h.account
  exact haccount.pends.inside q hq

omit [BEq W] [LawfulBEq W] in
include hc ho in
theorem Founded.start (discipline : Discipline S W) :
    Q.Founded o F (Relaxation.start discipline o (Q.entry o)) where
  account := ⟨[], .start discipline ho⟩
  le_sum q := by
    rw [distance_start]
    split
    · next hq =>
      obtain rfl : o = q := eq_of_beq hq
      have hweight : Q.forwardWeight (o, []) = Q.entry o := by
        rw [forwardWeight, pathCost_nil, mul_one]
      have hmem : [] ∈ Q.tracked o F (Relaxation.start discipline o (Q.entry o)) o := by
        refine (mem_tracked hc ho).2 ⟨⟨trivial, rfl, cycleFree_nil o⟩, fun us hus => ?_⟩
        obtain rfl := List.prefix_nil.1 hus
        rw [hweight, endpoint_nil, distance_start, if_pos hq]
      calc Q.entry o = Q.forwardWeight (o, []) := hweight.symm
        _ ≤ _ := Finset.single_le_sum_of_canonicallyOrdered
          (f := fun ts => Q.forwardWeight (o, ts)) hmem
    · exact zero_le

omit [LawfulBEq S] [BEq W] [LawfulBEq W] in
/-- A distance grows only when another cycle-free path is absorbed. -/
theorem unabsorbed_lt (hle : ∀ q, r.distance q ≤ r'.distance q)
    (hsum : r'.distance q ≤ ∑ ts ∈ Q.tracked o F r' q, Q.forwardWeight (o, ts))
    (hlt : r.distance q < r'.distance q) : Q.unabsorbed o F r' < Q.unabsorbed o F r := by
  classical
  obtain ⟨ts, hts, hnew⟩ : ∃ ts ∈ Q.tracked o F r' q, ¬ Q.Absorbs o r ts := by
    by_contra hall
    push Not at hall
    refine not_le_of_gt hlt (le_trans hsum (finset_sum_le fun ts hts => ?_))
    have hweight := hall ts hts ts (List.prefix_refl ts)
    rwa [(Finset.mem_filter.1 hts).2.1] at hweight
  obtain ⟨hmem, -, hfree, habs⟩ := Finset.mem_filter.1 hts
  refine Finset.card_lt_card (Finset.ssubset_iff_of_subset ?_ |>.2 ⟨ts, ?_, ?_⟩)
  · exact Finset.monotone_filter_right _ fun us _ ⟨hus, hopen⟩ =>
      ⟨hus, fun h => hopen (h.mono hle)⟩
  · exact Finset.mem_filter.2 ⟨hmem, hfree, hnew⟩
  · exact fun hmem' => (Finset.mem_filter.1 hmem').2.2 habs

omit [BEq S] [LawfulBEq S] [Hashable S] [BEq W] [LawfulBEq W] in
theorem weigh_indicator_mul_le (carried : List (S × W)) {p : S} {t : T} (ht : t ∈ Q.leaving p) :
    weigh carried (indicator p) * Q.cost t ≤ weigh carried (Q.onward (indicator (Q.target t))) := by
  refine weigh_mul_le fun e _ => ?_
  by_cases hp : e.1 = p
  · rw [hp, indicator_self, one_mul]
    exact cost_le_onward ht
  · rw [indicator_of_ne hp, zero_mul]
    exact zero_le

/-- All of the distance of the state that leaves the frontier has been carried on. -/
theorem Account.passed {carried : List (S × W)} (h : Q.Account (· ∈ F) o r carried) {p : S}
    {f : Frontier S W} (hr : r.residual p = 0 ∧ r' = r.take p f ∨
      r' = Q.carry .exact (r.residual p) (r.take p f) (Q.leaving p)) {t : T}
    (ht : t ∈ Q.leaving p) : r.distance p * Q.cost t ≤ r'.distance (Q.target t) := by
  rw [distance_advance hr, h.kept, add_mul, h.received]
  exact add_le_add (le_trans (weigh_indicator_mul_le carried ht) le_add_self)
    (mul_le_mul_right (cost_le_onward ht) _)

omit [LawfulBEq S] [BEq W] [LawfulBEq W] in
include hc ho in
/-- An absorbed path to the source of a transition goes on to an absorbed path to its target. -/
theorem exists_tracked (hback : Q.Returning o) (hgrow : ∀ q, r.distance q ≤ r'.distance q) {p : S}
    {t : T} (ht : t ∈ Q.leaving p) (hpassed : r.distance p * Q.cost t ≤ r'.distance (Q.target t))
    (hts : ts ∈ Q.tracked o F r p) : ∃ us ∈ Q.tracked o F r' (Q.target t),
      Q.forwardWeight (o, ts) * Q.cost t ≤ Q.forwardWeight (o, us) := by
  obtain ⟨⟨hpath, hend, hfree⟩, habs⟩ := (mem_tracked hc ho).1 hts
  have habs' : Q.Absorbs o r' ts := habs.mono hgrow
  by_cases hmem : Q.target t ∈ Q.visits o ts
  -- The path has been at the target before: its part up to there absorbs the cycle.
  · obtain ⟨us, ⟨vs, rfl⟩, htarget⟩ := mem_visits.1 hmem
    have hus : us <+: us ++ vs := List.prefix_append us vs
    refine ⟨us, (mem_tracked hc ho).2 ⟨⟨(isPath_append.1 hpath).1, htarget, hfree.of_prefix hus⟩,
      fun ws hws => habs' ws (hws.trans hus)⟩, ?_⟩
    have hround : Q.IsPath o (us ++ (vs ++ [t])) := by
      rw [← List.append_assoc]
      refine isPath_append.2 ⟨hpath, ?_, trivial⟩
      rwa [hend]
    have hle := hback us (vs ++ [t]) hround (by
      rw [← List.append_assoc, endpoint_append, htarget]
      rfl)
    rwa [← List.append_assoc, forwardWeight_append, pathCost_cons, pathCost_nil, mul_one] at hle
  · have hweight : Q.forwardWeight (o, ts) ≤ r.distance p := hend ▸ habs ts (List.prefix_refl ts)
    have hnew : Q.Absorbs o r' (ts ++ [t]) :=
      habs'.append_singleton (le_trans (mul_le_mul_left hweight _) hpassed)
    refine ⟨ts ++ [t], (mem_tracked hc ho).2 ⟨⟨isPath_append.2 ⟨hpath, ?_, trivial⟩,
      endpoint_append Q o ts [t], hfree.append_singleton hmem⟩, hnew⟩, ?_⟩
    · rwa [hend]
    · rw [forwardWeight_append, pathCost_cons, pathCost_nil, mul_one]

include hc ho in
theorem Founded.advance (hback : Q.Returning o) (h : Q.Founded o F r)
    (hnext : Q.advance .exact r = some r') :
    Q.Founded o F r' ∧ Q.unabsorbed o F r' * (F.card + 1) + r'.frontier.states.length <
      Q.unabsorbed o F r * (F.card + 1) + r.frontier.states.length := by
  obtain ⟨carried, haccount⟩ := h.account
  obtain ⟨carried', haccount'⟩ := haccount.advance hc hnext
  obtain ⟨p, f, hpop, hr⟩ := advance_eq_some hnext
  have hdist := distance_advance hr
  have hgrow (q : S) : r.distance q ≤ r'.distance q := by
    rw [hdist]
    exact le_self_add
  have hresidual : r.residual p ≤ r.distance p := by
    rw [haccount.kept]
    exact le_add_self
  have hsum (q : S) : r'.distance q ≤ ∑ ts ∈ Q.tracked o F r' q, Q.forwardWeight (o, ts) := by
    rw [hdist, onward, ← List.sum_map_mul_left]
    refine add_le (le_trans (h.le_sum q) (Finset.sum_le_sum_of_subset (tracked_subset hgrow q)))
      (list_sum_le fun a ha => ?_)
    obtain ⟨t, ht, rfl⟩ := List.mem_map.1 ha
    by_cases hq : Q.target t = q
    · subst hq
      calc r.residual p * (Q.cost t * indicator (Q.target t) (Q.target t))
          = r.residual p * Q.cost t := by rw [indicator_self, mul_one]
        _ ≤ (∑ ts ∈ Q.tracked o F r p, Q.forwardWeight (o, ts)) * Q.cost t :=
          mul_le_mul_left (le_trans hresidual (h.le_sum p)) _
        _ = ∑ ts ∈ Q.tracked o F r p, Q.forwardWeight (o, ts) * Q.cost t := Finset.sum_mul ..
        _ ≤ ∑ ts ∈ Q.tracked o F r' (Q.target t), Q.forwardWeight (o, ts) :=
          finset_sum_le fun ts hts => by
            obtain ⟨us, hus, hle⟩ :=
              exists_tracked hc ho hback hgrow ht (haccount.passed hr ht) hts
            exact le_trans hle (Finset.single_le_sum_of_canonicallyOrdered
              (f := fun us => Q.forwardWeight (o, us)) hus)
    · rw [indicator_of_ne hq, mul_zero, mul_zero]
      exact zero_le
  refine ⟨⟨⟨carried', haccount'⟩, hsum⟩, ?_⟩
  have hshorter : (r.take p f).frontier.states.length < r.frontier.states.length := by
    rw [Frontier.states_of_pop? hpop]
    exact Nat.lt_succ_self _
  rcases hr with ⟨-, rfl⟩ | rfl
  · exact Nat.add_lt_add_left hshorter _
  · rcases carry_eq_or_lt (r.residual p) (r.take p f) (Q.leaving p) with hsame | ⟨q, hlt⟩
    · rw [hsame]
      exact Nat.add_lt_add_left hshorter _
    · exact haccount'.pends.work_lt (unabsorbed_lt hgrow (hsum q) hlt) _

end Founded

omit [LawfulBEq S] [BEq W] [LawfulBEq W] in
/-- Once nothing is left to carry, every path is absorbed. -/
theorem Account.absorbs {r : Relaxation S W} {carried : List (S × W)}
    (h : Q.Account (· ∈ F) o r carried) (hz : ∀ q, r.residual q = 0) {ts : List T}
    (hts : Q.IsPath o ts) : Q.Absorbs o r ts := by
  induction ts using List.reverseRecOn with
  | nil =>
    intro us hus
    obtain rfl := List.prefix_nil.1 hus
    rw [forwardWeight, pathCost_nil, endpoint_nil, h.received, indicator_self]
    exact le_self_add
  | append_singleton ts t ih =>
    obtain ⟨hpath, ht, -⟩ := isPath_append.1 hts
    have habs := ih hpath
    refine habs.append_singleton (le_trans (mul_le_mul_left (habs ts (List.prefix_refl ts)) _) ?_)
    rw [h.kept, hz, add_zero, h.received]
    exact le_trans (weigh_indicator_mul_le carried ht) le_add_self

section Done

variable {r : Relaxation S W} (h : Q.Founded o F r) (hz : ∀ q, r.residual q = 0)
include h hz

omit [LawfulBEq S] [BEq W] [LawfulBEq W] in
theorem Founded.absorbs {ts : List T} (hts : Q.IsPath o ts) :
    Q.forwardWeight (o, ts) ≤ r.distance (Q.endpoint o ts) := by
  obtain ⟨_, haccount⟩ := h.account
  exact haccount.absorbs hz hts ts (List.prefix_refl ts)

omit [LawfulBEq S] [BEq W] [LawfulBEq W] in
theorem Founded.distance_eq (hc : Q.Closed (· ∈ F)) (ho : o ∈ F) (q : S) :
    r.distance q =
      ∑ᶠ ts ∈ Q.numbered.cycleFreePaths o q, Q.numbered.forwardWeight (o, ts) := by
  have hfin : (Q.numbered.cycleFreePaths o q).Finite :=
    finite_cycleFreePaths (closed_numbered hc) ho q
  rw [finsum_mem_eq_finite_toFinset_sum _ hfin]
  refine le_antisymm (le_trans (h.le_sum q) (finset_sum_le fun ts hts => ?_))
    (finset_sum_le fun us hus => ?_)
  · obtain ⟨⟨hpath, hend, hfree⟩, -⟩ := (mem_tracked hc ho).1 hts
    obtain ⟨us, hus, rfl⟩ := exists_isPath_numbered hpath
    rw [← forwardWeight_numbered]
    refine Finset.single_le_sum_of_canonicallyOrdered
      (f := fun us => Q.numbered.forwardWeight (o, us)) (hfin.mem_toFinset.2 ⟨hus, ?_, ?_⟩)
    · rwa [endpoint_numbered]
    · rwa [CycleFree, visits_numbered]
  · obtain ⟨hpath, rfl, -⟩ := hfin.mem_toFinset.1 hus
    rw [forwardWeight_numbered, endpoint_numbered]
    exact h.absorbs hz (isPath_map_fst hpath)

end Done

section Distances

variable [Monad m] [LawfulMonad m] [StepLimited m] {A : Automaton m L S T W} {R : S → Prop}

theorem Answers.distances_returning (h : A.Answers Q R) (hF : ∀ q ∈ F, R q)
    (hc : Q.Closed (· ∈ F)) (ho : o ∈ F) (hback : Q.Returning o) (queue : Queue W) :
    ∃ d : Distances S W,
      (∀ q, d.getD q 0 =
        ∑ᶠ ts ∈ Q.numbered.cycleFreePaths o q, Q.numbered.forwardWeight (o, ts)) ∧
      (∀ ts, Q.IsPath o ts → Q.forwardWeight (o, ts) ≤ d.getD (Q.endpoint o ts) 0) ∧
      ∃ n, ∀ budget, n < budget → A.distances budget ⟨queue, .exact⟩ o = pure d := by
  by_cases hz : Q.entry o = 0
  · have hweight (ts : List T) : Q.forwardWeight (o, ts) = 0 := by
      rw [forwardWeight, hz, zero_mul]
    refine ⟨∅, fun q => ?_, fun ts _ => ?_, 0, fun budget _ =>
      h.distances_eq_empty _ (hF o ho) hz budget⟩
    · simp only [forwardWeight_numbered, hweight, finsum_zero, Std.HashMap.getD_empty]
    · rw [hweight]
      exact zero_le
  · obtain ⟨r, hr, hdone, hrun⟩ := untilDone_eq_pure (A.relaxNext .exact) (Q.advance .exact)
      (Q.Founded o F) (fun r => Q.unabsorbed o F r * (F.card + 1) + r.frontier.states.length)
      (fun r hr => h.relaxNext .exact fun q hq => hF q (hr.inside hq))
      (fun r r' hr hnext => hr.advance hc ho hback hnext)
      (Founded.start hc ho (queue.discipline A.order))
    have hzero (q : S) : r.residual q = 0 := by
      obtain ⟨_, haccount⟩ := hr.account
      exact haccount.pends.residual_eq_zero (advance_eq_none hdone) q
    exact ⟨r.distances, hr.distance_eq hzero hc ho, fun ts => hr.absorbs hzero, _,
      fun budget hbudget => h.distances_eq_pure (hF o ho) hz (hrun budget hbudget)⟩

theorem Answers.distances_absorbing (h : A.Answers Q R) (hF : ∀ q ∈ F, R q)
    (hc : Q.Closed (· ∈ F)) (ho : o ∈ F) (hone : ∀ a : W, a ≤ 1) (queue : Queue W) :
    ∃ d : Distances S W,
      (∀ q, d.getD q 0 =
        ∑ᶠ ts ∈ Q.numbered.cycleFreePaths o q, Q.numbered.forwardWeight (o, ts)) ∧
      (∀ ts, Q.IsPath o ts → Q.forwardWeight (o, ts) ≤ d.getD (Q.endpoint o ts) 0) ∧
      ∃ n, ∀ budget, n < budget → A.distances budget ⟨queue, .exact⟩ o = pure d :=
  h.distances_returning hF hc ho (returning_of_le_one hone Q o) queue

end Distances

end Automaton

end WeightedAutomata
