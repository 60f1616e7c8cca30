import WeightedAutomata.Proofs.Acyclic
import WeightedAutomata.Proofs.Determinization.Strings
import WeightedAutomata.Proofs.KBest.ShortestPaths

/-!
The best strings of an acyclic automaton. Every string has one path in the table that the
determinization has remembered in the end, so the best paths of the table are the best strings.
-/
namespace WeightedAutomata.Automaton

open KBest
open scoped BigOperators

variable {m : Type → Type} {L S T W : Type} {k : ℕ} [Semiring W] [Ord W]

/-- The `k` best strings whose weight is not zero, best first, each by one path; all of them if
there are no more than `k`. -/
structure RanksStrings (weightOf : List L → W) (k : ℕ) (ps : List (Path L S T W)) : Prop where
  length_eq : (ps.length : ℕ∞) = min (k : ℕ∞) {x | weightOf x ≠ 0}.encard
  nodup : (ps.map Path.label).Nodup
  sorted : ps.Pairwise fun p q => (compare p.weight q.weight).isLE
  weight_eq : ∀ p ∈ ps, p.weight = weightOf p.label ∧ p.weight ≠ 0
  optimal : ∀ x, x ∉ ps.map Path.label → ∀ p ∈ ps, compare (weightOf x) p.weight ≠ .lt

section Ranks

variable [Std.TransOrd W] [Std.LawfulEqOrd W] {A : Automaton Id L S T W} {weightOf : List L → W}
variable {ps : List (Path L S T W)}

omit [Std.LawfulEqOrd W] in
/-- If each string of non-zero weight has one path, the best paths are the best strings. -/
theorem BestPaths.ranksStrings (h : A.BestPaths k ps) (ho : Ordered W)
    (hweight : ∀ c ∈ A.livePaths, A.completeWeight c = weightOf (A.labels c.2))
    (hinj : Set.InjOn (fun c => A.labels c.2) A.livePaths)
    (hex : ∀ x, weightOf x ≠ 0 → ∃ c ∈ A.livePaths, A.labels c.2 = x) :
    RanksStrings weightOf k ps where
  length_eq := by
    have himage : (fun c => A.labels c.2) '' A.livePaths = {x | weightOf x ≠ 0} := by
      ext x
      constructor
      · rintro ⟨c, hc, rfl⟩
        rw [Set.mem_ofPred_eq, ← hweight c hc]
        exact hc.2
      · exact hex x
    rw [h.length_eq, ← himage, hinj.encard_image]
  nodup := by
    have hlabels : ps.map Path.label =
        (ps.map fun p => (p.origin, p.transitions)).map fun c => A.labels c.2 := by
      rw [List.map_map]
      exact List.map_congr_left fun p hp => (h.genuine p hp).2.2
    rw [hlabels]
    refine List.Nodup.map_on (fun c hc c' hc' heq => ?_) h.nodup
    obtain ⟨p, hp, rfl⟩ := List.mem_map.1 hc
    obtain ⟨p', hp', rfl⟩ := List.mem_map.1 hc'
    exact hinj (h.genuine p hp).1 (h.genuine p' hp').1 heq
  sorted := h.sorted
  weight_eq p hp := by
    obtain ⟨hlive, heq, hlabel⟩ := h.genuine p hp
    rw [heq, hlabel]
    exact ⟨hweight _ hlive, hlive.2⟩
  optimal x hx p hp := by
    by_cases hz : weightOf x = 0
    · rw [hz]
      exact Std.OrientedCmp.not_lt_of_isLE (ho.zero_last p.weight)
    · obtain ⟨c, hc, rfl⟩ := hex x hz
      rw [← hweight c hc]
      refine h.optimal c hc (fun hmem => hx ?_) p hp
      obtain ⟨q, hq, rfl⟩ := List.mem_map.1 hmem
      exact List.mem_map.2 ⟨q, hq, (h.genuine q hq).2.2⟩

/-- The first string is no worse than any other. -/
theorem RanksStrings.head_isLE (h : RanksStrings weightOf k ps) {p : Path L S T W}
    (hp : p ∈ ps.head?) (x : List L) : (compare p.weight (weightOf x)).isLE := by
  obtain ⟨rest, rfl⟩ : ∃ rest, ps = p :: rest := List.head?_eq_some_iff.1 hp
  by_cases hx : x ∈ (p :: rest).map Path.label
  · obtain ⟨q, hq, rfl⟩ := List.mem_map.1 hx
    rw [← (h.weight_eq q hq).1]
    rcases List.mem_cons.1 hq with rfl | hq
    · exact Std.ReflCmp.isLE_rfl
    · exact (List.pairwise_cons.1 h.sorted).1 q hq
  · have hnot := h.optimal x hx p List.mem_cons_self
    exact Std.OrientedCmp.isGE_iff_isLE.1 (Ordering.ne_lt_iff_isGE.1 hnot)

end Ranks

/-- A sum of two weights is the better one. -/
def PicksBetter (W : Type) [Add W] [Ord W] : Prop :=
  ∀ a b : W, (a + b = a ∨ a + b = b) ∧ (compare (a + b) a).isLE ∧ (compare (a + b) b).isLE

namespace PicksBetter

variable {ι : Type} (h : PicksBetter W) {f : ι → W}
include h

theorem sum_mem (s : Finset ι) : ∑ i ∈ s, f i = 0 ∨ ∃ i ∈ s, ∑ i ∈ s, f i = f i := by
  classical
  induction s using Finset.induction_on with
  | empty => exact .inl Finset.sum_empty
  | insert i s hi ih =>
    rw [Finset.sum_insert hi]
    rcases (h (f i) (∑ i ∈ s, f i)).1 with heq | heq
    · rw [heq]
      exact .inr ⟨i, Finset.mem_insert_self i s, rfl⟩
    · rw [heq]
      exact ih.imp_right fun ⟨j, hj, hsum⟩ => ⟨j, Finset.mem_insert_of_mem hj, hsum⟩

theorem sum_isLE {s : Finset ι} {i : ι} (hi : i ∈ s) :
    (compare (∑ i ∈ s, f i) (f i)).isLE := by
  classical
  rw [← Finset.add_sum_erase s f hi]
  exact (h _ _).2.1

theorem finsum_mem {s : Set ι} (hs : s.Finite) :
    ∑ᶠ i ∈ s, f i = 0 ∨ ∃ i ∈ s, ∑ᶠ i ∈ s, f i = f i := by
  rw [finsum_mem_eq_finite_toFinset_sum f hs]
  exact (h.sum_mem _).imp_right fun ⟨i, hi, hsum⟩ => ⟨i, hs.mem_toFinset.1 hi, hsum⟩

theorem finsum_isLE {s : Set ι} (hs : s.Finite) {i : ι} (hi : i ∈ s) :
    (compare (∑ᶠ i ∈ s, f i) (f i)).isLE := by
  rw [finsum_mem_eq_finite_toFinset_sum f hs]
  exact h.sum_isLE (hs.mem_toFinset.2 hi)

end PicksBetter

section Search

variable [BEq L] [LawfulBEq L] [BEq S] [BEq W] [LawfulBEq W] [PartialInverse W]
variable {A : Automaton Id L S T W} {closure : S → ℕ} {μ : SubsetMemory L S W}

omit [LawfulBEq L] [BEq S] [LawfulBEq W] [PartialInverse W] in
/-- The table has been asked for all that can be reached in it once its best paths are known. -/
theorem known_of_shortestPaths (hk : 1 ≤ k) {steps : ℕ}
    {solver : Solver (KBest k ℕ (SubsetTransition L W) W)}
    {ps : List (Path L ℕ (SubsetTransition L W) W)}
    (hps : (A.recalled μ true).shortestPaths steps k solver = some ps) :
    μ.start.isSome ∧ ∀ i, (A.table μ).Reachable i → i ∈ μ.explored := by
  unfold shortestPaths at hps
  rw [if_neg (Nat.ne_of_gt hk)] at hps
  obtain ⟨_, hbest, -⟩ := Option.bind_eq_some_iff.1 hps
  obtain ⟨_, -, hrest⟩ := Option.bind_eq_some_iff.1 hbest
  obtain ⟨_, hstates, -⟩ := Option.bind_eq_some_iff.1 hrest
  obtain ⟨visited, hvisited, -⟩ := Option.bind_eq_some_iff.1 hstates
  have hexplore : (A.recalled μ true).explore steps = some visited := hvisited
  have hstart : μ.start.isSome := by
    by_contra hnone
    obtain ⟨_, hstarts, -⟩ := Option.bind_eq_some_iff.1 hexplore
    simp [recalled, hnone] at hstarts
  refine ⟨hstart, fun i hi => ?_⟩
  have hasked := outgoing_isSome_of_explore (Q := A.table μ) (fun ss hss => ?_)
    (fun i ts hts => (leaving_of_recalled hts).1) rfl hexplore hi
  · obtain ⟨ts, hts⟩ := Option.isSome_iff_exists.1 hasked
    exact (leaving_of_recalled hts).2 rfl
  · simpa [recalled, hstart] using hss.symm

variable [Std.TransOrd W] [Std.LawfulEqOrd W] (h : A.Remembers closure μ) (ho : Ordered W)
variable (hk : 1 ≤ k)
include h ho hk

theorem Remembers.recalled_shortestPaths {size : ℕ → ℕ} {n : ℕ}
    (hb : (A.table μ).Bounded (A.table μ).Reachable size)
    (hn : ((A.table μ).starts.map size).sum ≤ n)
    (queue : Queue (KBest k ℕ (SubsetTransition L W) W)) {steps : ℕ}
    (hsteps : (n + 1) * (n + 2) + n + 1 < steps) : ∃ ps, (A.table μ).BestPaths k ps ∧
      (A.recalled μ false).shortestPaths steps k ⟨queue, .exact⟩ = some ps := by
  obtain ⟨best, hbest, hrun⟩ := h.recalled_answers.toReachable.completeDistance_best_of_bounded
    h.lawful_table ho hk queue hb hn
  refine ⟨best.entries.filterMap (A.table μ).path?, bestPaths_filterMap hbest, ?_⟩
  unfold shortestPaths
  rw [if_neg (Nat.ne_of_gt hk), hrun steps hsteps]
  rfl

variable [Monad m] [LawfulMonad m] [StepLimited m] [LawfulBEq S] [Hashable S]

/-- The best paths of a determinization are the best strings of the operand. -/
theorem Remembers.shortestPaths_run (hinverse : HasInverses W) (hzero : ZeroSumFree W)
    {B : Automaton m L S T W} {budget : ℕ} (hB : B.Answers A A.Reachable)
    (hcloses : B.Closes A closure budget) {n : ℕ}
    (hbounded : ∀ ν, A.Remembers closure ν → ∃ size,
      (A.table ν).Bounded (A.table ν).Reachable size ∧ ((A.table ν).starts.map size).sum ≤ n)
    (queue : Queue (KBest k ℕ (SubsetTransition L W) W)) {steps : ℕ}
    (hsteps : (n + 1) * (n + 2) + n + 1 < steps) : ∃ ps ν,
      ((B.determinize budget).shortestPaths steps k ⟨queue, .exact⟩).run μ = pure (ps, ν) ∧
        RanksStrings (fun x => A.startValue closure (A.after closure A.exit x)) k ps := by
  rcases follows_shortestPaths hzero hB hcloses steps k ⟨queue, .exact⟩ μ h with
    ⟨ps, ν, hν, -, hrun, hlater⟩ | ⟨ν, hν, -, hnone⟩
  · obtain ⟨size, hb, hn⟩ := hbounded ν hν
    obtain ⟨best, hbest, hfound⟩ := hν.recalled_shortestPaths ho hk hb hn queue hsteps
    obtain rfl : best = ps :=
      Option.some.inj (hfound.symm.trans (hlater ν hν (.refl ν) false))
    obtain ⟨hstart, hknown⟩ := known_of_shortestPaths hk (hlater ν hν (.refl ν) true)
    refine ⟨best, ν, hrun, hbest.ranksStrings ho (fun c hc => hν.completeWeight_table hinverse hc.1)
      (hν.injOn_labels_table.mono fun c hc => hc.1) fun x hx => ?_⟩
    obtain ⟨c, hc, rfl⟩ := hν.exists_completePath_table hinverse hknown hstart hx
    refine ⟨c, ⟨hc, ?_⟩, rfl⟩
    rwa [hν.completeWeight_table hinverse hc]
  · obtain ⟨size, hb, hn⟩ := hbounded ν hν
    obtain ⟨best, -, hfound⟩ := hν.recalled_shortestPaths ho hk hb hn queue hsteps
    cases hfound.symm.trans hnone

end Search

section Strings

variable [BEq L] [LawfulBEq L] [BEq W] [LawfulBEq W] {A : Automaton Id L S T W}

/-- The sum over the complete paths that read a string. -/
noncomputable def stringSum (A : Automaton Id L S T W) (x : List L) : W :=
  ∑ᶠ c ∈ {c ∈ A.numbered.completePaths | A.numbered.labels c.2 = x}, A.numbered.completeWeight c

omit [Ord W] in
theorem stringSum_eq_startValue [BEq S] (hA : A.Lawful) (hfinite : {s | A.Reachable s}.Finite)
    (hepsilon : A.EpsilonAcyclic) {closure : S → ℕ}
    (hc : (A.epsilonPart []).Bounded A.Reachable closure) (x : List L) :
    A.stringSum x = A.startValue closure (A.after closure A.exit x) := by
  obtain ⟨size, hb⟩ := exists_bounded_reading hfinite hepsilon x
  rw [stringSum, (finsum_completePaths_reading hA hb).2, fromStarts_rest hc hb hA]
  rfl

omit [BEq L] [LawfulBEq L] [BEq W] [LawfulBEq W] in
/-- Where a sum picks the better weight, the weight of the best string is that of all paths. -/
theorem RanksStrings.head_eq [Std.TransOrd W] [Std.LawfulEqOrd W] {U V : Type}
    {ps : List (Path L U V W)} (h : RanksStrings A.stringSum k ps) (ho : Ordered W)
    (hpick : PicksBetter W) (hfinite : A.numbered.completePaths.Finite) {p : Path L U V W}
    (hp : p ∈ ps.head?) :
    p.weight = ∑ᶠ c ∈ A.numbered.completePaths, A.numbered.completeWeight c := by
  have hread (x : List L) :
      {c ∈ A.numbered.completePaths | A.numbered.labels c.2 = x}.Finite :=
    hfinite.subset fun c hc => hc.1
  have hbest : (compare p.weight
      (∑ᶠ c ∈ A.numbered.completePaths, A.numbered.completeWeight c)).isLE := by
    rcases hpick.finsum_mem hfinite with hz | ⟨c, hc, heq⟩
    · rw [hz]
      exact ho.zero_last _
    · rw [heq]
      exact Std.TransOrd.isLE_trans (h.head_isLE hp (A.numbered.labels c.2))
        (hpick.finsum_isLE (hread _) ⟨hc, rfl⟩)
  have htotal : (compare (∑ᶠ c ∈ A.numbered.completePaths, A.numbered.completeWeight c)
      p.weight).isLE := by
    obtain ⟨hweight, hne⟩ := h.weight_eq p (List.mem_of_mem_head? hp)
    rcases hpick.finsum_mem (hread p.label) with hz | ⟨c, hc, heq⟩
    · exact absurd (hweight.trans hz) hne
    · rw [hweight, stringSum, heq]
      exact hpick.finsum_isLE hfinite hc.1
  exact Std.LawfulEqOrd.eq_of_compare (Std.OrientedCmp.isLE_antisymm hbest htotal)

variable [BEq S] [LawfulBEq S] [Hashable S] [PartialInverse W] [Std.TransOrd W]
variable [Std.LawfulEqOrd W] [Monad m] [LawfulMonad m] [StepLimited m]

variable (m) in
/-- For every queue and every count, once the budget is large enough, the best strings are the best
ones of all strings of non-zero weight, each with the weight that it has in the automaton. Where a
sum picks the better weight, the first one has the weight of all complete paths together. -/
theorem bestStrings_ranks (A : Automaton Id L S T W) (hA : A.Lawful)
    (hfinite : {s | A.Reachable s}.Finite) (hacyclic : A.Acyclic) (hinverse : HasInverses W)
    (hzero : ZeroSumFree W) (ho : Ordered W) (k : ℕ)
    (queue : Queue (KBest k ℕ (SubsetTransition L W) W)) :
    (∀ x queue, ∃ n, ∀ budget, n ≤ budget → (A.lift : Automaton m L S T W).stringWeight budget
      ⟨queue, .exact⟩ x = pure (A.stringSum x)) ∧
    ∃ n, ∀ budget, n ≤ budget → ∃ ps memory,
      ((A.lift : Automaton m L S T W).bestStrings budget k ⟨queue, .exact⟩).run .empty =
        pure (ps, memory) ∧ RanksStrings A.stringSum k ps ∧
      (PicksBetter W → ∀ p ∈ ps.head?,
        (A.lift : Automaton m L S T W).completeDistance budget .default = pure p.weight) := by
  have hepsilon : A.EpsilonAcyclic := fun s hs ts hne hts _ => hacyclic s hs ts hne hts
  have hstarts : ∀ s ∈ A.starts, A.Reachable s := fun s hs => .start hs
  have hlift := lift_answers_reachable m A
  refine ⟨fun x queue => ?_, ?_⟩
  · obtain ⟨size, hb⟩ := exists_bounded_reading hfinite hepsilon x
    refine ⟨(A.starts.map fun s => size ⟨s, 0, .free⟩).sum + 2, fun budget hbudget => ?_⟩
    rw [stringSum, (finsum_completePaths_reading hA hb).2]
    exact hlift.stringWeight_eq hA hb queue (by omega)
  · obtain ⟨size, hb⟩ := exists_bounded A.closed_reachable hfinite hacyclic
    obtain ⟨closure, hc⟩ := exists_bounded_epsilonPart hfinite hepsilon
    obtain ⟨inner, hinner⟩ := hlift.exists_closes hA hfinite hc
    obtain ⟨hfin, htotal⟩ := finsum_numbered_completePaths hA hb hstarts
    have hsum : A.stringSum = fun x => A.startValue closure (A.after closure A.exit x) :=
      funext fun x => stringSum_eq_startValue hA hfinite hepsilon hc x
    obtain ⟨n, hn⟩ : ∃ n, n = (A.readable size).length := ⟨_, rfl⟩
    refine ⟨inner + ((n + 1) * (n + 2) + n + 2) + ((A.starts.map size).sum + 2),
      fun budget hbudget => ?_⟩
    have hranks : ∃ ps memory,
        ((A.lift : Automaton m L S T W).bestStrings budget k ⟨queue, .exact⟩).run .empty =
          pure (ps, memory) ∧ RanksStrings A.stringSum k ps := by
      rcases Nat.eq_zero_or_pos k with rfl | hk
      · exact ⟨[], .empty, rfl, by simp, .nil, .nil, nofun, fun _ _ _ => nofun⟩
      · rw [hsum]
        exact remembers_empty.shortestPaths_run ho hk hinverse hzero hlift
          (hinner budget (by omega))
          (fun ν hν => hn ▸ hν.exists_bounded_table hinverse hA hfinite hepsilon hc hb) queue
          (by omega)
    obtain ⟨ps, memory, hrun, hps⟩ := hranks
    refine ⟨ps, memory, hrun, hps, fun hpick p hp => ?_⟩
    rw [hps.head_eq ho hpick hfin hp, htotal]
    exact hlift.completeDistance_eq hA hb .topological (by omega)

end Strings

/-- Two initial states, of which one leads to the other by an epsilon transition and by either
label. -/
def forkedStep : Automaton Id Bool Bool (Option Bool) BooleanWeight where
  initialStates := pure [false, true]
  outgoing s := pure (if s then [] else [none, some false, some true])
  initialWeight _ := pure 1
  finalWeight s := pure (if s then 1 else 0)
  weight _ := pure 1
  source _ := false
  target _ := true
  label t := t

theorem bestStrings_forkedStep :
    (∀ x queue, ∃ n, ∀ budget, n ≤ budget →
      (forkedStep.lift : Automaton Option _ _ _ _).stringWeight budget ⟨queue, .exact⟩ x =
        some (forkedStep.stringSum x)) ∧
    ∃ n, ∀ budget, n ≤ budget → ∃ ps memory,
      ((forkedStep.lift : Automaton Option _ _ _ _).bestStrings budget 2
        ⟨.bestFirst compare, .exact⟩).run .empty = some (ps, memory) ∧
      RanksStrings forkedStep.stringSum 2 ps ∧ ∀ p ∈ ps.head?,
        (forkedStep.lift : Automaton Option _ _ _ _).completeDistance budget .default =
          some p.weight := by
  have hacyclic : forkedStep.Acyclic := by
    intro s _ ts hne hpath
    match s, ts with
    | _, [] => exact absurd rfl hne
    | true, t :: ts => exact absurd hpath.1 List.not_mem_nil
    | false, [t] => exact nofun
    | false, t :: u :: ts => exact absurd hpath.2.1 List.not_mem_nil
  have hinverse : HasInverses BooleanWeight := by
    rintro ⟨_ | _⟩ h
    · exact absurd rfl h
    · exact ⟨1, rfl, rfl⟩
  have hzero : ZeroSumFree BooleanWeight := by
    rintro ⟨_ | _⟩ ⟨_ | _⟩ h
    · exact ⟨rfl, rfl⟩
    · cases h
    · cases h
    · cases h
  have hpick : PicksBetter BooleanWeight := by
    rintro ⟨_ | _⟩ ⟨_ | _⟩ <;> decide
  obtain ⟨hweights, n, hrun⟩ := bestStrings_ranks Option forkedStep
    ⟨by decide, by decide, by decide⟩ (Set.toFinite _) hacyclic hinverse hzero
    BooleanWeight.ordered 2 (.bestFirst compare)
  refine ⟨hweights, n, fun budget hbudget => ?_⟩
  obtain ⟨ps, memory, hps, hranks, hfirst⟩ := hrun budget hbudget
  exact ⟨ps, memory, hps, hranks, hfirst hpick⟩

end WeightedAutomata.Automaton
