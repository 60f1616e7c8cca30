import Mathlib.Data.Finset.Option
import WeightedAutomata.KBest.Paths
import WeightedAutomata.Proofs.Boolean
import WeightedAutomata.Proofs.KBest.Distances
import WeightedAutomata.Proofs.KBest.Rooted
import WeightedAutomata.Proofs.Total

/-!
The best complete paths: the lists of the states, followed by the final weights, are put together,
and what they hold are paths again.
-/
namespace WeightedAutomata.Automaton

open KBest

variable {m : Type → Type} {L S T W : Type} {k : ℕ} [Semiring W] [Ord W] [BEq W] [LawfulBEq W]

section Sets

variable (A : Automaton Id L S T W)

/-- The entries of the paths from initial states to a state. -/
def ends (q : S) : Set (PathWeight S T W) :=
  {e | ∃ s ts, s ∈ A.starts ∧ A.IsPath s ts ∧ A.endpoint s ts = q ∧ e = A.pathEntry s ts ∧
    e.weight ≠ 0}

/-- The complete paths whose weight is not zero. -/
def livePaths : Set (S × List T) := {c ∈ A.completePaths | A.completeWeight c ≠ 0}

def completeEntry (c : S × List T) : PathWeight S T W := ⟨A.completeWeight c, some c.1, c.2.reverse⟩

/-- The entries of the complete paths that end in a state. -/
def completed (q : S) : Set (PathWeight S T W) :=
  {x | ∃ c ∈ A.livePaths, A.endpoint c.1 c.2 = q ∧ x = A.completeEntry c}

end Sets

variable {A : Automaton Id L S T W}

omit [Ord W] [BEq W] [LawfulBEq W] in
theorem weight_pathEntry_ne_zero {s : S} {ts : List T} (h : A.completeWeight (s, ts) ≠ 0) :
    (A.pathEntry s ts).weight ≠ 0 := by
  intro hz
  apply h
  change (A.pathEntry s ts).weight * _ = 0
  rw [hz, zero_mul]

omit [Ord W] in
theorem followed_ends (q : S) :
    {x | ∃ e ∈ A.ends q, (KBest.lift (A.exit q) : KBest k S T W).followed e = some x} =
      A.completed q := by
  ext x
  constructor
  · rintro ⟨e, ⟨s, ts, hs, hpath, rfl, rfl, -⟩, hx⟩
    obtain ⟨rfl, hweight⟩ := followed_single.1 hx
    have hexit : A.exit (A.endpoint s ts) ≠ 0 := by
      intro hz
      rw [PathWeight.append, hz, mul_zero] at hweight
      exact hweight rfl
    exact ⟨(s, ts), ⟨⟨hs, hpath, hexit⟩, hweight⟩, rfl, rfl⟩
  · rintro ⟨⟨s, ts⟩, ⟨⟨hs, hpath, -⟩, hweight⟩, rfl, rfl⟩
    exact ⟨A.pathEntry s ts, ⟨s, ts, hs, hpath, rfl, rfl, weight_pathEntry_ne_zero hweight⟩,
      followed_single.2 ⟨rfl, hweight⟩⟩

omit [Ord W] in
theorem eq_of_followed_final {q : S} {x y z : PathWeight S T W} (hy : y ∈ A.ends q)
    (hz : z ∈ A.ends q) (hyx : (KBest.lift (A.exit q) : KBest k S T W).followed y = some x)
    (hzx : (KBest.lift (A.exit q) : KBest k S T W).followed z = some x) : y = z := by
  obtain ⟨s, ts, -, -, -, rfl, -⟩ := hy
  obtain ⟨s', us, -, -, -, rfl, -⟩ := hz
  have heq := (followed_single.1 hyx).1.trans (followed_single.1 hzx).1.symm
  have horigin := congrArg PathWeight.origin heq
  have htrail := congrArg PathWeight.trail heq
  simp only [pathEntry, PathWeight.append, List.nil_append, List.reverse_inj] at horigin htrail
  rw [Option.some.inj horigin, htrail]

omit [Ord W] [LawfulBEq W] in
theorem entry_kBest (s : S) : (A.kBest k).entry s = single (A.pathEntry s []) := by
  rw [pathEntry, pathCost_nil, mul_one]
  rfl

/-- A path to a state is a route from the added state or the empty path of an initial state. -/
theorem ends_eq_union [BEq S] [LawfulBEq S] [BEq T] [LawfulBEq T] (hA : A.Lawful) (hk : 1 ≤ k)
    (q : S) : A.ends q = (A.kBest k).singleInitial.arrivals none (some q) ∪
      {e | q ∈ A.starts ∧ e = A.pathEntry q [] ∧ e.weight ≠ 0} := by
  ext e
  constructor
  · rintro ⟨s, ts, hs, hpath, rfl, rfl, hweight⟩
    by_cases hts : ts = []
    · subst hts
      exact .inr ⟨hs, rfl, hweight⟩
    · exact .inl ⟨rooted ts, route_rooted hA hk hs hts hpath hweight⟩
  · rintro (⟨rs, hrs⟩ | ⟨hs, rfl, hweight⟩)
    · rcases route_cases hA hk hrs with ⟨-, hq, -⟩ | ⟨s, ts, hs, -, hpath, hq, -, rfl, hweight⟩
      · cases hq
      · exact ⟨s, ts, hs, hpath, (Option.some.inj hq).symm, rfl, hweight⟩
    · exact ⟨q, [], hs, trivial, rfl, rfl, hweight⟩

section Final

variable [BEq S] [LawfulBEq S] [Hashable S] [BEq T] [LawfulBEq T]

variable [Std.TransOrd W] [Std.LawfulEqOrd W] (ho : Ordered W) (hk : 1 ≤ k)
variable {d : Distances S (KBest k S T W)} {total : KBest k S T W} {X : Set (PathWeight S T W)}
include ho hk

theorem best_addFinal {s : S} (hd : Best k (A.ends s) (d.getD s 0).entries)
    (hX : Best k X total.entries) :
    Best k (X ∪ A.completed s) ((A.kBest k).addFinal d total s).entries := by
  have hs : Best k (A.completed s) (d.getD s 0 * (A.kBest k).exit s).entries := by
    rw [← followed_ends (k := k)]
    exact hd.mul ho (length_single_le _) fun y hy z hz x hyx hzx =>
      eq_of_followed_final hy hz hyx hzx
  rw [Std.HashMap.getD_eq_getD_getElem?] at hs
  unfold addFinal
  cases hds : d[s]? with
  | none =>
    rw [hds, Option.getD_none, zero_mul_eq] at hs
    rwa [hs.eq_empty hk, Set.union_empty]
  | some w =>
    rw [hds, Option.getD_some] at hs
    dsimp only
    by_cases hz : (A.kBest k).exit s == 0
    · rw [eq_of_beq hz, mul_zero_eq] at hs
      rw [hs.eq_empty hk, Set.union_empty, if_pos hz]
      exact hX
    · rw [if_neg hz]
      exact hX.add hs

theorem best_foldl_addFinal (hd : ∀ s, Best k (A.ends s) (d.getD s 0).entries)
    (hX : Best k X total.entries) (ss : List S) :
    Best k (X ∪ {x | ∃ s ∈ ss, x ∈ A.completed s})
      (ss.foldl ((A.kBest k).addFinal d) total).entries := by
  induction ss generalizing total X with
  | nil => simpa using hX
  | cons s ss ih =>
    have hrest := ih (best_addFinal ho hk (hd s) hX)
    have hset : X ∪ {x | ∃ q ∈ s :: ss, x ∈ A.completed q} =
        X ∪ A.completed s ∪ {x | ∃ q ∈ ss, x ∈ A.completed q} := by
      ext x
      simp only [Set.mem_union, Set.mem_ofPred_eq, List.exists_mem_cons_iff]
      tauto
    rwa [hset]

end Final

section Starts

variable [BEq S] [LawfulBEq S] [Hashable S] [BEq T] [LawfulBEq T] [Std.TransOrd W]
variable (hk : 1 ≤ k) {d : Distances S (KBest k S T W)} {X : S → Set (PathWeight S T W)}
include hk

theorem best_insert_start (hd : ∀ q, Best k (X q) (d.getD q 0).entries) (s q : S) :
    Best k (X q ∪ {e | q = s ∧ e = A.pathEntry q [] ∧ e.weight ≠ 0})
      ((d.insert s (d.getD s 0 + (A.kBest k).entry s)).getD q 0).entries := by
  rw [Std.HashMap.getD_insert]
  by_cases hq : s = q
  · subst hq
    rw [if_pos (beq_self_eq_true s), entry_kBest]
    simpa using (hd s).add (best_single hk (A.pathEntry s []))
  · rw [if_neg (by simpa using hq)]
    simpa [Ne.symm hq] using hd q

theorem best_foldl_insert_start (hd : ∀ q, Best k (X q) (d.getD q 0).entries) (ss : List S)
    (q : S) : Best k (X q ∪ {e | q ∈ ss ∧ e = A.pathEntry q [] ∧ e.weight ≠ 0})
      ((ss.foldl (fun d s => d.insert s (d.getD s 0 + (A.kBest k).entry s)) d).getD q
        0).entries := by
  induction ss generalizing d X with
  | nil => simpa using hd q
  | cons s ss ih =>
    have hrest := ih (best_insert_start (A := A) hk hd s)
    have hset : X q ∪ {e | q ∈ s :: ss ∧ e = A.pathEntry q [] ∧ e.weight ≠ 0} =
        X q ∪ {e | q = s ∧ e = A.pathEntry q [] ∧ e.weight ≠ 0} ∪
          {e | q ∈ ss ∧ e = A.pathEntry q [] ∧ e.weight ≠ 0} := by
      ext e
      simp only [Set.mem_union, Set.mem_ofPred_eq, List.mem_cons]
      tauto
    rw [hset]
    exact hrest

end Starts

section Best

variable [BEq S] [LawfulBEq S] [Hashable S] [BEq T] [LawfulBEq T] [Std.TransOrd W]
variable [Std.LawfulEqOrd W] [Monad m] [LawfulMonad m] [StepLimited m] {B : Automaton m L S T W}
variable (h : B.Answers A A.Reachable) (hA : A.Lawful)
variable {F : Finset S} (hF : ∀ s, s ∈ F ↔ A.Reachable s)
variable (ho : Ordered W) (hn : A.NeverBetter) (hk : 1 ≤ k) (queue : Queue (KBest k S T W))

section Steps

include h hA hF ho hn hk

theorem Answers.rootedDistances_best : ∃ d : Distances (Option S) (KBest k S T W),
    (∀ q, Best k ((A.kBest k).singleInitial.arrivals none (some q)) (d.getD (some q) 0).entries) ∧
      ∀ budget, (A.kBest k).singleInitial.searchSteps none F.insertNone < budget →
        (B.kBest k).singleInitial.distances budget ⟨queue, .exact⟩ none = pure d := by
  have hanswers := h.kBest.singleInitial (hA.kBest k)
  by_cases h1 : (1 : W) = 0
  · -- all weights are zero, and no state is initial
    have hstarts : A.starts = [] := by
      refine List.eq_nil_iff_forall_not_mem.2 fun s hs => (hA.mem_starts s).1 hs ?_
      rw [← one_mul (A.entry s), h1, zero_mul]
    have hleaving : (A.kBest k).singleInitial.leaving none = [] := by
      rw [leaving_singleInitial_none]
      change (A.starts.flatMap _).map _ = []
      rw [hstarts]
      rfl
    obtain ⟨d, hd, hrun⟩ := hanswers.distances_of_leaving_nil ⟨queue, .exact⟩
      (show ∀ q ∈ (none : Option S), A.Reachable q from nofun) hleaving
    refine ⟨d, fun q => ?_, fun budget hbudget =>
      hrun budget (lt_of_le_of_lt (Nat.le_add_left 1 _) hbudget)⟩
    have hnot : some q ∉ d := fun hq => Option.some_ne_none q (hd _ hq)
    rw [Std.HashMap.getD_eq_fallback hnot]
    refine ⟨ranked_nil, nofun, ?_⟩
    rintro e ⟨ts, hts⟩
    rcases route_cases hA hk hts with ⟨-, hq, -⟩ | ⟨s, us, hs, -⟩
    · cases hq
    · rw [hstarts] at hs
      cases hs
  · have hset : (fun s : Option S => ∀ q ∈ s, A.Reachable q) = (· ∈ F.insertNone) := by
      funext s
      simp only [Finset.mem_insertNone, hF]
    rw [hset] at hanswers
    have hnone : (none : Option S) ∈ F.insertNone := Finset.none_mem_insertNone
    obtain ⟨d, hd, hrun⟩ := hanswers.distances_best ho (routed_kBest hA hk hn) hk h1 rfl hnone queue
    exact ⟨d, fun q => hd (some q), hrun⟩

theorem Answers.distancesFromInitial_best : ∃ d : Distances S (KBest k S T W),
    (∀ q, Best k (A.ends q) (d.getD q 0).entries) ∧
      ∀ budget, (A.kBest k).singleInitial.searchSteps none F.insertNone < budget →
        (B.kBest k).distancesFromInitial budget ⟨queue, .exact⟩ = pure d := by
  obtain ⟨d₀, hd₀, hrun⟩ := h.rootedDistances_best hA hF ho hn hk queue
  refine ⟨(A.kBest k).addStarts (ownDistances d₀), fun q => ?_, fun budget hbudget => ?_⟩
  · rw [ends_eq_union hA hk]
    exact best_foldl_insert_start (A := A) (d := ownDistances d₀)
      (X := fun q => (A.kBest k).singleInitial.arrivals none (some q)) hk
      (fun q => by rw [getD_ownDistances]; exact hd₀ q) A.starts q
  · rw [h.kBest.distancesFromInitial_eq_bind, hrun budget hbudget, pure_bind]

theorem Answers.completeDistance_best_of_lt : ∃ best : KBest k S T W,
    Best k (A.completeEntry '' A.livePaths) best.entries ∧
      ∀ budget, (A.kBest k).singleInitial.searchSteps none F.insertNone + F.card < budget →
        (B.kBest k).completeDistance budget ⟨queue, .exact⟩ = pure best := by
  obtain ⟨d, hd, hrun⟩ := h.distancesFromInitial_best hA hF ho hn hk queue
  have hmost : (A.kBest k).AtMost F.card := by
    classical
    intro l hl hreach
    rw [← List.toFinset_card_of_nodup hl]
    exact Finset.card_le_card fun s hs =>
      (hF s).2 (reachable_kBest.1 (hreach s (List.mem_toFinset.1 hs)))
  obtain ⟨states, -, hmem, hstates⟩ := Answers.states_eq (h.kBest (k := k)) hmost
  have hnone : Best k (∅ : Set (PathWeight S T W)) (0 : KBest k S T W).entries := Best.nil
  have hbest := best_foldl_addFinal ho hk hd hnone states
  have hset : A.completeEntry '' A.livePaths = ∅ ∪ {x | ∃ s ∈ states, x ∈ A.completed s} := by
    ext x
    rw [Set.empty_union]
    constructor
    · rintro ⟨c, hc, rfl⟩
      refine ⟨A.endpoint c.1 c.2, (hmem _).2 (reachable_kBest.2 ?_), c, hc, rfl, rfl⟩
      exact A.closed_reachable.endpoint (.start hc.1.1) hc.1.2.1
    · rintro ⟨s, -, c, hc, -, rfl⟩
      exact ⟨c, hc, rfl⟩
  refine ⟨states.foldl ((A.kBest k).addFinal d) 0, by rwa [hset], fun budget hbudget => ?_⟩
  exact h.kBest.completeDistance_eq_pure (hrun budget (by omega)) (hstates budget (by omega))
    fun s hs => reachable_kBest.1 ((hmem s).1 hs)

end Steps

include h hA ho hn hk in
theorem Answers.completeDistance_best (hfinite : {s | A.Reachable s}.Finite) :
    ∃ best : KBest k S T W, Best k (A.completeEntry '' A.livePaths) best.entries ∧
      ∃ n, ∀ budget, n < budget →
        (B.kBest k).completeDistance budget ⟨queue, .exact⟩ = pure best := by
  obtain ⟨best, hbest, hrun⟩ :=
    h.completeDistance_best_of_lt hA (fun s => hfinite.mem_toFinset) ho hn hk queue
  exact ⟨best, hbest, _, hrun⟩

omit hn in
include h hA ho hk in
/-- The steps that a bounded automaton takes depend on nothing but the bound. -/
theorem Answers.completeDistance_best_of_bounded {size : S → ℕ} (hb : A.Bounded A.Reachable size)
    {n : ℕ} (hsize : (A.starts.map size).sum ≤ n) :
    ∃ best : KBest k S T W, Best k (A.completeEntry '' A.livePaths) best.entries ∧
      ∀ budget, (n + 1) * (n + 2) + n + 1 < budget →
        (B.kBest k).completeDistance budget ⟨queue, .exact⟩ = pure best := by
  have hmost : A.AtMost n := fun l hl hreach => (hb.atMost l hl hreach).trans hsize
  have hfinite := hmost.finite
  have hacyclic : A.Acyclic := fun s hs ts hne hts => hb.endpoint_ne hs hne hts
  obtain ⟨best, hbest, hrun⟩ := h.completeDistance_best_of_lt hA (fun s => hfinite.mem_toFinset)
    ho (.inl hacyclic) hk queue
  have hcard : hfinite.toFinset.card ≤ n := by
    rw [← Finset.length_toList]
    exact hmost _ (Finset.nodup_toList _) fun s hs =>
      hfinite.mem_toFinset.1 (Finset.mem_toList.1 hs)
  have hkBest : (A.kBest k).Bounded A.Reachable size := ⟨hb.closed, hb.sum_lt⟩
  have hpaths (i : ℕ) : ((A.kBest k).singleInitial.paths i none).length ≤ n + 1 :=
    ((hkBest.singleInitial fun s hs => .start hs).length_paths_le i
      (show ∀ q ∈ (none : Option S), A.Reachable q from nofun)).trans (Nat.succ_le_succ hsize)
  have hsteps : (A.kBest k).singleInitial.searchSteps none hfinite.toFinset.insertNone ≤
      (n + 1) * (n + 2) + 1 := by
    refine Nat.succ_le_succ (Nat.mul_le_mul (hpaths _) ?_)
    rw [Finset.card_insertNone]
    omega
  exact ⟨best, hbest, fun budget hbudget => hrun budget (by omega)⟩

end Best

section Paths

/-- At most `k` different complete paths whose weight is not zero, best first. -/
structure RankedPaths (A : Automaton Id L S T W) (k : ℕ) (ps : List (Path L S T W)) : Prop where
  length_le : ps.length ≤ k
  nodup : (ps.map fun p => (p.origin, p.transitions)).Nodup
  genuine : ∀ p ∈ ps, (p.origin, p.transitions) ∈ A.livePaths ∧
    p.weight = A.completeWeight (p.origin, p.transitions) ∧ p.label = A.labels p.transitions
  sorted : ps.Pairwise fun p q => (compare p.weight q.weight).isLE

/-- The `k` best complete paths whose weight is not zero, best first; all of them if there are no
more than `k`. -/
structure BestPaths (A : Automaton Id L S T W) (k : ℕ) (ps : List (Path L S T W)) : Prop where
  length_eq : (ps.length : ℕ∞) = min (k : ℕ∞) A.livePaths.encard
  nodup : (ps.map fun p => (p.origin, p.transitions)).Nodup
  genuine : ∀ p ∈ ps, (p.origin, p.transitions) ∈ A.livePaths ∧
    p.weight = A.completeWeight (p.origin, p.transitions) ∧ p.label = A.labels p.transitions
  sorted : ps.Pairwise fun p q => (compare p.weight q.weight).isLE
  optimal : ∀ c ∈ A.livePaths, c ∉ ps.map (fun p => (p.origin, p.transitions)) →
    ∀ p ∈ ps, compare (A.completeWeight c) p.weight ≠ .lt

omit [Ord W] [BEq W] [LawfulBEq W] in
theorem completeEntry_injective : Function.Injective A.completeEntry := by
  rintro ⟨s, ts⟩ ⟨q, us⟩ heq
  have horigin := congrArg PathWeight.origin heq
  have htrail := congrArg PathWeight.trail heq
  simp only [completeEntry, List.reverse_inj] at horigin htrail
  rw [Option.some.inj horigin, htrail]

omit [Ord W] in
theorem path?_completeEntry {c : S × List T} (hc : c ∈ A.livePaths) :
    A.path? (A.completeEntry c) = some ⟨c.1, c.2, A.labels c.2, A.completeWeight c⟩ := by
  have hweight : ¬ (A.completeWeight c == 0) = true := by simpa using hc.2
  unfold path? completeEntry PathWeight.transitions
  rw [if_neg hweight]
  simp

section Entries

variable {l : List (PathWeight S T W)} (hl : ∀ e ∈ l, e ∈ A.completeEntry '' A.livePaths)
include hl

omit [Ord W] in
theorem mem_filterMap_path? {p : Path L S T W} (hp : p ∈ l.filterMap A.path?) :
    ∃ c ∈ A.livePaths, A.completeEntry c ∈ l ∧
      p = ⟨c.1, c.2, A.labels c.2, A.completeWeight c⟩ := by
  obtain ⟨e, he, hp⟩ := List.mem_filterMap.1 hp
  obtain ⟨c, hc, rfl⟩ := hl e he
  rw [path?_completeEntry hc] at hp
  exact ⟨c, hc, he, (Option.some.inj hp).symm⟩

omit [Ord W] in
theorem length_filterMap_path? : (l.filterMap A.path?).length = l.length :=
  List.filterMap_length_eq_length.2 fun e he => by
    obtain ⟨c, hc, rfl⟩ := hl e he
    rw [path?_completeEntry hc, Option.isSome_some]

omit [Ord W] in
/-- What holds between the entries of complete paths holds between the paths they are read as. -/
theorem pairwise_filterMap_path? {r : PathWeight S T W → PathWeight S T W → Prop}
    {r' : Path L S T W → Path L S T W → Prop}
    (hr : ∀ c c', r (A.completeEntry c) (A.completeEntry c') →
      r' ⟨c.1, c.2, A.labels c.2, A.completeWeight c⟩
        ⟨c'.1, c'.2, A.labels c'.2, A.completeWeight c'⟩)
    (h : l.Pairwise r) : (l.filterMap A.path?).Pairwise r' := by
  refine List.pairwise_filterMap.2 (List.Pairwise.imp_of_mem ?_ h)
  intro e e' he he' hrel p hp p' hp'
  obtain ⟨c, hc, rfl⟩ := hl e he
  obtain ⟨c', hc', rfl⟩ := hl e' he'
  rw [path?_completeEntry hc] at hp
  rw [path?_completeEntry hc'] at hp'
  cases hp
  cases hp'
  exact hr c c' hrel

theorem rankedPaths_filterMap (h : Ranked k l) : A.RankedPaths k (l.filterMap A.path?) where
  length_le := by
    rw [length_filterMap_path? hl]
    exact h.length_le
  nodup := List.pairwise_map.2 (pairwise_filterMap_path? hl (fun c c' hne heq =>
    hne (congrArg A.completeEntry heq)) h.nodup)
  genuine p hp := by
    obtain ⟨c, hc, -, rfl⟩ := mem_filterMap_path? hl hp
    exact ⟨hc, rfl, rfl⟩
  sorted := pairwise_filterMap_path? hl (fun _ _ hle => precedes_iff.1 hle) h.sorted

end Entries

variable [BEq S] [BEq T] [Std.TransOrd W]

omit [BEq S] [BEq T] in
/-- The best entries of the complete paths, read as paths. -/
theorem bestPaths_filterMap {best : List (PathWeight S T W)}
    (h : Best k (A.completeEntry '' A.livePaths) best) :
    A.BestPaths k (best.filterMap A.path?) := by
  have hranked := rankedPaths_filterMap h.sound h.ranked
  refine ⟨?_, hranked.nodup, hranked.genuine, hranked.sorted, fun c hc hnot p hp => ?_⟩
  · rw [length_filterMap_path? h.sound, h.length_eq,
      Function.Injective.encard_image completeEntry_injective]
  · obtain ⟨c', hc', hmem, rfl⟩ := mem_filterMap_path? h.sound hp
    have hout : A.completeEntry c ∉ best := by
      intro hin
      refine hnot (List.mem_map.2 ⟨_, List.mem_filterMap.2 ⟨_, hin, path?_completeEntry hc⟩, rfl⟩)
    have hle := precedes_iff.1 (h.precedes_of_notMem ⟨c, hc, rfl⟩ hout _ hmem)
    exact Std.OrientedCmp.not_lt_of_isLE hle

variable [LawfulBEq S] [LawfulBEq T] [Hashable S] [Std.LawfulEqOrd W]
variable [Monad m] [LawfulMonad m] [StepLimited m]

variable (m) in
/-- For every queue, once the budget is large enough, the shortest paths are the best complete paths,
if the automaton is acyclic or its transitions never make a weight better. -/
theorem shortestPaths_best (A : Automaton Id L S T W) (hA : A.Lawful)
    (hfinite : {s | A.Reachable s}.Finite) (ho : Ordered W) (hn : A.NeverBetter) (hk : 1 ≤ k)
    (queue : Queue (KBest k S T W)) : ∃ ps, A.BestPaths k ps ∧ ∃ n, ∀ budget, n ≤ budget →
      (A.lift : Automaton m L S T W).shortestPaths budget k ⟨queue, .exact⟩ = pure ps := by
  have hlift := lift_answers_reachable m A
  obtain ⟨best, hbest, n, hrun⟩ := hlift.completeDistance_best hA ho hn hk queue hfinite
  refine ⟨best.entries.filterMap A.path?, bestPaths_filterMap hbest, n + 1, fun budget hbudget => ?_⟩
  unfold shortestPaths
  rw [if_neg (Nat.ne_of_gt hk), hrun budget hbudget, pure_bind]
  rfl

end Paths

/-- One state with two loops that cost nothing, so that no complete path is the last one. -/
def freeLoops : Automaton Id Unit Unit Bool BooleanWeight where
  initialStates := pure [()]
  outgoing _ := pure [false, true]
  initialWeight _ := pure 1
  finalWeight _ := pure 1
  weight _ := pure 1
  source _ := ()
  target _ := ()
  label _ := some ()

theorem shortestPaths_freeLoops : ∃ ps, freeLoops.BestPaths 3 ps ∧ ∃ n, ∀ budget, n ≤ budget →
    (freeLoops.lift : Automaton Option Unit Unit Bool BooleanWeight).shortestPaths budget 3
      ⟨.bestFirst compare, .exact⟩ = some ps :=
  shortestPaths_best Option freeLoops ⟨by decide, by decide, fun _ _ _ => rfl⟩ (Set.toFinite _)
    BooleanWeight.ordered (.inr fun _ _ _ _ a => BooleanWeight.compare_mul_isLE a 1) (by decide)
    (.bestFirst compare)

end WeightedAutomata.Automaton
