import WeightedAutomata.Proofs.Determinization.Closing

/-!
What the closure of weighted seeds is: each state with its sum over the seeds and the paths without
labels from them, as long as that sum is not zero.
-/
namespace WeightedAutomata

open scoped BigOperators

variable {L S T W : Type}

namespace Automaton

open WeightedStates

section Definitions

variable (A : Automaton Id L S T W)

/-- The paths without labels from `p` to `q`. -/
def silentPaths (p q : S) : Set (List T) :=
  {ts | A.IsPath p ts ∧ A.labels ts = [] ∧ A.endpoint p ts = q}

/-- The sum over the seeds and the paths without labels from them to `q`, of the seed's weight times
the weights along the path. Parallel equal transitions make different paths. -/
noncomputable def closureWeight [Semiring W] (seeds : WeightedStates S W) (q : S) : W :=
  (seeds.map fun e => ∑ᶠ ts ∈ A.numbered.silentPaths e.1 q, e.2 * A.numbered.pathCost ts).sum

/-- The automaton without its labeled transitions. -/
def unlabeled : Automaton Id L S T W :=
  { A with outgoing := fun s => pure ((A.leaving s).filter fun t => (A.label t).isNone) }

/-- The states with a sum other than zero are listed, each once and with its sum. -/
structure IsClosure [Semiring W] (seeds closed : WeightedStates S W) : Prop where
  nodup : (closed.map Prod.fst).Nodup
  mem_iff : ∀ q, q ∈ closed.map Prod.fst ↔ A.closureWeight seeds q ≠ 0
  weight_eq : ∀ e ∈ closed, e.2 = A.closureWeight seeds e.1

end Definitions

variable {A : Automaton Id L S T W}

section Paths

variable [BEq S] [Semiring W] [BEq W] {seeds : WeightedStates S W}

theorem isPath_epsilonPart {s : S} {ts : List T} :
    (A.epsilonPart seeds).IsPath s ts ↔ A.IsPath s ts ∧ A.labels ts = [] := by
  refine ⟨isPath_of_epsilonPart, ?_⟩
  induction ts generalizing s with
  | nil => exact fun _ => trivial
  | cons t ts ih =>
    rintro ⟨⟨ht, hpath⟩, hlabels⟩
    rw [labels, List.filterMap_eq_nil_iff, List.forall_mem_cons] at hlabels
    refine ⟨List.mem_filter.2 ⟨ht, ?_⟩, ih ⟨hpath, ?_⟩⟩
    · rw [hlabels.1]
      rfl
    · exact List.filterMap_eq_nil_iff.2 hlabels.2

theorem leaving_epsilonPart_numbered (s : S) : (A.epsilonPart seeds).leaving s =
    ((A.numbered.epsilonPart seeds).leaving s).map Prod.fst := by
  have hleaving : A.leaving s = (A.numbered.leaving s).map Prod.fst :=
    (List.zipIdx_map_fst 0 (A.leaving s)).symm
  rw [leaving_epsilonPart, leaving_epsilonPart, hleaving, List.filter_map]
  rfl

theorem pathSum_epsilonPart_numbered (n : ℕ) (g : S → W) (s : S) :
    (A.numbered.epsilonPart seeds).pathSum n g s = (A.epsilonPart seeds).pathSum n g s := by
  have honward : (A.numbered.epsilonPart seeds).onward = (A.epsilonPart seeds).onward := by
    funext g s
    rw [onward, onward, leaving_epsilonPart_numbered (A := A), List.map_map]
    rfl
  rw [pathSum, pathSum, honward]

/-- The paths without labels from a state where they are bounded, and their sum. -/
theorem finsum_silentPaths {R : S → Prop} {size : S → ℕ}
    (hb : (A.epsilonPart []).Bounded R size) {p : S} (hp : R p) (q : S) :
    (A.numbered.silentPaths p q).Finite ∧ ∀ w,
      ∑ᶠ ts ∈ A.numbered.silentPaths p q, w * A.numbered.pathCost ts =
        w * A.closing size (indicator q) p := by
  classical
  -- the transitions keep the numbers that they have among all transitions, labeled or not
  let part := A.numbered.epsilonPart []
  let paths := (part.paths (size p) p).filter fun ts => decide (part.endpoint p ts = q)
  have hleaving (s : S) : (part.leaving s).Nodup := (nodup_leaving_numbered s).filter _
  have hnodup : paths.Nodup := (nodup_paths hleaving _ p).filter _
  have hmem (ts : List (T × ℕ)) : ts ∈ paths ↔ ts ∈ A.numbered.silentPaths p q := by
    rw [List.mem_filter, mem_paths, isPath_epsilonPart, decide_eq_true_iff]
    constructor
    · rintro ⟨⟨⟨hpath, hlabels⟩, -⟩, hend⟩
      exact ⟨hpath, hlabels, hend⟩
    · rintro ⟨hpath, hlabels, hend⟩
      refine ⟨⟨⟨hpath, hlabels⟩, ?_⟩, hend⟩
      rw [labels_numbered] at hlabels
      rw [← List.length_map (f := Prod.fst)]
      exact hb.length_lt hp (isPath_epsilonPart.2 ⟨isPath_map_fst hpath, hlabels⟩)
  refine ⟨(finsum_mem_eq_sum hnodup hmem (fun _ => (0 : W))).1, fun w => ?_⟩
  rw [(finsum_mem_eq_sum hnodup hmem _).2, List.sum_map_mul_left, closing,
    ← pathSum_epsilonPart_numbered, ← sum_paths_eq_pathSum, sum_map_filter]
  congr 2
  apply List.map_congr_left
  intro ts _
  by_cases hend : part.endpoint p ts = q
  · rw [hend, indicator_self, mul_one, if_pos (decide_eq_true rfl)]
    rfl
  · rw [indicator_of_ne hend, mul_zero, if_neg (by simpa using hend)]

theorem closureWeight_eq {R : S → Prop} {size : S → ℕ} (hb : (A.epsilonPart []).Bounded R size)
    (hseeds : ∀ e ∈ seeds, R e.1) (q : S) :
    A.closureWeight seeds q = weigh seeds (A.closing size (indicator q)) := by
  rw [closureWeight, weigh]
  congr 1
  exact List.map_congr_left fun e he => (finsum_silentPaths hb (hseeds e he) q).2 e.2

end Paths

/-- Without zeros and repetitions, weighted states with the sums of a closure are the closure. -/
theorem isClosure_of_weigh [Semiring W] {seeds closed : WeightedStates S W}
    (hnodup : (closed.map Prod.fst).Nodup) (hne : ∀ e ∈ closed, e.2 ≠ 0)
    (hsum : ∀ q, weigh closed (indicator q) = A.closureWeight seeds q) :
    A.IsClosure seeds closed where
  nodup := hnodup
  mem_iff q := by
    rw [← hsum]
    constructor
    · intro hq
      obtain ⟨e, he, rfl⟩ := List.mem_map.1 hq
      rw [weigh_indicator_of_mem hnodup he]
      exact hne e he
    · intro hzero
      by_contra hq
      exact hzero (weigh_indicator_of_notMem hq)
  weight_eq e he := by
    rw [← hsum, weigh_indicator_of_mem hnodup he]

section Runs

variable {m : Type → Type} [Monad m] [LawfulMonad m] [BEq S] [Semiring W] [BEq W]

theorem epsilonPart_unlabeled (seeds : WeightedStates S W) :
    (A.unlabeled.lift : Automaton m L S T W).epsilonPart seeds = A.lift.epsilonPart seeds := by
  have houtgoing : ((A.unlabeled.lift : Automaton m L S T W).epsilonPart seeds).outgoing =
      ((A.lift : Automaton m L S T W).epsilonPart seeds).outgoing := by
    funext s
    change (pure ((A.leaving s).filter _) >>= fun ts => pure (ts.filter _)) =
      (pure (A.leaving s) >>= fun ts => pure (ts.filter _) : m (List T))
    rw [pure_bind, pure_bind, List.filter_filter]
    simp only [lift, hoist, unlabeled, Bool.and_self]
  exact congrArg (fun outgoing => { A.lift.epsilonPart seeds with outgoing }) houtgoing

variable [StepLimited m] [LawfulBEq S] [Hashable S] [LawfulBEq W]

variable (m) in
/-- Once the budget is large enough for the states `R` of an automaton, the closure of any weighted
seeds among them lists the states whose sum over the seeds and the paths without labels from them is
not zero, each once and with that sum. There are finitely many such paths, the labeled transitions
could as well be absent, and seeds in another order have the same closure, in another order. -/
theorem epsilonClosure_isClosure (A : Automaton Id L S T W) (hA : A.Lawful) (R : S → Prop)
    (hstarts : ∀ s ∈ A.starts, R s) (hclosed : A.Closed R) (hfinite : {s | R s}.Finite)
    (hepsilon : ∀ s, R s → ∀ ts, ts ≠ [] → A.IsPath s ts → A.labels ts = [] →
      A.endpoint s ts ≠ s) :
    (∀ p, R p → ∀ q, (A.numbered.silentPaths p q).Finite) ∧
    (∀ budget seeds, (A.lift : Automaton m L S T W).epsilonClosure budget seeds =
      (A.unlabeled.lift : Automaton m L S T W).epsilonClosure budget seeds) ∧
    ∃ (n : ℕ) (close : WeightedStates S W → WeightedStates S W),
      ∀ seeds : WeightedStates S W, (∀ e ∈ seeds, R e.1) →
        (∀ budget, n ≤ budget →
          (A.lift : Automaton m L S T W).epsilonClosure budget seeds = pure (close seeds)) ∧
        A.IsClosure seeds (close seeds) ∧
        ∀ seeds', seeds'.Perm seeds → (close seeds').Perm (close seeds) := by
  obtain ⟨size, hb⟩ := hclosed.exists_bounded_epsilonPart hfinite hepsilon
  have hlift : (A.lift : Automaton m L S T W).Answers A R := lift_answers A hclosed hstarts
  obtain ⟨n, hn⟩ := hlift.exists_epsilonClosure_eq hA hfinite hb
  choose! close hnodup hkept hsum hrun using hn
  have hne (seeds : WeightedStates S W) (hseeds : ∀ e ∈ seeds, R e.1) :
      ∀ e ∈ close seeds, e.2 ≠ 0 := fun e he => (hkept seeds hseeds e he).2
  refine ⟨fun p hp q => (finsum_silentPaths hb hp q).1, fun budget seeds => ?_, n, close,
    fun seeds hseeds => ⟨hrun seeds hseeds, ?_, fun seeds' hperm => ?_⟩⟩
  · rw [epsilonClosure, epsilonClosure, epsilonPart_unlabeled]
  · refine isClosure_of_weigh (hnodup seeds hseeds) (hne seeds hseeds) fun q => ?_
    rw [hsum seeds hseeds, closureWeight_eq hb hseeds]
  · have hseeds' : ∀ e ∈ seeds', R e.1 := fun e he => hseeds e (hperm.mem_iff.1 he)
    refine perm_of_weigh (hnodup seeds' hseeds') (hnodup seeds hseeds) (hne seeds' hseeds')
      (hne seeds hseeds) fun g => ?_
    rw [hsum seeds' hseeds', hsum seeds hseeds, weigh_perm _ hperm]

/-- From the first state two parallel transitions lead to the second and a labeled one to the fourth,
and from both of these a transition leads to the third. -/
def relay : Automaton Id Unit ℕ (ℕ × ℕ) ℤ where
  initialStates := pure [0]
  outgoing s := pure (match s with
    | 0 => [(0, 1), (0, 1), (0, 3)]
    | 1 => [(1, 2)]
    | 3 => [(3, 2)]
    | _ => [])
  initialWeight s := pure (if s = 0 then 1 else 0)
  finalWeight s := pure (if s = 2 then 1 else 0)
  weight t := pure (if t = (0, 1) then 2 else 3)
  source := Prod.fst
  target := Prod.snd
  label t := if t = (0, 3) then some () else none

/-- The first state comes up twice, and what the fourth has cancels. -/
def relaySeeds : WeightedStates ℕ ℤ := [(0, 1), (3, 5), (1, -4), (0, 1), (2, 0), (3, -5)]

theorem epsilonClosure_relay :
    relay.Lawful ∧ (∀ s ∈ relay.starts, s < 4) ∧ relay.Closed (· < 4) ∧ {s | s < 4}.Finite ∧
    (∀ s < 4, ∀ ts, ts ≠ [] → relay.IsPath s ts → relay.labels ts = [] →
      relay.endpoint s ts ≠ s) ∧
    (∀ p < 4, ∀ q, (relay.numbered.silentPaths p q).Finite) ∧
    (∀ budget seeds, (relay.lift : Automaton Option _ _ _ _).epsilonClosure budget seeds =
      (relay.unlabeled.lift : Automaton Option _ _ _ _).epsilonClosure budget seeds) ∧
    ∃ (n : ℕ) (close : WeightedStates ℕ ℤ → WeightedStates ℕ ℤ),
      (∀ e ∈ relaySeeds, e.1 < 4) ∧
      (∀ budget, n ≤ budget → (relay.lift : Automaton Option _ _ _ _).epsilonClosure budget
        relaySeeds = some (close relaySeeds)) ∧
      relay.IsClosure relaySeeds (close relaySeeds) ∧
      (close relaySeeds.reverse).Perm (close relaySeeds) := by
  have hsource : ∀ s < 4, ∀ t ∈ relay.leaving s, relay.source t = s := by decide
  have hlawful : relay.Lawful := by
    refine ⟨by decide, fun s => ?_, fun s t ht => ?_⟩
    · simp [relay, starts, entry]
    · rcases Nat.lt_or_ge s 4 with hs | hs
      · exact hsource s hs t ht
      · obtain ⟨k, rfl⟩ := Nat.exists_eq_add_of_le' hs
        cases ht
  have hstarts : ∀ s ∈ relay.starts, s < 4 := by decide
  have hb : relay.Bounded (· < 4) fun s => if s = 0 then 7 else if s = 2 then 1 else 2 :=
    ⟨by unfold Closed; decide, by decide⟩
  have hfinite : {s | s < 4}.Finite := Set.finite_lt_nat 4
  have hepsilon : ∀ s < 4, ∀ ts, ts ≠ [] → relay.IsPath s ts → relay.labels ts = [] →
      relay.endpoint s ts ≠ s := fun s hs ts hne hpath _ => hb.endpoint_ne hs hne hpath
  have hseeds : ∀ e ∈ relaySeeds, e.1 < 4 := by decide
  obtain ⟨hpaths, hunlabeled, n, close, hclose⟩ := epsilonClosure_isClosure Option relay hlawful
    (· < 4) hstarts hb.closed hfinite hepsilon
  obtain ⟨hrun, hclosure, hperm⟩ := hclose relaySeeds hseeds
  exact ⟨hlawful, hstarts, hb.closed, hfinite, hepsilon, hpaths, hunlabeled, n, close, hseeds, hrun,
    hclosure, hperm _ (List.reverse_perm _)⟩

end Runs

end Automaton

end WeightedAutomata
