import WeightedAutomata.Proofs.Determinization.Finite
import WeightedAutomata.Proofs.Determinization.StringWeight
import WeightedAutomata.Proofs.Steady.Views
import WeightedAutomata.Proofs.Union.Weights
import WeightedAutomata.View.Strings

/-!
The acceptor of several strings: it is deterministic, its states form no cycle, and it counts how
often a string has been listed.
-/
namespace WeightedAutomata

variable {L S T W : Type}

namespace Automaton

theorem closing_one [Semiring W] [BEq S] [BEq W] (A : Automaton Id L S T W) (g : S → W) :
    A.closing (fun _ => 1) g = g := by
  funext s
  rw [closing, pathSum, Finset.sum_range_one]
  rfl

section Single

variable [Semiring W] (y : List L)

theorem acyclic_singleString : (singleString y : Automaton Id L ℕ ℕ W).Acyclic := by
  refine acyclic_of_lt (· < ·) lt_irrefl (fun _ _ _ _ => lt_trans) fun s _ t ht => ?_
  rw [leaving_singleString] at ht
  obtain ⟨-, rfl⟩ := (List.mem_ite_nil_right.1 ht).imp_right List.mem_singleton.1
  exact t.lt_succ_self

theorem lawful_singleString [Nontrivial W] : (singleString y : Automaton Id L ℕ ℕ W).Lawful where
  starts_nodup := List.nodup_singleton 0
  mem_starts s := by simp
  source_eq s t ht := by
    rw [leaving_singleString] at ht
    exact List.mem_singleton.1 (List.mem_ite_nil_right.1 ht).2

theorem finite_singleString : {s | (singleString y : Automaton Id L ℕ ℕ W).Reachable s}.Finite := by
  refine (Set.finite_Iic y.length).subset fun s hs => ?_
  exact (singleString_answers (m := Id) y).reachable hs

variable [BEq L] [LawfulBEq L] [BEq W]

/-- From a position on, the rest of the string is read, and nothing else. -/
theorem after_singleString (x : List L) {j : ℕ} (hj : j ≤ y.length) :
    (singleString y : Automaton Id L ℕ ℕ W).after (fun _ => 1)
      (singleString y : Automaton Id L ℕ ℕ W).exit x j = if y.drop j == x then 1 else 0 := by
  induction x generalizing j with
  | nil =>
    rw [after, exit_singleString]
    congr 1
    simp only [eq_iff_iff, beq_iff_eq, List.drop_eq_nil_iff]
    omega
  | cons a x ih =>
    rw [after, closing_one, onLabel, leaving_singleString]
    split
    · next hlt =>
      have hlabel : (y[j]? == some a) = (y[j] == a) := by simp [hlt]
      have hdrop : (y.drop j == a :: x) = (y[j] == a && y.drop (j + 1) == x) := by
        rw [List.drop_eq_getElem_cons hlt]
        rfl
      rw [List.map_singleton, List.sum_singleton, label_singleString, cost_singleString,
        target_singleString, ih hlt, one_mul, hlabel, hdrop]
      cases y[j] == a <;> rfl
    · next hnot =>
      rw [List.drop_eq_nil_of_le (by omega)]
      rfl

theorem stringTotal_singleString (x : List L) :
    (singleString y : Automaton Id L ℕ ℕ W).stringTotal (fun _ => 1) x =
      if y == x then 1 else 0 := by
  rw [stringTotal, closing_one, fromStarts, starts_singleString, List.map_singleton,
    List.sum_singleton, entry_singleString, if_pos rfl, one_mul,
    after_singleString y x (Nat.zero_le _), List.drop_zero]

end Single

section Family

variable {n : ℕ} {m : Type → Type} [Monad m] [LawfulMonad m]

theorem lift_tagAll {S : Fin n → Type} (query : (i : Fin n) → Id (List (S i))) :
    (pure (tagAll query).run : m (List (Tagged S))) = tagAll fun i => pure (query i).run := by
  have hrows (i : Fin n) : (pure (query i).run : m (List (S i))) = pure (query i).run := rfl
  rw [tagAll_eq_pure hrows]
  exact congrArg pure (tagAll_eq_pure (m := Id) fun _ => rfl)

theorem lift_union {S T : Fin n → Type} (A : (i : Fin n) → Automaton Id L (S i) (T i) W) :
    ((WeightedAutomata.union A).lift : Automaton m L (Tagged S) (Tagged T) W) =
      WeightedAutomata.union fun i => (A i).lift := by
  unfold WeightedAutomata.union lift hoist
  simp only [lift_tagAll, allSome?_map, Option.map_map, pure_bind]
  congr 2
  funext back
  simp only [Function.comp_apply, Backward.hoist, lift_tagAll, pure_bind]
  rfl

end Family

section Closures

variable {m : Type → Type} [Monad m] [LawfulMonad m] [StepLimited m] [Semiring W] [BEq W]
variable [LawfulBEq W] [BEq S] [LawfulBEq S] [Hashable S]

/-- Where one is zero, closures are empty. -/
theorem Answers.closes_of_subsingleton [Subsingleton W] {A : Automaton Id L S T W}
    {B : Automaton m L S T W} (h : B.Answers A A.Reachable) (closure : S → ℕ) {budget : ℕ}
    (hbudget : 0 < budget) : B.Closes A closure budget := by
  intro seeds _
  have hstarts : (A.epsilonPart seeds.collect).starts = [] := by
    rw [starts_epsilonPart, List.map_eq_nil_iff, List.filter_eq_nil_iff]
    exact fun e _ => by simp [Subsingleton.elim e.2 0]
  have hnone (s : S) : ¬(A.epsilonPart seeds.collect).Reachable s := fun hs => by
    obtain ⟨q, hq, -⟩ := hs.exists_path
    rw [hstarts] at hq
    cases hq
  have hnostart : ∀ s ∈ (A.epsilonPart seeds.collect).starts, A.Reachable s := by
    rw [hstarts]
    nofun
  have hpart := h.epsilonPart hnostart
  obtain ⟨states, -, hmem, hrun⟩ := hpart.states_eq (n := 0) fun l _ hl => by
    cases l with
    | nil => exact le_rfl
    | cons s l => exact absurd (hl s List.mem_cons_self) (hnone s)
  obtain rfl : states = [] := List.eq_nil_iff_forall_not_mem.2 fun s hs => hnone s ((hmem s).1 hs)
  obtain ⟨d, hd⟩ := hpart.exists_distancesFromInitial_of_subsingleton .default budget
  refine ⟨[], List.nodup_nil, nofun, fun g => Subsingleton.elim _ _, ?_⟩
  unfold epsilonClosure
  simp only [hd, hrun budget hbudget, pure_bind]
  rfl

end Closures

section Explorations

variable [BEq L] [LawfulBEq L] [BEq S] [LawfulBEq S] [Hashable S] [Semiring W] [BEq W]
variable [LawfulBEq W] [PartialInverse W] {A : Automaton Id L S T W} {closure : S → ℕ} {budget : ℕ}
variable {log : List (Query ℕ (SubsetTransition L W) × Answer ℕ (SubsetTransition L W) W)}
variable {μ ν : SubsetMemory L S W} (hinverse : LawfulInverse W) (hzero : ZeroSumFree W)
variable (hcloses : (A.lift : Automaton Option L S T W).Closes A closure budget)
include hinverse hzero hcloses

/-- Exploring a determinization keeps the meaning of its memory. -/
theorem Explored.remembers
    (h : ((A.lift : Automaton Option L S T W).determinize budget).Explored .empty log μ) :
    A.Remembers closure μ := by
  have hlift := lift_answers_reachable Option A
  induction h with
  | start => exact remembers_empty
  | @ask log μ ν q a before about run ih =>
    obtain ⟨r, ξ, hξ, -, -, hr⟩ := ih.startSubset_run hzero hlift hcloses
    cases q with
    | initialStates =>
      cases (run_bind_of_run (run_bind_of_run hr)).symm.trans run
      exact hξ
    | initialWeight i =>
      cases r <;> cases (run_bind_of_run (run_bind_of_run hr)).symm.trans run <;> exact hξ
    | outgoing i =>
      have hi := (before.surveyed hinverse).lt_size about
      obtain ⟨ts, ξ, hξ, -, -, hts⟩ := ih.outgoing_run hzero hlift hcloses hi
      cases (run_bind_of_run hts).symm.trans run
      exact hξ
    | finalWeight i =>
      cases (run_bind_of_run (ih.finalWeight_run hlift i)).symm.trans run
      exact ih
    | weight t =>
      cases run
      exact ih
    | finalStates => exact about.elim
    | incoming i => exact about.elim

end Explorations

section SideBySide

variable [Semiring W] (W) (strings : List (List L))

/-- The acceptors of the strings side by side, before what they have in common is merged. -/
def sideBySide : Automaton Id L (Tagged fun _ : Fin strings.length => ℕ)
    (Tagged fun _ : Fin strings.length => ℕ) W :=
  WeightedAutomata.union fun i => singleString (strings.get i)

theorem acyclic_sideBySide : (sideBySide W strings).Acyclic :=
  .union fun i => acyclic_singleString (strings.get i)

theorem finite_sideBySide : {s | (sideBySide W strings).Reachable s}.Finite :=
  finite_union fun i => finite_singleString (strings.get i)

theorem lift_sideBySide {m : Type → Type} [Monad m] [LawfulMonad m] :
    ((sideBySide W strings).lift : Automaton m L _ _ W) =
      WeightedAutomata.union fun i => singleString (strings.get i) := by
  rw [sideBySide, lift_union]
  rfl

variable [BEq L] [LawfulBEq L] [BEq W]

/-- A string is read once by each acceptor of it. -/
theorem stringTotal_sideBySide (x : List L) :
    (sideBySide W strings).stringTotal (fun _ => 1) x = (strings.count x : ℕ) := by
  rw [sideBySide, stringTotal_union]
  simp only [stringTotal_singleString, List.get_eq_getElem]
  rw [Fin.sum_univ_fun_getElem strings fun y => if y == x then (1 : W) else 0]
  induction strings with
  | nil => exact Nat.cast_zero.symm
  | cons y strings ih =>
    rw [List.map_cons, List.sum_cons, ih, List.count_cons, Nat.cast_add, add_comm]
    cases y == x <;> simp

omit [BEq L] [LawfulBEq L] in
/-- All transitions have labels. -/
theorem bounded_sideBySide : ((sideBySide W strings).epsilonPart []).Bounded
    (sideBySide W strings).Reachable fun _ => 1 where
  closed := closed_epsilonPart [] (closed_reachable _)
  sum_lt s _ := by
    have hleaving : ((sideBySide W strings).epsilonPart []).leaving s = [] := by
      refine List.filter_eq_nil_iff.2 fun t ht => ?_
      obtain ⟨j, hj, rfl⟩ := List.mem_map.1 ht
      obtain ⟨hlt, rfl⟩ := (List.mem_ite_nil_right.1 hj).imp_right List.mem_singleton.1
      change ¬((strings.get s.operand)[s.value]?).isNone
      rw [List.getElem?_eq_getElem hlt]
      exact nofun
    rw [hleaving]
    exact Nat.one_pos

variable [LawfulBEq W]

omit [BEq L] [LawfulBEq L] in
theorem exists_closes_sideBySide : ∃ n, ∀ budget, n ≤ budget →
    ((sideBySide W strings).lift : Automaton Option L _ _ W).Closes (sideBySide W strings)
      (fun _ => 1) budget := by
  have hlift := lift_answers_reachable Option (sideBySide W strings)
  rcases subsingleton_or_nontrivial W with hW | hW
  · exact ⟨1, fun budget hbudget => hlift.closes_of_subsingleton _ hbudget⟩
  · exact hlift.exists_closes (.union fun i => lawful_singleString (strings.get i))
      (finite_sideBySide W strings) (bounded_sideBySide W strings)

theorem arrival_sideBySide (u : List L) : (sideBySide W strings).startValue (fun _ => 1)
    ((sideBySide W strings).after (fun _ => 1) (fun _ => 1) u) =
      (sideBySide W strings).arrival u := by
  rcases subsingleton_or_nontrivial W with hW | hW
  · exact Subsingleton.elim _ _
  · exact (arrival_eq (.union fun i => lawful_singleString (strings.get i))
      (finite_sideBySide W strings)
      (fun s hs ts hne hpath _ => acyclic_sideBySide W strings s hs ts hne hpath)
      (bounded_sideBySide W strings) u).symm

end SideBySide

/-- For several strings there is a deterministic automaton with finitely many states, which form no
cycle. However it has been explored before, and however many strings are asked for, each has as many
times the weight one as it has been listed. For no strings there is no automaton. -/
theorem multipleStrings_counts [Semiring W] [BEq W] [LawfulBEq W] [PartialInverse W] [BEq L]
    [LawfulBEq L] (hinvert : ∀ a : W, a ≠ 0 → ∃ b, PartialInverse.inverse a = .ok b)
    (hinverse : ∀ a b : W, PartialInverse.inverse a = .ok b → a * b = 1) (hzero : ZeroSumFree W) :
    (∀ strings : List (List L), strings ≠ [] → ∃ n, ∀ inner, n ≤ inner →
      ∃ D : Automaton (Subsets Option L (Tagged fun _ : Fin strings.length => ℕ) W) L ℕ
          (SubsetTransition L W) W, multipleStrings inner strings = .ok D ∧
        D.Responds .empty ∧ {i | D.Reaches .empty i}.Finite ∧
        ∀ log μ, D.Explored .empty log μ →
          (∀ i ts, (.outgoing i, .transitions ts) ∈ log → (ts.map D.label).Nodup) ∧
          (∀ i, ¬Relation.TransGen (D.LeadsTo log) i i) ∧
          ∀ (queue : Queue W) (xs : List (List L)) (budget : ℕ),
            (∀ x ∈ xs, x.length + 2 < budget) →
              ∃ ν, (xs.mapM (D.stringWeight budget ⟨queue, .exact⟩)).run μ =
                some (xs.map fun x => ((strings.count x : ℕ) : W), ν)) ∧
    ∀ inner, (multipleStrings inner [] : Except BuildError (Automaton (Subsets Option L _ W) L ℕ
      (SubsetTransition L W) W)) = .error .emptyUnion := by
  refine ⟨fun strings hne => ?_, fun _ => rfl⟩
  have hinv : LawfulInverse W := lawfulInverse_of_semifield
    (fun a ha => (hinvert a ha).imp fun b hb => hinverse a b hb) hinverse
  have htraces := finite_traces (finite_sideBySide W strings) (acyclic_sideBySide W strings)
  obtain ⟨n, hn⟩ := exists_closes_sideBySide W strings
  refine ⟨n, fun inner hinner => ⟨(sideBySide W strings).lift.determinize inner, ?_, ?_, ?_, ?_⟩⟩
  · have hlength : strings.length ≠ 0 := fun h => hne (List.length_eq_zero_iff.1 h)
    rw [lift_sideBySide]
    unfold multipleStrings union?
    rw [if_neg hlength]
    rfl
  · exact responds_determinize hinv fun seeds hseeds => by
      obtain ⟨closed, -, -, -, hrun⟩ := hn inner hinner seeds hseeds
      exact ⟨closed, hrun⟩
  · exact (Set.finite_Iio _).subset (reaches_determinize_subset hinv htraces)
  · intro log μ hlog
    have hs := hlog.surveyed hinv
    refine ⟨fun i ts hts => ?_, hs.not_cycle htraces, fun queue xs budget hbudget => ?_⟩
    · obtain ⟨-, hsettled⟩ := hs.consistent.explored i ts (hs.explored i ts hts)
      have hlabels := hsettled.nodup_labels.map (Option.some_injective L)
      rwa [List.map_map] at hlabels
    · have hlift := lift_answers_reachable Option (sideBySide W strings)
      have hμ := hlog.remembers hinv hzero (hn inner hinner)
      obtain ⟨ws, ν, -, -, hrun, hall⟩ := hμ.stringWeights_run hinverse hzero hlift
        (hn inner hinner) (arrival_sideBySide W strings) queue hbudget
      have hcount : List.Forall₂ (fun x w => ((strings.count x : ℕ) : W) = w) xs ws :=
        hall.imp fun x w hw => by
          rw [hw.1 fun u c _ _ hne => hinvert _ hne]
          exact (stringTotal_sideBySide W strings x).symm
      rw [← List.forall₂_map_left_iff, List.forall₂_eq_eq_eq] at hcount
      exact ⟨ν, by rw [hrun, ← hcount]; rfl⟩

theorem multipleStrings_counts_repeated : ∃ n, ∀ inner, n ≤ inner →
    ∃ D : Automaton (Subsets Option Bool (Tagged fun _ : Fin 4 => ℕ) ℚ≥0) Bool ℕ
        (SubsetTransition Bool ℚ≥0) ℚ≥0,
      multipleStrings inner [[true, false], [true], [], [true, false]] = .ok D ∧
      {i | D.Reaches .empty i}.Finite ∧
      ∃ ν, ([[true, false], [], [false]].mapM (D.stringWeight 5 ⟨.fifo, .exact⟩)).run .empty =
        some ([2, 1, 0], ν) := by
  obtain ⟨hstrings, -⟩ := multipleStrings_counts (L := Bool) (W := ℚ≥0)
    (fun a ha => ⟨a⁻¹, if_neg ha⟩) (fun _ _ => inverse_nnrat) fun _ _ => add_eq_zero.1
  obtain ⟨n, hn⟩ := hstrings [[true, false], [true], [], [true, false]] nofun
  refine ⟨n, fun inner hinner => ?_⟩
  obtain ⟨D, hD, -, hfinite, hexplored⟩ := hn inner hinner
  obtain ⟨-, -, hcount⟩ := hexplored [] .empty .start
  exact ⟨D, hD, hfinite, hcount .fifo [[true, false], [], [false]] 5 (by decide)⟩

end Automaton

end WeightedAutomata
