import Mathlib.Data.Finite.Prod
import Mathlib.Order.Interval.Finset.Nat
import WeightedAutomata.Proofs.Paths.Complete
import WeightedAutomata.Proofs.Product.Paths
import WeightedAutomata.Proofs.Total

/-!
The weight of a string is the sum over the complete paths that read it. The product with the
acceptor of the string pairs a state with the position reached, and goes round in no cycle as long
as every cycle reads something.
-/
namespace WeightedAutomata.Automaton

open PairTransition

variable {L S T W : Type} [BEq L] [LawfulBEq L] [Semiring W] [BEq W]

/-- The product with the acceptor of one string. -/
abbrev reading {m : Type → Type} [Monad m] (A : Automaton m L S T W) (x : List L) :
    Automaton m L (PairState S ℕ) (PairTransition S ℕ T ℕ L) W :=
  product .acceptor A (singleString x)

/-- The value of `g` after a transition at position `j`, epsilon or with the label there. -/
def follow (A : Automaton Id L S T W) (x : List L) (g : PairState S ℕ → W) (j : ℕ) (t : T) : W :=
  match A.label t with
  | none => g ⟨A.target t, j, .free⟩
  | some a => if x[j]? == some a then g ⟨A.target t, j + 1, .free⟩ else 0

/-- The sum over the paths of the product from a pair of a state and a position. -/
def rest (A : Automaton Id L S T W) (x : List L) (size : PairState S ℕ → ℕ) (s : S) (j : ℕ) : W :=
  (A.reading x).pathSum (size ⟨s, j, .free⟩) (A.reading x).exit ⟨s, j, .free⟩

variable {A : Automaton Id L S T W} {x : List L}

omit [LawfulBEq L] in
theorem leaving_reading (s : S) (j : ℕ) : (A.reading x).leaving ⟨s, j, .free⟩ =
    (A.leaving s).filterMap (leftMove .acceptor A ⟨s, j, .free⟩) ++ (A.leaving s).flatMap fun t =>
      ((singleString x : Automaton Id L ℕ ℕ W).leaving j).filterMap
        (jointMove .acceptor A (singleString x) ⟨s, j, .free⟩ t) := by
  let B : Automaton Id L ℕ ℕ W := singleString x
  have hright : (B.leaving j).filterMap
      (rightMove .acceptor B (⟨s, j, .free⟩ : PairState S ℕ)) =
        ([] : List (PairTransition S ℕ T ℕ L)) := by
    simp only [B, leaving_singleString]
    split
    · next hj => simp [rightMove, hj, Pairing.acceptor, Move.attach?]
    · rfl
  change pairMoves .acceptor A B ⟨s, j, .free⟩ (A.leaving s) (B.leaving j) = _
  rw [pairMoves, if_pos rfl, hright, List.append_nil]

theorem onward_reading (g : PairState S ℕ → W) (s : S) (j : ℕ) :
    (A.reading x).onward g ⟨s, j, .free⟩ =
      ((A.leaving s).map fun t => A.cost t * A.follow x g j t).sum := by
  let B : Automaton Id L ℕ ℕ W := singleString x
  let p : PairState S ℕ := ⟨s, j, .free⟩
  let f (u : PairTransition S ℕ T ℕ L) : W :=
    (u.left.elim 1 A.cost * u.right.elim 1 B.cost) * g u.target
  have hleft (t : T) : (leftMove .acceptor A p t).elim 0 f =
      A.cost t * (A.label t).elim (g ⟨A.target t, j, .free⟩) fun _ => 0 := by
    unfold leftMove
    cases A.label t <;> simp [Pairing.acceptor, Move.attach?, f, p]
  have hjoint (t : T) : (((B.leaving j).filterMap (jointMove .acceptor A B p t)).map f).sum =
      A.cost t * (A.label t).elim 0 fun a =>
        if x[j]? == some a then g ⟨A.target t, j + 1, .free⟩ else 0 := by
    simp only [B, leaving_singleString]
    split
    · next hj =>
      unfold jointMove
      cases ha : A.label t with
      | none => simp [Pairing.acceptor, Move.attach?]
      | some a =>
        by_cases heq : a = x[j]
        · simp [hj, heq, Pairing.acceptor, Move.attach?, f, B]
        · simp [hj, heq, Ne.symm heq, Pairing.acceptor, Move.attach?]
    · next hj =>
      have hnone : x[j]? = none := List.getElem?_eq_none (Nat.le_of_not_lt hj)
      cases A.label t <;> simp [hnone]
  change (((A.reading x).leaving p).map f).sum = _
  rw [leaving_reading, List.map_append, List.sum_append, sum_map_filterMap, sum_map_flatMap,
    ← List.sum_map_add]
  congr 1
  apply List.map_congr_left
  intro t _
  rw [hleft, hjoint, ← mul_add, follow]
  cases A.label t <;> simp

omit [BEq L] [LawfulBEq L] [Semiring W] [BEq W] in
theorem labels_cons (t : T) (ts : List T) :
    A.labels (t :: ts) = (A.label t).elim (A.labels ts) (· :: A.labels ts) := by
  unfold labels
  rw [List.filterMap_cons]
  cases A.label t <;> rfl

open scoped Classical in
/-- From position `j` on, the sum over the paths of the product is the one over the paths of the
operand that read the rest of the string. -/
theorem pathSum_reading (n : ℕ) (s : S) {j : ℕ} (hj : j ≤ x.length) :
    (A.reading x).pathSum n (A.reading x).exit ⟨s, j, .free⟩ =
      ((A.paths n s).map fun ts =>
        if A.labels ts = x.drop j then A.pathCost ts * A.exit (A.endpoint s ts) else 0).sum := by
  induction n generalizing s j with
  | zero => rw [pathSum_zero, paths, List.map_nil, List.sum_nil]
  | succ n ih =>
    have hend : (A.reading x).exit ⟨s, j, .free⟩ =
        if A.labels [] = x.drop j then A.pathCost [] * A.exit (A.endpoint s []) else 0 := by
      have hdrop : [] = x.drop j ↔ j = x.length := by
        rw [eq_comm, List.drop_eq_nil_iff]
        omega
      simp [hdrop]
    have hstep (t : T) : A.cost t * A.follow x ((A.reading x).pathSum n (A.reading x).exit) j t =
        ((A.paths n (A.target t)).map fun ts => if A.labels (t :: ts) = x.drop j then
          A.pathCost (t :: ts) * A.exit (A.endpoint s (t :: ts)) else 0).sum := by
      rw [follow]
      cases ha : A.label t with
      | none =>
        dsimp only
        rw [ih _ hj, ← List.sum_map_mul_left]
        congr 1
        apply List.map_congr_left
        intro ts _
        simp [labels_cons, ha, mul_assoc]
      | some a =>
        dsimp only
        split
        · next heq =>
          obtain ⟨hlt, hget⟩ := List.getElem?_eq_some_iff.1 (eq_of_beq heq)
          rw [ih _ hlt, ← List.sum_map_mul_left]
          congr 1
          apply List.map_congr_left
          intro ts _
          simp [labels_cons, ha, mul_assoc, List.drop_eq_getElem_cons hlt, hget]
        · next hne =>
          have hzero : ∀ ts, ¬ A.labels (t :: ts) = x.drop j := by
            intro ts h
            have hget : x[j]? = some a := by
              rw [← List.head?_drop, ← h, labels_cons, ha]
              rfl
            exact hne (by simp [hget])
          simp [hzero]
    rw [pathSum_succ, onward_reading, hend, paths, List.map_cons, List.sum_cons, sum_map_flatMap]
    congr 2
    apply List.map_congr_left
    intro t _
    rw [hstep, List.map_map]
    rfl

section SingleString

omit [BEq L] [LawfulBEq L] [BEq W]

theorem endpoint_singleString {j : ℕ} {ts : List ℕ}
    (h : (singleString x : Automaton Id L ℕ ℕ W).IsPath j ts) :
    (singleString x : Automaton Id L ℕ ℕ W).endpoint j ts = j + ts.length := by
  induction ts generalizing j with
  | nil => rfl
  | cons t ts ih =>
    obtain ⟨ht, hts⟩ := h
    have heq : t = j := by simp at ht; exact ht.2
    rw [endpoint_cons, ih hts, heq, target_singleString, List.length_cons]
    omega

variable (x) in
/-- The rest of the string can be read from each of its positions. -/
theorem exists_path_singleString {j : ℕ} (hj : j ≤ x.length) :
    ∃ ts, (singleString x : Automaton Id L ℕ ℕ W).IsPath j ts ∧
      (singleString x : Automaton Id L ℕ ℕ W).labels ts = x.drop j := by
  induction hn : x.length - j generalizing j with
  | zero =>
    refine ⟨[], trivial, ?_⟩
    rw [List.drop_eq_nil_of_le (by omega), labels_nil]
  | succ n ih =>
    have hlt : j < x.length := by omega
    obtain ⟨ts, hts, hlabels⟩ := ih hlt (by omega)
    refine ⟨j :: ts, ⟨by simp [hlt], hts⟩, ?_⟩
    rw [labels_cons, label_singleString, List.getElem?_eq_getElem hlt, hlabels,
      List.drop_eq_getElem_cons hlt, Option.elim_some]

end SingleString

section Reachable

theorem closed_reading : (A.reading x).Closed fun p =>
    A.Reachable p.left ∧ p.right ≤ x.length ∧ p.filter = .free := by
  intro p ⟨hl, hr, _⟩ u hu
  rcases (mem_leaving_product Pairing.acceptor_keyed).1 hu with
    ⟨t, ht, _, _, rfl⟩ | ⟨t, ht, hnone, rfl⟩ | ⟨t₁, h₁, t₂, h₂, _, rfl⟩
  · exact ⟨hl.step ht, hr, rfl⟩
  · simp only [leaving_singleString, List.mem_ite_nil_right, List.mem_singleton] at ht
    simp [ht.2, ht.1] at hnone
  · simp only [leaving_singleString, List.mem_ite_nil_right, List.mem_singleton] at h₂
    exact ⟨hl.step h₁, by rw [h₂.2]; exact h₂.1, rfl⟩

variable [LawfulBEq W]

theorem reachable_reading {p : PairState S ℕ} (h : (A.reading x).Reachable p) :
    A.Reachable p.left ∧ p.right ≤ x.length ∧ p.filter = .free := by
  induction h with
  | start hs =>
    obtain ⟨hl, hr, _, hf⟩ := mem_starts_product.1 hs
    rw [starts_singleString, List.mem_singleton] at hr
    exact ⟨.start hl, by simp [hr], hf⟩
  | step _ ht ih => exact closed_reading _ ih _ ht

theorem finite_reading (hf : {s | A.Reachable s}.Finite) :
    {p | (A.reading x).Reachable p}.Finite := by
  refine ((hf.prod (Set.finite_Iic x.length)).image fun e =>
    (⟨e.1, e.2, .free⟩ : PairState S ℕ)).subset fun p hp => ?_
  obtain ⟨hl, hr, hfree⟩ := reachable_reading hp
  exact ⟨(p.left, p.right), ⟨hl, hr⟩, by rw [← hfree]⟩

/-- A cycle of the product would be a cycle of the operand that reads nothing. -/
theorem acyclic_reading (hA : A.EpsilonAcyclic) : (A.reading x).Acyclic := by
  intro p hp path hne hpath hcycle
  obtain ⟨hl, hr, hkeys⟩ := sides_of_isPath Pairing.acceptor_keyed hpath
  obtain ⟨hleft, hright⟩ := endpoint_sides Pairing.acceptor_keyed hpath
  have hrights : rights path = [] := by
    have hlen : p.right + (rights path).length = p.right := by
      rw [← endpoint_singleString hr, ← hright]
      exact congrArg PairState.right hcycle
    exact List.length_eq_zero_iff.1 (by omega)
  have hlabels : A.labels (lefts path) = [] := by
    rw [hrights] at hkeys
    exact hkeys
  have hlefts : lefts path ≠ [] := fun hnil =>
    hne (eq_nil_of_sides Pairing.acceptor_keyed hpath hnil hrights)
  apply hA p.left (reachable_reading hp).1 (lefts path) hlefts hl hlabels
  rw [← hleft]
  exact congrArg PairState.left hcycle

theorem exists_bounded_reading (hfinite : {s | A.Reachable s}.Finite) (hepsilon : A.EpsilonAcyclic)
    (x : List L) : ∃ size, (A.reading x).Bounded (A.reading x).Reachable size :=
  exists_bounded (A.reading x).closed_reachable (finite_reading hfinite) (acyclic_reading hepsilon)

omit [LawfulBEq L] in
theorem starts_reading (hA : A.Lawful) :
    (A.reading x).starts = A.starts.map fun s => ⟨s, 0, .free⟩ := by
  have hstart (s : S) (hs : s ∈ A.starts) : ¬ (A.entry s * 1 == (0 : W)) = true := by
    simpa using (hA.mem_starts s).1 hs
  rw [starts_product, ← List.flatMap_pure_eq_map]
  apply List.flatMap_congr
  intro s hs
  rw [starts_singleString, List.filterMap_cons, entry_singleString, if_pos rfl,
    if_neg (hstart s hs)]
  rfl

omit [LawfulBEq L] in
theorem lawful_reading (hA : A.Lawful) : (A.reading x).Lawful := by
  refine hA.product (List.nodup_singleton 0) fun j hj => ?_
  rw [entry_singleString] at hj
  rw [starts_singleString, List.mem_singleton]
  by_contra hne
  exact hj (if_neg hne)

end Reachable

variable [LawfulBEq W] [BEq S] [LawfulBEq S] [Hashable S] {m : Type → Type} [Monad m]
variable [LawfulMonad m] [StepLimited m]

omit [LawfulBEq L] in
theorem Answers.stringWeight_eq {B : Automaton m L S T W} {R : S → Prop} (h : B.Answers A R)
    (hA : A.Lawful) {size : PairState S ℕ → ℕ}
    (hb : (A.reading x).Bounded (A.reading x).Reachable size) (queue : Queue W) {budget : ℕ}
    (hsize : (A.starts.map fun s => size ⟨s, 0, .free⟩).sum + 1 < budget) :
    B.stringWeight budget ⟨queue, .exact⟩ x =
      pure (A.starts.map fun s => A.entry s * A.rest x size s 0).sum := by
  have hstarts := starts_reading (x := x) hA
  have hentry (s : S) : (A.reading x).entry ⟨s, 0, .free⟩ = A.entry s := by
    simp [entry_product]
  have hanswers : (B.reading x).Answers (A.reading x) fun s => R s.left ∧ s.right ≤ x.length :=
    h.product (singleString_answers x)
  have hrun := hanswers.completeDistance_eq (lawful_reading hA) hb queue
    (by rwa [hstarts, List.map_map])
  apply hrun.trans
  rw [hstarts, List.map_map]
  simp only [Function.comp_def, hentry]
  rfl

omit [BEq S] [LawfulBEq S] [Hashable S] in
/-- The complete paths that read a string, summed start by start. -/
theorem finsum_completePaths_reading (hA : A.Lawful) {size : PairState S ℕ → ℕ}
    (hb : (A.reading x).Bounded (A.reading x).Reachable size) :
    {c ∈ A.numbered.completePaths | A.numbered.labels c.2 = x}.Finite ∧
      ∑ᶠ c ∈ {c ∈ A.numbered.completePaths | A.numbered.labels c.2 = x},
        A.numbered.completeWeight c = (A.starts.map fun s => A.entry s * A.rest x size s 0).sum := by
  classical
  let bound (s : S) : ℕ := size ⟨s, 0, .free⟩
  have hshort (s : S) (hs : s ∈ A.numbered.starts) (ts : List (T × ℕ))
      (hts : A.numbered.IsPath s ts) (hlabels : A.numbered.labels ts = x) :
      ts.length < bound s := by
    obtain ⟨us, hus, hread⟩ := exists_path_singleString (W := W) x (Nat.zero_le x.length)
    rw [labels_numbered] at hlabels
    obtain ⟨path, hpath, hlefts, -⟩ := exists_interleaving Pairing.acceptor_keyed
      (s := (⟨s, 0, .free⟩ : PairState S ℕ)) (isPath_map_fst hts) hus (hlabels.trans hread.symm) nofun
    have hlen : ts.length ≤ path.length := by
      rw [← List.length_map (f := Prod.fst), ← hlefts]
      exact List.length_filterMap_le _ _
    have hreach : (A.reading x).Reachable ⟨s, 0, .free⟩ := by
      refine .start ?_
      rw [starts_reading hA]
      exact List.mem_map.2 ⟨s, hs, rfl⟩
    exact lt_of_le_of_lt hlen (hb.length_lt hreach hpath)
  obtain ⟨hfin, hsum⟩ := finsum_completePaths (A := A.numbered) hA.starts_nodup
    nodup_leaving_numbered (fun ts => A.numbered.labels ts = x) bound hshort
  refine ⟨hfin, hsum.trans ?_⟩
  congr 1
  apply List.map_congr_left
  intro s _
  rw [rest, pathSum_reading _ _ (Nat.zero_le _), ← map_fst_paths_numbered (A := A), List.map_map]
  simp only [labels_numbered, endpoint_numbered, pathCost_numbered, List.drop_zero,
    Function.comp_def]
  rfl

variable (m) in
/-- For every queue, once the budget is large enough, the weight of a string is the sum over the
complete paths that read it. Parallel equal transitions make different paths. -/
theorem stringWeight_eq_finsum (A : Automaton Id L S T W) (hA : A.Lawful)
    (hfinite : {s | A.Reachable s}.Finite) (hepsilon : A.EpsilonAcyclic) (queue : Queue W)
    (x : List L) :
    {c ∈ A.numbered.completePaths | A.numbered.labels c.2 = x}.Finite ∧
      ∃ n, ∀ budget, n ≤ budget → (A.lift : Automaton m L S T W).stringWeight budget
        ⟨queue, .exact⟩ x = pure (∑ᶠ c ∈ {c ∈ A.numbered.completePaths |
          A.numbered.labels c.2 = x}, A.numbered.completeWeight c) := by
  obtain ⟨size, hb⟩ := exists_bounded_reading hfinite hepsilon x
  obtain ⟨hfin, hsum⟩ := finsum_completePaths_reading hA hb
  have hlift := lift_answers_reachable m A
  refine ⟨hfin, (A.starts.map fun s => size ⟨s, 0, .free⟩).sum + 2, fun budget hbudget => ?_⟩
  rw [hsum]
  exact hlift.stringWeight_eq hA hb queue (by omega)

/-- One state with two parallel loops that read the same label. -/
def twoLoops : Automaton Id Unit Unit Bool ℕ where
  initialStates := pure [()]
  outgoing _ := pure [false, true]
  initialWeight _ := pure 1
  finalWeight _ := pure 1
  weight t := pure (if t then 3 else 2)
  source _ := ()
  target _ := ()
  label _ := some ()

theorem stringWeight_twoLoops : ∃ n, ∀ budget, n ≤ budget →
    (twoLoops.lift : Automaton Option Unit Unit Bool ℕ).stringWeight budget ⟨.fifo, .exact⟩
      [(), ()] = some (∑ᶠ c ∈ {c ∈ twoLoops.numbered.completePaths |
        twoLoops.numbered.labels c.2 = [(), ()]}, twoLoops.numbered.completeWeight c) := by
  refine (stringWeight_eq_finsum Option twoLoops ⟨by decide, by decide, fun _ _ _ => rfl⟩
    (Set.toFinite _) ?_ .fifo [(), ()]).2
  intro s _ ts hne _ hlabels
  cases ts with
  | nil => exact absurd rfl hne
  | cons t ts => cases hlabels

end WeightedAutomata.Automaton
