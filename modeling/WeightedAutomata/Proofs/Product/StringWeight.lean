import WeightedAutomata.Proofs.Determinization.Readings

/-!
The weight of a string in an intersection. A sum over the paths of the product that read one label
factors into sums over the paths of the operands, and so does every sum that is put together from
these.
-/
namespace WeightedAutomata.Automaton

open PairTransition

variable {L S₁ S₂ T₁ T₂ W : Type}

/-- A sum over the moves of a product, by the sides that take part. -/
theorem sum_pairMoves [AddCommMonoid W] {L₁ L₂ : Type} (pairing : Pairing L₁ L₂ L)
    (A : Automaton Id L₁ S₁ T₁ W) (B : Automaton Id L₂ S₂ T₂ W) (s : PairState S₁ S₂)
    (lefts : List T₁) (rights : List T₂) (f : PairTransition S₁ S₂ T₁ T₂ L → W) :
    ((pairMoves pairing A B s lefts rights).map f).sum =
      (if s.filter = .free then (lefts.map fun t => (leftMove pairing A s t).elim 0 f).sum else 0) +
        (rights.map fun u => (rightMove pairing B s u).elim 0 f).sum +
        (lefts.map fun t =>
          (rights.map fun u => (jointMove pairing A B s t u).elim 0 f).sum).sum := by
  simp only [pairMoves, List.map_append, List.sum_append, sum_map_filterMap, sum_map_flatMap]
  congr 2
  split
  · exact sum_map_filterMap _ _ _
  · rfl

variable [BEq L] [LawfulBEq L] [BEq W]

section Moves

variable [Semiring W] (A : Automaton Id L S₁ T₁ W) (B : Automaton Id L S₂ T₂ W)

omit [LawfulBEq L] in
theorem onLabel_intersection (l : Option L) (F : PairState S₁ S₂ → W) (s : PairState S₁ S₂) :
    (A.intersection B).onLabel l F s =
      ((pairMoves .acceptor A B s (A.leaving s.left) (B.leaving s.right)).map fun u =>
        if u.label == l then u.left.elim 1 A.cost * u.right.elim 1 B.cost * F u.target
        else 0).sum := by
  unfold onLabel intersection
  simp only [cost_product]
  rfl

/-- Without a label one operand moves and the other stays put. -/
theorem onLabel_none_intersection (F : PairState S₁ S₂ → W) (s : PairState S₁ S₂) :
    (A.intersection B).onLabel none F s =
      (if s.filter = .free then A.onLabel none (fun p => F ⟨p, s.right, .free⟩) s.left else 0) +
        B.onLabel none (fun q => F ⟨s.left, q, .rightOnly⟩) s.right := by
  rw [onLabel_intersection, sum_pairMoves]
  set f : PairTransition S₁ S₂ T₁ T₂ L → W := fun u =>
    if u.label == none then u.left.elim 1 A.cost * u.right.elim 1 B.cost * F u.target else 0 with hf
  have hleft (t : T₁) : (leftMove .acceptor A s t).elim 0 f =
      if A.label t == none then A.cost t * F ⟨A.target t, s.right, .free⟩ else 0 := by
    unfold leftMove
    cases A.label t <;> simp [Pairing.acceptor, Move.attach?, hf]
  have hright (u : T₂) : (rightMove .acceptor B s u).elim 0 f =
      if B.label u == none then B.cost u * F ⟨s.left, B.target u, .rightOnly⟩ else 0 := by
    unfold rightMove
    cases B.label u <;> simp [Pairing.acceptor, Move.attach?, hf]
  have hjoint (t : T₁) (u : T₂) : (jointMove .acceptor A B s t u).elim 0 f = 0 := by
    unfold jointMove
    rcases A.label t with _ | a <;> rcases B.label u with _ | b <;>
      simp only [Pairing.acceptor, Move.attach?, Option.elim_none]
    by_cases hab : a = b <;> simp [hf, hab]
  simp only [hleft, hright, hjoint, List.map_const', List.sum_replicate, smul_zero, add_zero]
  rfl

/-- A label is read by both operands. -/
theorem onLabel_some_intersection (a : L) (F : PairState S₁ S₂ → W) (s : PairState S₁ S₂) :
    (A.intersection B).onLabel (some a) F s =
      A.onLabel (some a) (fun p => B.onLabel (some a) (fun q => F ⟨p, q, .free⟩) s.right)
        s.left := by
  rw [onLabel_intersection, sum_pairMoves]
  set f : PairTransition S₁ S₂ T₁ T₂ L → W := fun u =>
    if u.label == some a then u.left.elim 1 A.cost * u.right.elim 1 B.cost * F u.target else 0
    with hf
  have hleft (t : T₁) : (leftMove .acceptor A s t).elim 0 f = 0 := by
    unfold leftMove
    cases A.label t <;> simp [Pairing.acceptor, Move.attach?, hf]
  have hright (u : T₂) : (rightMove .acceptor B s u).elim 0 f = 0 := by
    unfold rightMove
    cases B.label u <;> simp [Pairing.acceptor, Move.attach?, hf]
  have hjoint (t : T₁) (u : T₂) : (jointMove .acceptor A B s t u).elim 0 f =
      if A.label t == some a then A.cost t *
        if B.label u == some a then B.cost u * F ⟨A.target t, B.target u, .free⟩ else 0
      else 0 := by
    unfold jointMove
    rcases A.label t with _ | b <;> rcases B.label u with _ | c <;>
      simp only [Pairing.acceptor, Move.attach?]
    case some.some =>
      by_cases hbc : b = c
      · subst hbc
        by_cases hba : b = a <;> simp [hf, hba, mul_assoc]
      · by_cases hba : b = a
        · subst hba
          simp [hbc, Ne.symm hbc]
        · simp [hbc, hba]
    case some.none => split <;> simp
    all_goals rfl
  simp only [hleft, hright, hjoint, List.map_const', List.sum_replicate, smul_zero, ite_self,
    zero_add]
  unfold onLabel
  congr 1
  apply List.map_congr_left
  intro t _
  split
  · rw [← List.sum_map_mul_left]
  · simp

end Moves

section Factors

variable [CommSemiring W] {A : Automaton Id L S₁ T₁ W} {B : Automaton Id L S₂ T₂ W}

omit [LawfulBEq L] [BEq W] in
theorem onLabel_mul_left (A : Automaton Id L S₁ T₁ W) (l : Option L) (c : W) (g : S₁ → W)
    (s : S₁) : A.onLabel l (fun p => c * g p) s = c * A.onLabel l g s := by
  unfold onLabel
  rw [← List.sum_map_mul_left]
  congr 1
  apply List.map_congr_left
  intro t _
  split
  · exact mul_left_comm _ _ _
  · rw [mul_zero]

variable [LawfulBEq W]

omit [LawfulBEq L] in
theorem reachable_intersection {s : PairState S₁ S₂} (h : (A.intersection B).Reachable s) :
    A.Reachable s.left ∧ B.Reachable s.right := by
  induction h with
  | start hs =>
    obtain ⟨hl, hr, -⟩ := mem_starts_product.1 hs
    exact ⟨.start hl, .start hr⟩
  | step _ ht ih => exact A.closed_reachable.product B.closed_reachable _ ih _ ht

omit [LawfulBEq L] in
theorem finite_intersection (hA : {s | A.Reachable s}.Finite) (hB : {s | B.Reachable s}.Finite) :
    {s | (A.intersection B).Reachable s}.Finite := by
  have hfilters : (Set.univ : Set EpsilonFilter).Finite :=
    (Set.finite_insert.2 (Set.finite_singleton .rightOnly)).subset fun f _ => by
      cases f
      · exact Set.mem_insert _ _
      · exact Set.mem_insert_of_mem _ rfl
  refine ((hA.prod (hB.prod hfilters)).image fun e =>
    (⟨e.1, e.2.1, e.2.2⟩ : PairState S₁ S₂)).subset fun s hs => ?_
  obtain ⟨hl, hr⟩ := reachable_intersection hs
  exact ⟨(s.left, s.right, s.filter), ⟨hl, hr, trivial⟩, rfl⟩

/-- A cycle of the intersection without labels would be one of an operand. -/
theorem epsilonAcyclic_intersection (hA : A.EpsilonAcyclic) (hB : B.EpsilonAcyclic) :
    (A.intersection B).EpsilonAcyclic := by
  intro s hs path hne hpath hlabels hcycle
  obtain ⟨hreachl, hreachr⟩ := reachable_intersection hs
  obtain ⟨hl, hr, hkeys⟩ := sides_of_isPath Pairing.acceptor_keyed hpath
  obtain ⟨hendl, hendr⟩ := endpoint_sides Pairing.acceptor_keyed hpath
  have hlefts : A.labels (lefts path) = [] := by
    have h := labels_filterMap_left Pairing.acceptor_keyed (f := some) (g := some)
      (fun _ _ => rfl) hpath
    simp only [List.filterMap_some] at h
    exact h.symm.trans hlabels
  have hrights : B.labels (rights path) = [] := hkeys.symm.trans hlefts
  by_cases hnil : lefts path = []
  · have hnil' : rights path ≠ [] := fun h =>
      hne (eq_nil_of_sides Pairing.acceptor_keyed hpath hnil h)
    apply hB s.right hreachr (rights path) hnil' hr hrights
    rw [← hendr]
    exact congrArg PairState.right hcycle
  · apply hA s.left hreachl (lefts path) hnil hl hlefts
    rw [← hendl]
    exact congrArg PairState.left hcycle

omit [LawfulBEq L] in
theorem fromStarts_intersection {f : S₁ → W} {g : S₂ → W} {F : PairState S₁ S₂ → W}
    (hF : ∀ s ∈ (A.intersection B).starts, F s = f s.left * g s.right) :
    (A.intersection B).fromStarts F = A.fromStarts f * B.fromStarts g := by
  have hpair (p : S₁) (q : S₂) :
      (if A.entry p * B.entry q == 0 then none else some (⟨p, q, .free⟩ : PairState S₁ S₂)).elim 0
          (fun s => (A.intersection B).entry s * (f s.left * g s.right)) =
        A.entry p * f p * (B.entry q * g q) := by
    rw [← mul_mul_mul_comm]
    split
    · next hzero => rw [eq_of_beq hzero, zero_mul, Option.elim_none]
    · simp [intersection, entry_product]
  calc (A.intersection B).fromStarts F
      = ((A.intersection B).starts.map fun s =>
          (A.intersection B).entry s * (f s.left * g s.right)).sum := by
        unfold fromStarts
        congr 1
        apply List.map_congr_left
        intro s hs
        rw [hF s hs]
    _ = (A.starts.map fun p => (B.starts.map fun q =>
          A.entry p * f p * (B.entry q * g q)).sum).sum := by
        simp only [← hpair]
        conv_lhs => rw [intersection, starts_product, sum_map_flatMap]
        simp only [sum_map_filterMap]
        rfl
    _ = A.fromStarts f * B.fromStarts g := by
        simp only [List.sum_map_mul_left, List.sum_map_mul_right]
        rfl

section Reading

variable [BEq S₁] [BEq S₂] {left : S₁ → ℕ} {right : S₂ → ℕ} {both : PairState S₁ S₂ → ℕ}
variable (hA : (A.epsilonPart []).Bounded A.Reachable left)
  (hB : (B.epsilonPart []).Bounded B.Reachable right)
  (hP : ((A.intersection B).epsilonPart []).Bounded (A.intersection B).Reachable both)
include hA hB hP

/-- Once the right operand has moved alone, the left one stays where it is until the next label:
each pair of paths without labels is counted once. -/
theorem closing_intersection {f : S₁ → W} {g : S₂ → W} {F : PairState S₁ S₂ → W}
    (hF : ∀ s, (A.intersection B).Reachable s → F s = f s.left * g s.right)
    {s : PairState S₁ S₂} (hs : (A.intersection B).Reachable s) :
    (A.intersection B).closing both F s =
      (if s.filter = .free then A.closing left f s.left else f s.left) *
        B.closing right g s.right := by
  induction hn : both s using Nat.strongRecOn generalizing s with
  | ind n ih =>
    subst hn
    obtain ⟨hl, hr⟩ := reachable_intersection hs
    have hnext {u : PairTransition S₁ S₂ T₁ T₂ L} (hu : u ∈ (A.intersection B).leaving s)
        (hlabel : u.label = none) : (A.intersection B).closing both F u.target =
          (if u.target.filter = .free then A.closing left f u.target.left else f u.target.left) *
            B.closing right g u.target.right := by
      have hstep : u ∈ ((A.intersection B).epsilonPart []).leaving s :=
        List.mem_filter.2 ⟨hu, Option.isNone_iff_eq_none.2 hlabel⟩
      exact ih _ (hP.target_lt hs hstep) (hs.step hu) rfl
    have honright : B.onLabel none
        (fun q => (A.intersection B).closing both F ⟨s.left, q, .rightOnly⟩) s.right =
          f s.left * B.onLabel none (B.closing right g) s.right := by
      rw [← onLabel_mul_left]
      apply onLabel_congr
      intro u hu hlabel
      exact hnext ((mem_leaving_product Pairing.acceptor_keyed).2
        (.inr (.inl ⟨u, hu, hlabel, rfl⟩))) rfl
    have hmoved : f s.left * g s.right + f s.left * B.onLabel none (B.closing right g) s.right =
        f s.left * B.closing right g s.right := by
      rw [closing_eq hB g hr, mul_add]
    rw [closing_eq hP F hs, hF s hs, onLabel_none_intersection, honright]
    split
    · next hfree =>
      have honleft : A.onLabel none
          (fun p => (A.intersection B).closing both F ⟨p, s.right, .free⟩) s.left =
            B.closing right g s.right * A.onLabel none (A.closing left f) s.left := by
        rw [← onLabel_mul_left]
        apply onLabel_congr
        intro t ht hlabel
        have hmove := hnext ((mem_leaving_product Pairing.acceptor_keyed).2
          (.inl ⟨t, ht, hfree, hlabel, rfl⟩)) hlabel
        rwa [if_pos rfl, mul_comm] at hmove
      rw [honleft, add_left_comm, hmoved, closing_eq hA f hl, add_mul, add_comm,
        mul_comm (B.closing right g s.right)]
    · rw [zero_add, hmoved]

theorem after_intersection (x : List L) {s : PairState S₁ S₂}
    (hs : (A.intersection B).Reachable s) :
    (A.intersection B).after both (A.intersection B).exit x s =
      A.after left A.exit x s.left * B.after right B.exit x s.right := by
  induction x generalizing s with
  | nil => rfl
  | cons a x ih =>
    rw [after, onLabel_some_intersection, after, after]
    have honright : ∀ t ∈ A.leaving s.left, A.label t = some a → B.onLabel (some a) (fun q =>
        (A.intersection B).closing both ((A.intersection B).after both (A.intersection B).exit x)
          ⟨A.target t, q, .free⟩) s.right =
        B.onLabel (some a) (B.closing right (B.after right B.exit x)) s.right *
          A.closing left (A.after left A.exit x) (A.target t) := by
      intro t ht hlabel
      rw [mul_comm, ← onLabel_mul_left]
      apply onLabel_congr
      intro u hu hlabel'
      have hmove := (mem_leaving_product (A := A) (B := B) Pairing.acceptor_keyed).2
        (.inr (.inr ⟨t, ht, u, hu, ⟨a, hlabel, hlabel'⟩, rfl⟩))
      have hclosing := closing_intersection hA hB hP (fun _ => ih) (hs.step hmove)
      exact hclosing
    rw [onLabel_congr (g := fun p =>
      B.onLabel (some a) (B.closing right (B.after right B.exit x)) s.right *
        A.closing left (A.after left A.exit x) p) honright, onLabel_mul_left, mul_comm]

end Reading

section StringWeight

variable [BEq S₁] [LawfulBEq S₁] [Hashable S₁] [BEq S₂] [LawfulBEq S₂] [Hashable S₂]
variable {m : Type → Type} [Monad m] [LawfulMonad m] [StepLimited m]

variable (m) in
/-- In a commutative semiring an intersection multiplies the weights of each string, however many
transitions of either operand have no label. -/
theorem intersection_stringWeight (A : Automaton Id L S₁ T₁ W) (B : Automaton Id L S₂ T₂ W)
    (hA : A.Lawful) (hB : B.Lawful)
    (hfiniteA : {s | A.Reachable s}.Finite) (hfiniteB : {s | B.Reachable s}.Finite)
    (hepsilonA : A.EpsilonAcyclic) (hepsilonB : B.EpsilonAcyclic) (x : List L) :
    ∃ v w, ∀ queue : Queue W, ∃ n, ∀ budget, n ≤ budget →
      (A.lift : Automaton m L S₁ T₁ W).stringWeight budget ⟨queue, .exact⟩ x = pure v ∧
      (B.lift : Automaton m L S₂ T₂ W).stringWeight budget ⟨queue, .exact⟩ x = pure w ∧
      ((A.lift : Automaton m L S₁ T₁ W).intersection B.lift).stringWeight budget
        ⟨queue, .exact⟩ x = pure (v * w) := by
  have hP : (A.intersection B).Lawful := hA.product hB.starts_nodup fun s => (hB.mem_starts s).2
  have hfinite := finite_intersection hfiniteA hfiniteB
  have hepsilon := epsilonAcyclic_intersection hepsilonA hepsilonB
  obtain ⟨left, hleft⟩ := exists_bounded_epsilonPart hfiniteA hepsilonA
  obtain ⟨right, hright⟩ := exists_bounded_epsilonPart hfiniteB hepsilonB
  obtain ⟨both, hboth⟩ := exists_bounded_epsilonPart hfinite hepsilon
  have hliftA := lift_answers_reachable m A
  have hliftB := lift_answers_reachable m B
  let total {S T : Type} [BEq S] (Q : Automaton Id L S T W) (closure : S → ℕ) : W :=
    Q.fromStarts (Q.closing closure (Q.after closure Q.exit x))
  refine ⟨total A left, total B right, fun queue => ?_⟩
  obtain ⟨nA, hnA⟩ := hliftA.exists_stringWeight_eq hA hfiniteA hepsilonA hleft queue x
  obtain ⟨nB, hnB⟩ := hliftB.exists_stringWeight_eq hB hfiniteB hepsilonB hright queue x
  have hlift : ((A.lift : Automaton m L S₁ T₁ W).product .acceptor B.lift).Answers
      (A.product .acceptor B) _ := hliftA.product hliftB
  obtain ⟨nP, hnP⟩ := hlift.exists_stringWeight_eq hP hfinite hepsilon hboth queue x
  refine ⟨nA + nB + nP, fun budget hbudget =>
    ⟨hnA budget (by omega), hnB budget (by omega), (hnP budget (by omega)).trans ?_⟩⟩
  congr 1
  apply fromStarts_intersection
  intro s hs
  have hclosing := closing_intersection hleft hright hboth
    (fun _ => after_intersection hleft hright hboth x) (.start hs)
  rwa [if_pos (mem_starts_product.1 hs).2.2.2] at hclosing

end StringWeight

end Factors

/-- Reads its label in a loop of weight two and leaves the loop without a label, at weight three. -/
def loopThenLeave : Automaton Id Unit Bool Bool ℕ where
  initialStates := pure [false]
  outgoing s := pure (if s then [] else [false, true])
  initialWeight s := pure (if s then 0 else 1)
  finalWeight s := pure (if s then 1 else 0)
  weight t := pure (if t then 3 else 2)
  source _ := false
  target t := t
  label t := if t then none else some ()

theorem lawful_loopThenLeave : loopThenLeave.Lawful := ⟨by decide, by decide, by decide⟩

theorem epsilonAcyclic_loopThenLeave : loopThenLeave.EpsilonAcyclic := by
  intro s _ ts hne hpath hlabels hend
  match s, ts with
  | _, [] => exact hne rfl
  | true, t :: ts => exact absurd hpath.1 List.not_mem_nil
  | false, [false] => cases hlabels
  | false, [true] => cases hend
  | false, false :: u :: ts => cases hlabels
  | false, true :: u :: ts => exact absurd hpath.2.1 List.not_mem_nil

/-- Reading twice has weight 2 · 2 · 3. -/
theorem stringWeight_loopThenLeave (queue : Queue ℕ) : ∃ n, ∀ budget, n ≤ budget →
    (loopThenLeave.lift : Automaton Option _ _ _ _).stringWeight budget ⟨queue, .exact⟩ [(), ()] =
      some 12 := by
  let closure (s : Bool) : ℕ := if s then 1 else 2
  have hclosure : (loopThenLeave.epsilonPart []).Bounded loopThenLeave.Reachable closure := by
    refine ⟨closed_epsilonPart [] loopThenLeave.closed_reachable, ?_⟩
    rintro (_ | _) _ <;> decide
  have hvalue : loopThenLeave.fromStarts (loopThenLeave.closing closure
      (loopThenLeave.after closure loopThenLeave.exit [(), ()])) = 12 := by decide
  rw [← hvalue]
  exact (lift_answers_reachable Option loopThenLeave).exists_stringWeight_eq lawful_loopThenLeave
    (Set.toFinite _) epsilonAcyclic_loopThenLeave hclosure queue [(), ()]

theorem intersection_loopThenLeave :
    (∀ queue : Queue ℕ, ∃ n, ∀ budget, n ≤ budget →
      (loopThenLeave.lift : Automaton Option _ _ _ _).stringWeight budget ⟨queue, .exact⟩ [(), ()] =
        some 12) ∧
    ∀ queue : Queue ℕ, ∃ n, ∀ budget, n ≤ budget →
      ((loopThenLeave.lift : Automaton Option _ _ _ _).intersection loopThenLeave.lift).stringWeight
        budget ⟨queue, .exact⟩ [(), ()] = some 144 := by
  obtain ⟨v, w, hrun⟩ := intersection_stringWeight Option loopThenLeave loopThenLeave
    lawful_loopThenLeave lawful_loopThenLeave (Set.toFinite _) (Set.toFinite _)
    epsilonAcyclic_loopThenLeave epsilonAcyclic_loopThenLeave [(), ()]
  have hv : v = 12 := eq_of_large_budgets
    ((hrun .fifo).imp fun _ hn budget hbudget => (hn budget hbudget).1)
    (stringWeight_loopThenLeave .fifo)
  have hw : w = 12 := eq_of_large_budgets
    ((hrun .fifo).imp fun _ hn budget hbudget => (hn budget hbudget).2.1)
    (stringWeight_loopThenLeave .fifo)
  subst hv hw
  exact ⟨fun queue => (hrun queue).imp fun _ hn budget hbudget => (hn budget hbudget).1,
    fun queue => (hrun queue).imp fun _ hn budget hbudget => (hn budget hbudget).2.2⟩

end WeightedAutomata.Automaton
