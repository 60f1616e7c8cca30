import Mathlib.Algebra.GroupWithZero.Basic
import WeightedAutomata.Proofs.Answers
import WeightedAutomata.View.Product

/-!
The moves of a product, and what a product answers.
-/
namespace WeightedAutomata

theorem Move.attach?_eq_some {L α : Type} {move : Move L} {f : Option L → α} {a : α} :
    move.attach? f = some a ↔ ∃ label, move = .emit label ∧ f label = a := by
  cases move <;> simp [attach?]

namespace Automaton

variable {m : Type → Type} {L₁ L₂ L S₁ S₂ T₁ T₂ W : Type}

section Sides

variable {pairing : Pairing L₁ L₂ L} {A : Automaton m L₁ S₁ T₁ W} {B : Automaton m L₂ S₂ T₂ W}
variable {s : PairState S₁ S₂} {u : PairTransition S₁ S₂ T₁ T₂ L}

theorem sides_of_leftMove {t : T₁} (h : leftMove pairing A s t = some u) :
    u.left = some t ∧ u.right = none := by
  obtain ⟨_, _, rfl⟩ := Move.attach?_eq_some.1 h
  exact ⟨rfl, rfl⟩

theorem sides_of_rightMove {t : T₂} (h : rightMove pairing B s t = some u) :
    u.left = none ∧ u.right = some t := by
  obtain ⟨_, _, rfl⟩ := Move.attach?_eq_some.1 h
  exact ⟨rfl, rfl⟩

theorem sides_of_jointMove {t₁ : T₁} {t₂ : T₂} (h : jointMove pairing A B s t₁ t₂ = some u) :
    u.left = some t₁ ∧ u.right = some t₂ := by
  obtain ⟨_, _, rfl⟩ := Move.attach?_eq_some.1 h
  exact ⟨rfl, rfl⟩

/-- A move occurs once if no transition is listed twice. -/
theorem nodup_pairMoves {lefts : List T₁} {rights : List T₂} (hl : lefts.Nodup)
    (hr : rights.Nodup) : (pairMoves pairing A B s lefts rights).Nodup := by
  let PT := PairTransition S₁ S₂ T₁ T₂ L
  have hleft : (lefts.filterMap (leftMove pairing A s : T₁ → Option PT)).Nodup :=
    hl.filterMap fun a b u ha hb => by
      simpa [(sides_of_leftMove ha).1] using (sides_of_leftMove hb).1
  have hright : (rights.filterMap (rightMove pairing B s : T₂ → Option PT)).Nodup :=
    hr.filterMap fun a b u ha hb => by
      simpa [(sides_of_rightMove ha).2] using (sides_of_rightMove hb).2
  have hjoint : (lefts.flatMap fun t => rights.filterMap (jointMove pairing A B s t)).Nodup := by
    refine List.nodup_flatMap.2 ⟨fun t _ => hr.filterMap fun a b u ha hb => ?_, ?_⟩
    · simpa [(sides_of_jointMove ha).2] using (sides_of_jointMove hb).2
    · refine hl.imp fun {a b} hne u ha hb => hne ?_
      obtain ⟨_, _, ha⟩ := List.mem_filterMap.1 ha
      obtain ⟨_, _, hb⟩ := List.mem_filterMap.1 hb
      simpa [(sides_of_jointMove ha).1] using (sides_of_jointMove hb).1
  refine ((?_ : List.Nodup _).append hright ?_).append hjoint ?_
  · split
    · exact hleft
    · exact .nil
  · intro u hu hu'
    obtain ⟨_, _, hu'⟩ := List.mem_filterMap.1 hu'
    split at hu
    · obtain ⟨_, _, hu⟩ := List.mem_filterMap.1 hu
      simpa [(sides_of_leftMove hu).1] using (sides_of_rightMove hu').1
    · cases hu
  · intro u hu hu'
    obtain ⟨_, _, hu'⟩ := List.mem_flatMap.1 hu'
    obtain ⟨_, _, hu'⟩ := List.mem_filterMap.1 hu'
    obtain hu | hu := List.mem_append.1 hu
    · split at hu
      · obtain ⟨_, _, hu⟩ := List.mem_filterMap.1 hu
        simpa [(sides_of_leftMove hu).2] using (sides_of_jointMove hu').2
      · cases hu
    · obtain ⟨_, _, hu⟩ := List.mem_filterMap.1 hu
      simpa [(sides_of_rightMove hu).1] using (sides_of_jointMove hu').1

end Sides

theorem mem_pairMoves {pairing : Pairing L₁ L₂ L} {A : Automaton m L₁ S₁ T₁ W}
    {B : Automaton m L₂ S₂ T₂ W} {s : PairState S₁ S₂} {lefts : List T₁} {rights : List T₂}
    {u : PairTransition S₁ S₂ T₁ T₂ L} :
    u ∈ pairMoves pairing A B s lefts rights ↔
      (s.filter = .free ∧ ∃ t ∈ lefts, leftMove pairing A s t = some u) ∨
      (∃ t ∈ rights, rightMove pairing B s t = some u) ∨
      ∃ t₁ ∈ lefts, ∃ t₂ ∈ rights, jointMove pairing A B s t₁ t₂ = some u := by
  by_cases hf : s.filter = .free <;>
    simp [pairMoves, hf, List.mem_filterMap, List.mem_flatMap]

/-- A move of a product by the sides that take part. -/
theorem mem_pairMoves_cases {pairing : Pairing L₁ L₂ L} {A : Automaton m L₁ S₁ T₁ W}
    {B : Automaton m L₂ S₂ T₂ W} {s : PairState S₁ S₂} {lefts : List T₁} {rights : List T₂}
    {u : PairTransition S₁ S₂ T₁ T₂ L} (hu : u ∈ pairMoves pairing A B s lefts rights) :
    (∃ t ∈ lefts, ∃ label, s.filter = .free ∧ pairing.leftAlone (A.label t) = .emit label ∧
      u = ⟨s, ⟨A.target t, s.right, .free⟩, some t, none, label⟩) ∨
    (∃ t ∈ rights, ∃ label, pairing.rightAlone (B.label t) = .emit label ∧
      u = ⟨s, ⟨s.left, B.target t, .rightOnly⟩, none, some t, label⟩) ∨
    ∃ t₁ ∈ lefts, ∃ t₂ ∈ rights, ∃ label,
      pairing.together (A.label t₁) (B.label t₂) = .emit label ∧
      u = ⟨s, ⟨A.target t₁, B.target t₂, .free⟩, some t₁, some t₂, label⟩ := by
  obtain ⟨hf, t, ht, hm⟩ | ⟨t, ht, hm⟩ | ⟨t₁, h₁, t₂, h₂, hm⟩ := mem_pairMoves.1 hu
  · obtain ⟨label, hl, rfl⟩ := Move.attach?_eq_some.1 hm
    exact .inl ⟨t, ht, label, hf, hl, rfl⟩
  · obtain ⟨label, hl, rfl⟩ := Move.attach?_eq_some.1 hm
    exact .inr (.inl ⟨t, ht, label, hl, rfl⟩)
  · obtain ⟨label, hl, rfl⟩ := Move.attach?_eq_some.1 hm
    exact .inr (.inr ⟨t₁, h₁, t₂, h₂, label, hl, rfl⟩)

/-- The moves depend on the labels and targets of the operands alone. -/
theorem pairMoves_congr (pairing : Pairing L₁ L₂ L) {A : Automaton m L₁ S₁ T₁ W}
    {P : Automaton Id L₁ S₁ T₁ W} {B : Automaton m L₂ S₂ T₂ W} {Q : Automaton Id L₂ S₂ T₂ W}
    (hA : A.label = P.label) (hA' : A.target = P.target) (hB : B.label = Q.label)
    (hB' : B.target = Q.target) (s : PairState S₁ S₂) (lefts : List T₁) (rights : List T₂) :
    pairMoves pairing A B s lefts rights = pairMoves pairing P Q s lefts rights := by
  have hl : (leftMove pairing A s : T₁ → Option (PairTransition S₁ S₂ T₁ T₂ L)) =
      leftMove pairing P s := by
    funext t
    simp only [leftMove, hA, hA']
  have hr : (rightMove pairing B s : T₂ → Option (PairTransition S₁ S₂ T₁ T₂ L)) =
      rightMove pairing Q s := by
    funext t
    simp only [rightMove, hB, hB']
  have hj : jointMove pairing A B s = jointMove pairing P Q s := by
    funext t₁ t₂
    simp only [jointMove, hA, hA', hB, hB']
  rw [pairMoves, pairMoves, hl, hr, hj]

section Answers

variable [Zero W] [One W] [Mul W] [BEq W] {pairing : Pairing L₁ L₂ L}
variable {P : Automaton Id L₁ S₁ T₁ W} {Q : Automaton Id L₂ S₂ T₂ W}

variable (pairing P Q) in
theorem leaving_product (s : PairState S₁ S₂) :
    (P.product pairing Q).leaving s =
      pairMoves pairing P Q s (P.leaving s.left) (Q.leaving s.right) := rfl

variable (pairing P Q) in
theorem starts_product : (P.product pairing Q).starts =
    P.starts.flatMap fun left => Q.starts.filterMap fun right =>
      if P.entry left * Q.entry right == 0 then none else some ⟨left, right, .free⟩ := by
  have h : (P.starts.mapM fun left => do
      let leftWeight ← P.initialWeight left
      Q.starts.filterMapM fun right => do
        let weight := leftWeight * (← Q.initialWeight right)
        return if weight == 0 then none else some (PairState.mk left right .free)) =
      pure (P.starts.map fun left => Q.starts.filterMap fun right =>
        if P.entry left * Q.entry right == 0 then none else some ⟨left, right, .free⟩) :=
    mapM_eq_pure (m := Id) fun _ _ => filterMapM_eq_pure (m := Id) fun _ _ => rfl
  exact congrArg (fun rows => rows.run.flatten) h

variable (pairing P Q) in
@[simp] theorem exit_product (s : PairState S₁ S₂) :
    (P.product pairing Q).exit s = P.exit s.left * Q.exit s.right := rfl

variable (pairing P Q) in
theorem entry_product (s : PairState S₁ S₂) : (P.product pairing Q).entry s =
    if s.filter = .free then P.entry s.left * Q.entry s.right else 0 := by
  by_cases hf : s.filter = .free <;> simp [entry, product, hf]

variable (pairing P Q) in
@[simp] theorem cost_product (t : PairTransition S₁ S₂ T₁ T₂ L) :
    (P.product pairing Q).cost t = t.left.elim 1 P.cost * t.right.elim 1 Q.cost := by
  obtain ⟨_, _, left, right, _⟩ := t
  cases left <;> cases right <;> rfl

variable (pairing P Q) in
@[simp] theorem target_product (t : PairTransition S₁ S₂ T₁ T₂ L) :
    (P.product pairing Q).target t = t.target := rfl

theorem Closed.product {R₁ : S₁ → Prop} {R₂ : S₂ → Prop} (h₁ : P.Closed R₁) (h₂ : Q.Closed R₂) :
    (P.product pairing Q).Closed fun s => R₁ s.left ∧ R₂ s.right := by
  intro s ⟨hl, hr⟩ u hu
  obtain ⟨t, ht, _, _, _, rfl⟩ | ⟨t, ht, _, _, rfl⟩ | ⟨t₁, ht₁, t₂, ht₂, _, _, rfl⟩ :=
    mem_pairMoves_cases hu
  · exact ⟨h₁ _ hl t ht, hr⟩
  · exact ⟨hl, h₂ _ hr t ht⟩
  · exact ⟨h₁ _ hl t₁ ht₁, h₂ _ hr t₂ ht₂⟩

theorem Answers.product [Monad m] [LawfulMonad m] {A : Automaton m L₁ S₁ T₁ W}
    {B : Automaton m L₂ S₂ T₂ W} {R₁ : S₁ → Prop} {R₂ : S₂ → Prop} (hA : A.Answers P R₁)
    (hB : B.Answers Q R₂) :
    (A.product pairing B).Answers (P.product pairing Q) fun s => R₁ s.left ∧ R₂ s.right where
  closed := hA.closed.product hB.closed
  starts s hs := by
    rw [starts_product] at hs
    obtain ⟨left, hl, hs⟩ := List.mem_flatMap.1 hs
    obtain ⟨right, hr, hs⟩ := List.mem_filterMap.1 hs
    split at hs
    · cases hs
    · cases hs
      exact ⟨hA.starts _ hl, hB.starts _ hr⟩
  initialStates := by
    rw [starts_product]
    simp only [Automaton.product, hA.initialStates, hB.initialStates, pure_bind]
    rw [mapM_eq_pure fun left hl => by
      rw [hA.initialWeight left (hA.starts left hl), pure_bind]
      exact filterMapM_eq_pure fun right hr => by
        rw [hB.initialWeight right (hB.starts right hr), pure_bind]]
    rw [pure_bind, List.flatMap]
  outgoing s hs := by
    rw [leaving_product]
    change (do return pairMoves pairing A B s (← A.outgoing s.left) (← B.outgoing s.right)) = _
    rw [hA.outgoing _ hs.1, hB.outgoing _ hs.2, pure_bind, pure_bind]
    rw [pairMoves_congr pairing hA.label hA.target hB.label hB.target]
  initialWeight s hs := by
    rw [entry_product]
    by_cases hf : s.filter = .free
    · simp [Automaton.product, hf, hA.initialWeight _ hs.1, hB.initialWeight _ hs.2]
    · simp [Automaton.product, hf]
  finalWeight s hs := by
    simp [Automaton.product, hA.finalWeight _ hs.1, hB.finalWeight _ hs.2, exit]
  weight s hs u hu := by
    rw [cost_product]
    change (do return (← u.left.elim (pure 1) A.weight) * (← u.right.elim (pure 1) B.weight)) = _
    obtain ⟨t, ht, _, _, _, rfl⟩ | ⟨t, ht, _, _, rfl⟩ | ⟨t₁, ht₁, t₂, ht₂, _, _, rfl⟩ :=
      mem_pairMoves_cases hu
    · simp [hA.weight _ hs.1 t ht]
    · simp [hB.weight _ hs.2 t ht]
    · simp [hA.weight _ hs.1 t₁ ht₁, hB.weight _ hs.2 t₂ ht₂]
  source := rfl
  target := rfl
  label := rfl
  order := by simp [Automaton.product, hA.order, hB.order]

end Answers

section Lawful

variable [MulZeroOneClass W] [BEq W] [LawfulBEq W] {pairing : Pairing L₁ L₂ L}
variable {P : Automaton Id L₁ S₁ T₁ W} {Q : Automaton Id L₂ S₂ T₂ W}

theorem mem_starts_product {s : PairState S₁ S₂} : s ∈ (P.product pairing Q).starts ↔
    s.left ∈ P.starts ∧ s.right ∈ Q.starts ∧ P.entry s.left * Q.entry s.right ≠ 0 ∧
      s.filter = .free := by
  rw [starts_product]
  simp only [List.mem_flatMap, List.mem_filterMap]
  constructor
  · rintro ⟨left, hl, right, hr, hs⟩
    split at hs
    · cases hs
    · next hne =>
      cases hs
      exact ⟨hl, hr, by simpa using hne, rfl⟩
  · rintro ⟨hl, hr, hne, hf⟩
    refine ⟨s.left, hl, s.right, hr, ?_⟩
    rw [if_neg (by simpa using hne), ← hf]

omit [LawfulBEq W] in
theorem source_eq_of_mem_product {s : PairState S₁ S₂} {u : PairTransition S₁ S₂ T₁ T₂ L}
    (hu : u ∈ (P.product pairing Q).leaving s) : (P.product pairing Q).source u = s := by
  obtain ⟨_, _, _, _, _, rfl⟩ | ⟨_, _, _, _, rfl⟩ | ⟨_, _, _, _, _, _, rfl⟩ :=
    mem_pairMoves_cases hu <;> rfl

/-- A product leaves out the pairs of initial states that do not count, so that the right operand
may list states of weight zero. -/
theorem Lawful.product (hP : P.Lawful) (hn : Q.starts.Nodup)
    (hm : ∀ s, Q.entry s ≠ 0 → s ∈ Q.starts) : (P.product pairing Q).Lawful where
  starts_nodup := by
    rw [starts_product]
    refine List.nodup_flatMap.2 ⟨fun left _ => ?_, ?_⟩
    · apply hn.filterMap
      intro a b c ha hb
      simp only [Option.mem_def, Option.ite_none_left_eq_some, Option.some.injEq] at ha hb
      rw [← hb.2, PairState.mk.injEq] at ha
      exact ha.2.2.1
    · refine hP.starts_nodup.imp fun {a b} hne s ha hb => hne ?_
      obtain ⟨_, _, ha⟩ := List.mem_filterMap.1 ha
      obtain ⟨_, _, hb⟩ := List.mem_filterMap.1 hb
      simp only [Option.ite_none_left_eq_some, Option.some.injEq] at ha hb
      rw [← hb.2, PairState.mk.injEq] at ha
      exact ha.2.1
  mem_starts s := by
    rw [mem_starts_product, entry_product]
    constructor
    · rintro ⟨-, -, hne, hf⟩
      rwa [if_pos hf]
    · intro hne
      split at hne
      · next hf =>
        exact ⟨(hP.mem_starts _).2 (left_ne_zero_of_mul hne), hm _ (right_ne_zero_of_mul hne), hne, hf⟩
      · exact absurd rfl hne
  source_eq _ _ := source_eq_of_mem_product

end Lawful

end Automaton

end WeightedAutomata
