import Mathlib.Algebra.GroupWithZero.Nat
import Mathlib.Data.List.Nodup
import WeightedAutomata.Proofs.Product.Moves

/-!
The paths of a product. Each is an interleaving of a path of the left operand and one of the right
operand, and two paths that match have exactly one interleaving.
-/
namespace WeightedAutomata

variable {L₁ L₂ L S₁ S₂ T₁ T₂ W K : Type}

/-- Sides with equal keys move together and sides without a key alone; `combine` labels the move. -/
structure Pairing.Keyed (pairing : Pairing L₁ L₂ L) (leftKey : Option L₁ → Option K)
    (rightKey : Option L₂ → Option K) (combine : Option L₁ → Option L₂ → Option L) : Prop where
  leftAlone : ∀ a label,
    pairing.leftAlone a = .emit label ↔ leftKey a = none ∧ combine a none = label
  rightAlone : ∀ b label,
    pairing.rightAlone b = .emit label ↔ rightKey b = none ∧ combine none b = label
  together : ∀ a b label, pairing.together a b = .emit label ↔
    (∃ k, leftKey a = some k ∧ rightKey b = some k) ∧ combine a b = label

theorem Pairing.acceptor_keyed [BEq L] [LawfulBEq L] :
    (Pairing.acceptor : Pairing L L L).Keyed id id fun a _ => a where
  leftAlone a label := by cases a <;> simp [acceptor]
  rightAlone b label := by cases b <;> simp [acceptor]
  together a b label := by
    obtain _ | a := a <;> obtain _ | b := b <;> simp only [acceptor]
    · simp
    · simp
    · simp
    · by_cases h : a = b
      · simp [h]
      · simp [h, Ne.symm h]

theorem Tape.toLabel_bind_input {I O : Type} (tape : Tape I O) :
    tape.toLabel.bind Tape.input = tape.input := by
  obtain ⟨_ | input, _ | output⟩ := tape <;> rfl

theorem Tape.toLabel_bind_output {I O : Type} (tape : Tape I O) :
    tape.toLabel.bind Tape.output = tape.output := by
  obtain ⟨_ | input, _ | output⟩ := tape <;> rfl

theorem Pairing.transducer_keyed {I M O : Type} [BEq M] [LawfulBEq M] :
    (Pairing.transducer : Pairing (Tape I M) (Tape M O) (Tape I O)).Keyed (·.bind Tape.output)
      (·.bind Tape.input) fun a b => (Tape.mk (a.bind Tape.input) (b.bind Tape.output)).toLabel where
  leftAlone a label := by
    obtain _ | ⟨input, _ | output⟩ := a <;> simp [transducer, Tape.toLabel]
  rightAlone b label := by
    obtain _ | ⟨_ | input, output⟩ := b <;> simp [transducer, Tape.toLabel]
  together a b label := by
    obtain _ | ⟨i, _ | o⟩ := a <;> obtain _ | ⟨_ | i', o'⟩ := b <;> simp only [transducer]
    case some.some.some.some =>
      by_cases h : o = i'
      · simp [h]
      · simp [h, Ne.symm h]
    all_goals simp

/-- The moves of the left operand. -/
def PairTransition.lefts (path : List (PairTransition S₁ S₂ T₁ T₂ L)) : List T₁ :=
  path.filterMap PairTransition.left

/-- The moves of the right operand. -/
def PairTransition.rights (path : List (PairTransition S₁ S₂ T₁ T₂ L)) : List T₂ :=
  path.filterMap PairTransition.right

open PairTransition

namespace Automaton

section Paths

variable [Zero W] [One W] [Mul W] [BEq W]
variable {pairing : Pairing L₁ L₂ L} {leftKey : Option L₁ → Option K} {rightKey : Option L₂ → Option K}
variable {combine : Option L₁ → Option L₂ → Option L}
variable {A : Automaton Id L₁ S₁ T₁ W} {B : Automaton Id L₂ S₂ T₂ W}

theorem mem_leaving_product (h : pairing.Keyed leftKey rightKey combine) {s : PairState S₁ S₂}
    {u : PairTransition S₁ S₂ T₁ T₂ L} : u ∈ (A.product pairing B).leaving s ↔
      (∃ t ∈ A.leaving s.left, s.filter = .free ∧ leftKey (A.label t) = none ∧
        u = ⟨s, ⟨A.target t, s.right, .free⟩, some t, none, combine (A.label t) none⟩) ∨
      (∃ t ∈ B.leaving s.right, rightKey (B.label t) = none ∧
        u = ⟨s, ⟨s.left, B.target t, .rightOnly⟩, none, some t, combine none (B.label t)⟩) ∨
      ∃ t₁ ∈ A.leaving s.left, ∃ t₂ ∈ B.leaving s.right,
        (∃ k, leftKey (A.label t₁) = some k ∧ rightKey (B.label t₂) = some k) ∧
        u = ⟨s, ⟨A.target t₁, B.target t₂, .free⟩, some t₁, some t₂,
          combine (A.label t₁) (B.label t₂)⟩ := by
  rw [leaving_product]
  constructor
  · intro hu
    obtain ⟨t, ht, label, hf, hl, rfl⟩ | ⟨t, ht, label, hl, rfl⟩ | ⟨t₁, h₁, t₂, h₂, label, hl, rfl⟩ :=
      mem_pairMoves_cases hu
    · obtain ⟨hk, rfl⟩ := (h.leftAlone _ _).1 hl
      exact .inl ⟨t, ht, hf, hk, rfl⟩
    · obtain ⟨hk, rfl⟩ := (h.rightAlone _ _).1 hl
      exact .inr (.inl ⟨t, ht, hk, rfl⟩)
    · obtain ⟨hk, rfl⟩ := (h.together _ _ _).1 hl
      exact .inr (.inr ⟨t₁, h₁, t₂, h₂, hk, rfl⟩)
  · rintro (⟨t, ht, hf, hk, rfl⟩ | ⟨t, ht, hk, rfl⟩ | ⟨t₁, h₁, t₂, h₂, hk, rfl⟩)
    · refine mem_pairMoves.2 (.inl ⟨hf, t, ht, Move.attach?_eq_some.2 ⟨_, ?_, rfl⟩⟩)
      exact (h.leftAlone _ _).2 ⟨hk, rfl⟩
    · refine mem_pairMoves.2 (.inr (.inl ⟨t, ht, Move.attach?_eq_some.2 ⟨_, ?_, rfl⟩⟩))
      exact (h.rightAlone _ _).2 ⟨hk, rfl⟩
    · refine mem_pairMoves.2 (.inr (.inr ⟨t₁, h₁, t₂, h₂, Move.attach?_eq_some.2 ⟨_, ?_, rfl⟩⟩))
      exact (h.together _ _ _).2 ⟨hk, rfl⟩

/-- The two sides of a path of the product are paths with the same keys. -/
theorem sides_of_isPath (h : pairing.Keyed leftKey rightKey combine) {s : PairState S₁ S₂}
    {path : List (PairTransition S₁ S₂ T₁ T₂ L)} (hp : (A.product pairing B).IsPath s path) :
    A.IsPath s.left (lefts path) ∧ B.IsPath s.right (rights path) ∧
      (lefts path).filterMap (fun t => leftKey (A.label t)) =
        (rights path).filterMap (fun t => rightKey (B.label t)) := by
  induction path generalizing s with
  | nil => simp [lefts, rights]
  | cons u path ih =>
    obtain ⟨hl, hr, hk⟩ := ih hp.2
    obtain ⟨t, ht, _, hn, rfl⟩ | ⟨t, ht, hn, rfl⟩ | ⟨t₁, h₁, t₂, h₂, ⟨k, hk₁, hk₂⟩, rfl⟩ :=
      (mem_leaving_product h).1 hp.1
    · exact ⟨⟨ht, hl⟩, hr, by simpa [lefts, rights, hn] using hk⟩
    · exact ⟨hl, ⟨ht, hr⟩, by simpa [lefts, rights, hn] using hk⟩
    · exact ⟨⟨h₁, hl⟩, ⟨h₂, hr⟩, by simpa [lefts, rights, hk₁, hk₂] using hk⟩

theorem endpoint_sides (h : pairing.Keyed leftKey rightKey combine) {s : PairState S₁ S₂}
    {path : List (PairTransition S₁ S₂ T₁ T₂ L)} (hp : (A.product pairing B).IsPath s path) :
    ((A.product pairing B).endpoint s path).left = A.endpoint s.left (lefts path) ∧
      ((A.product pairing B).endpoint s path).right = B.endpoint s.right (rights path) := by
  induction path generalizing s with
  | nil => exact ⟨rfl, rfl⟩
  | cons u path ih =>
    obtain ⟨hl, hr⟩ := ih hp.2
    obtain ⟨_, _, _, _, rfl⟩ | ⟨_, _, _, rfl⟩ | ⟨_, _, _, _, _, rfl⟩ :=
      (mem_leaving_product h).1 hp.1 <;> exact ⟨hl, hr⟩

/-- Some side takes part in every move. -/
theorem eq_nil_of_sides (h : pairing.Keyed leftKey rightKey combine) {s : PairState S₁ S₂}
    {path : List (PairTransition S₁ S₂ T₁ T₂ L)} (hp : (A.product pairing B).IsPath s path)
    (hl : lefts path = []) (hr : rights path = []) : path = [] := by
  cases path with
  | nil => rfl
  | cons u path =>
    obtain ⟨_, _, _, _, rfl⟩ | ⟨_, _, _, rfl⟩ | ⟨_, _, _, _, _, rfl⟩ :=
      (mem_leaving_product h).1 hp.1
    · cases hl
    · cases hr
    · cases hl

/-- After a move of the right operand alone the left one takes part only in a joint move. -/
theorem leftKey_of_rightOnly (h : pairing.Keyed leftKey rightKey combine) {s : PairState S₁ S₂}
    {path : List (PairTransition S₁ S₂ T₁ T₂ L)} (hp : (A.product pairing B).IsPath s path)
    (hs : s.filter = .rightOnly) {t : T₁} {ts : List T₁} (hl : lefts path = t :: ts) :
    leftKey (A.label t) ≠ none := by
  induction path generalizing s with
  | nil => simp [lefts] at hl
  | cons u path ih =>
    obtain ⟨_, _, hf, _, rfl⟩ | ⟨_, _, _, rfl⟩ | ⟨t₁, _, _, _, ⟨k, hk, _⟩, rfl⟩ :=
      (mem_leaving_product h).1 hp.1
    · rw [hs] at hf
      cases hf
    · exact ih hp.2 rfl hl
    · obtain ⟨rfl, -⟩ := List.cons.inj hl
      simp [hk]

/-- Left moves without a key come first, then right ones, then a joint move. From a state in which
the left operand has to wait, its next move must have a key. -/
theorem exists_interleaving (h : pairing.Keyed leftKey rightKey combine) {s : PairState S₁ S₂}
    {ts : List T₁} {us : List T₂} (ht : A.IsPath s.left ts) (hu : B.IsPath s.right us)
    (hk : ts.filterMap (fun t => leftKey (A.label t)) = us.filterMap (fun t => rightKey (B.label t)))
    (hs : s.filter = .rightOnly → ∀ t ∈ ts.head?, leftKey (A.label t) ≠ none) :
    ∃ path, (A.product pairing B).IsPath s path ∧ lefts path = ts ∧ rights path = us := by
  induction hn : ts.length + us.length using Nat.strongRecOn generalizing s ts us with
  | ind n ih =>
    subst hn
    by_cases hleft : ∃ t ts', ts = t :: ts' ∧ leftKey (A.label t) = none
    · obtain ⟨t, ts, rfl, hnone⟩ := hleft
      have hf : s.filter = .free := by
        cases hf : s.filter with
        | free => rfl
        | rightOnly => exact absurd hnone (hs hf t rfl)
      obtain ⟨path, hp, hl, hr⟩ := ih (ts.length + us.length) (by simp)
        (s := ⟨A.target t, s.right, .free⟩) ht.2 hu (by simpa [hnone] using hk) nofun rfl
      have hmove := (mem_leaving_product (A := A) (B := B) h).2 (.inl ⟨t, ht.1, hf, hnone, rfl⟩)
      exact ⟨_ :: path, ⟨hmove, hp⟩, congrArg (t :: ·) hl, hr⟩
    have hleft : ∀ t ∈ ts.head?, leftKey (A.label t) ≠ none := by
      intro t ht hnone
      cases ts with
      | nil => cases ht
      | cons t' ts => cases ht; exact hleft ⟨t, ts, rfl, hnone⟩
    cases us with
    | nil =>
      cases ts with
      | nil => exact ⟨[], trivial, rfl, rfl⟩
      | cons t ts =>
        obtain ⟨k, hk'⟩ := Option.ne_none_iff_exists'.1 (hleft t rfl)
        simp [hk'] at hk
    | cons u us =>
      cases hu' : rightKey (B.label u) with
      | none =>
        obtain ⟨path, hp, hl, hr⟩ := ih (ts.length + us.length) (by simp)
          (s := ⟨s.left, B.target u, .rightOnly⟩) ht hu.2 (by simpa [hu'] using hk)
          (fun _ => hleft) rfl
        have hmove := (mem_leaving_product (A := A) (B := B) h).2 (.inr (.inl ⟨u, hu.1, hu', rfl⟩))
        exact ⟨_ :: path, ⟨hmove, hp⟩, hl, congrArg (u :: ·) hr⟩
      | some k =>
        cases ts with
        | nil => simp [hu'] at hk
        | cons t ts =>
          obtain ⟨k', hk'⟩ := Option.ne_none_iff_exists'.1 (hleft t rfl)
          simp only [List.filterMap_cons, hk', hu', List.cons.injEq] at hk
          obtain ⟨rfl, hk⟩ := hk
          obtain ⟨path, hp, hl, hr⟩ := ih (ts.length + us.length) (by simp; omega)
            (s := ⟨A.target t, B.target u, .free⟩) ht.2 hu.2 hk nofun rfl
          have hmove := (mem_leaving_product (A := A) (B := B) h).2
            (.inr (.inr ⟨t, ht.1, u, hu.1, ⟨k', hk', hu'⟩, rfl⟩))
          exact ⟨_ :: path, ⟨hmove, hp⟩, congrArg (t :: ·) hl, congrArg (u :: ·) hr⟩

theorem interleaving_unique (h : pairing.Keyed leftKey rightKey combine) {s : PairState S₁ S₂}
    {path path' : List (PairTransition S₁ S₂ T₁ T₂ L)}
    (hp : (A.product pairing B).IsPath s path) (hp' : (A.product pairing B).IsPath s path')
    (hl : lefts path = lefts path') (hr : rights path = rights path') : path = path' := by
  induction path generalizing s path' with
  | nil => exact (eq_nil_of_sides h hp' hl.symm hr.symm).symm
  | cons u path ih =>
    cases path' with
    | nil => exact eq_nil_of_sides h hp hl hr
    | cons v path' =>
      obtain ⟨t, _, _, hn, rfl⟩ | ⟨t, _, hn, rfl⟩ | ⟨t₁, _, t₂, _, ⟨k, hk₁, hk₂⟩, rfl⟩ :=
        (mem_leaving_product h).1 hp.1 <;>
      obtain ⟨t', _, _, hn', rfl⟩ | ⟨t', _, hn', rfl⟩ | ⟨t₁', _, t₂', _, ⟨k', hk₁', hk₂'⟩, rfl⟩ :=
        (mem_leaving_product h).1 hp'.1
      · obtain ⟨rfl, hl'⟩ := List.cons.inj hl
        rw [ih hp.2 hp'.2 hl' hr]
      · exact absurd hn (leftKey_of_rightOnly h hp'.2 rfl hl.symm)
      · obtain ⟨rfl, -⟩ := List.cons.inj hl
        simp [hn] at hk₁'
      · exact absurd hn' (leftKey_of_rightOnly h hp.2 rfl hl)
      · obtain ⟨rfl, hr'⟩ := List.cons.inj hr
        rw [ih hp.2 hp'.2 hl hr']
      · obtain ⟨rfl, -⟩ := List.cons.inj hr
        simp [hn] at hk₂'
      · obtain ⟨rfl, -⟩ := List.cons.inj hl
        simp [hn'] at hk₁
      · obtain ⟨rfl, -⟩ := List.cons.inj hr
        simp [hn'] at hk₂
      · obtain ⟨rfl, hl'⟩ := List.cons.inj hl
        obtain ⟨rfl, hr'⟩ := List.cons.inj hr
        rw [ih hp.2 hp'.2 hl' hr']

theorem label_of_mem_path (h : pairing.Keyed leftKey rightKey combine) {s : PairState S₁ S₂}
    {path : List (PairTransition S₁ S₂ T₁ T₂ L)} (hp : (A.product pairing B).IsPath s path) :
    ∀ u ∈ path, u.label = combine (u.left.bind A.label) (u.right.bind B.label) := by
  induction path generalizing s with
  | nil => nofun
  | cons u path ih =>
    intro v hv
    obtain rfl | hv := List.mem_cons.1 hv
    · obtain ⟨_, _, _, _, rfl⟩ | ⟨_, _, _, rfl⟩ | ⟨_, _, _, _, _, rfl⟩ :=
        (mem_leaving_product h).1 hp.1 <;> rfl
    · exact ih hp.2 v hv

/-- What the labels of a product keep of the left labels is read off the left side of a path. -/
theorem labels_filterMap_left {X : Type} (h : pairing.Keyed leftKey rightKey combine)
    {f : L → Option X} {g : L₁ → Option X} (hfg : ∀ a b, (combine a b).bind f = a.bind g)
    {s : PairState S₁ S₂} {path : List (PairTransition S₁ S₂ T₁ T₂ L)}
    (hp : (A.product pairing B).IsPath s path) :
    ((A.product pairing B).labels path).filterMap f = (A.labels (lefts path)).filterMap g := by
  simp only [labels, lefts, List.filterMap_filterMap]
  apply List.filterMap_congr
  intro u hu
  change u.label.bind f = _
  rw [label_of_mem_path h hp u hu, hfg]

theorem labels_filterMap_right {X : Type} (h : pairing.Keyed leftKey rightKey combine)
    {f : L → Option X} {g : L₂ → Option X} (hfg : ∀ a b, (combine a b).bind f = b.bind g)
    {s : PairState S₁ S₂} {path : List (PairTransition S₁ S₂ T₁ T₂ L)}
    (hp : (A.product pairing B).IsPath s path) :
    ((A.product pairing B).labels path).filterMap f = (B.labels (rights path)).filterMap g := by
  simp only [labels, rights, List.filterMap_filterMap]
  apply List.filterMap_congr
  intro u hu
  change u.label.bind f = _
  rw [label_of_mem_path h hp u hu, hfg]

end Paths

/-- The product `P` meets every pair of matching paths exactly once. `Matching` relates paths of the
operands, and `Reads` what a path of the product reads to its sides. -/
structure PairsOnce (P : Automaton Id L (PairState S₁ S₂) (PairTransition S₁ S₂ T₁ T₂ L) W)
    (A : Automaton Id L₁ S₁ T₁ W) (B : Automaton Id L₂ S₂ T₂ W)
    (Matching : List T₁ → List T₂ → Prop) (Reads : List L → List T₁ → List T₂ → Prop) : Prop where
  exactly_one : ∀ p q ts us, A.IsPath p ts → B.IsPath q us → Matching ts us →
    ∃! path, P.IsPath ⟨p, q, .free⟩ path ∧ lefts path = ts ∧ rights path = us
  none : ∀ p q ts us, ¬ Matching ts us →
    ¬ ∃ path, P.IsPath ⟨p, q, .free⟩ path ∧ lefts path = ts ∧ rights path = us
  sides : ∀ p q path, P.IsPath ⟨p, q, .free⟩ path →
    A.IsPath p (lefts path) ∧ B.IsPath q (rights path) ∧ Matching (lefts path) (rights path)
  reads : ∀ p q path, P.IsPath ⟨p, q, .free⟩ path →
    Reads (P.labels path) (lefts path) (rights path)
  /-- A path is as often in the product as its steps are listed: no step is listed twice unless an
  operand does so. -/
  listed_once : ∀ s, (A.leaving s.left).Nodup → (B.leaving s.right).Nodup → (P.leaving s).Nodup

theorem product_pairsOnce [Zero W] [One W] [Mul W] [BEq W] {pairing : Pairing L₁ L₂ L}
    {leftKey : Option L₁ → Option K} {rightKey : Option L₂ → Option K}
    {combine : Option L₁ → Option L₂ → Option L} (h : pairing.Keyed leftKey rightKey combine)
    (A : Automaton Id L₁ S₁ T₁ W) (B : Automaton Id L₂ S₂ T₂ W)
    {Reads : List L → List T₁ → List T₂ → Prop}
    (hr : ∀ s path, (A.product pairing B).IsPath s path →
      Reads ((A.product pairing B).labels path) (lefts path) (rights path)) :
    (A.product pairing B).PairsOnce A B
      (fun ts us => ts.filterMap (fun t => leftKey (A.label t)) =
        us.filterMap (fun t => rightKey (B.label t))) Reads where
  exactly_one p q ts us ht hu hk := by
    obtain ⟨path, hp, hl, hr⟩ := exists_interleaving h (s := ⟨p, q, .free⟩) ht hu hk nofun
    refine ⟨path, ⟨hp, hl, hr⟩, fun path' ⟨hp', hl', hr'⟩ => ?_⟩
    exact interleaving_unique h hp' hp (hl'.trans hl.symm) (hr'.trans hr.symm)
  none p q ts us hk := by
    rintro ⟨path, hp, rfl, rfl⟩
    exact hk (sides_of_isPath h hp).2.2
  sides _ _ _ hp := sides_of_isPath h hp
  reads _ _ _ hp := hr _ _ hp
  listed_once _ hA hB := nodup_pairMoves hA hB

/-- Paths of acceptors match if they read the same string, which is what the intersection reads.
Paths of transducers match if the right one reads what the left one writes; the composition reads
what the left one reads and writes what the right one writes. -/
theorem product_pairs_paths_once {I M O S₃ S₄ T₃ T₄ V : Type} [BEq L] [LawfulBEq L] [BEq M]
    [LawfulBEq M] [Zero W] [One W] [Mul W] [BEq W] [Zero V] [One V] [Mul V] [BEq V]
    (A : Automaton Id L S₁ T₁ W) (B : Automaton Id L S₂ T₂ W)
    (C : Automaton Id (Tape I M) S₃ T₃ V) (D : Automaton Id (Tape M O) S₄ T₄ V) :
    (A.intersection B).PairsOnce A B (fun ts us => A.labels ts = B.labels us)
      (fun x ts us => x = A.labels ts ∧ x = B.labels us) ∧
    (C.composition D).PairsOnce C D
      (fun ts us =>
        (C.labels ts).filterMap Tape.output = (D.labels us).filterMap Tape.input)
      (fun x ts us => x.filterMap Tape.input = (C.labels ts).filterMap Tape.input ∧
        x.filterMap Tape.output = (D.labels us).filterMap Tape.output) := by
  constructor
  · apply product_pairsOnce Pairing.acceptor_keyed A B
    intro s path hp
    have hread := labels_filterMap_left Pairing.acceptor_keyed (f := some) (g := some)
      (fun _ _ => rfl) hp
    have hsame := (sides_of_isPath Pairing.acceptor_keyed hp).2.2
    simp only [List.filterMap_some] at hread
    exact ⟨hread, hread.trans hsame⟩
  · simp only [labels, List.filterMap_filterMap]
    apply product_pairsOnce Pairing.transducer_keyed C D
    intro s path hp
    have hin := labels_filterMap_left Pairing.transducer_keyed
      (fun _ _ => Tape.toLabel_bind_input _) hp
    have hout := labels_filterMap_right Pairing.transducer_keyed
      (fun _ _ => Tape.toLabel_bind_output _) hp
    simp only [labels, List.filterMap_filterMap] at hin hout ⊢
    exact ⟨hin, hout⟩

theorem one_sided_tapes_pair_once :
    (∃! path, ((singleString [7] : Automaton Id ℕ ℕ ℕ ℕ).intersection (singleString [7])).IsPath
      ⟨0, 0, .free⟩ path ∧ lefts path = [0] ∧ rights path = [0]) ∧
    ∃! path, ((singleString [⟨some 1, none⟩, ⟨some 2, some 3⟩] :
        Automaton Id (Tape ℕ ℕ) ℕ ℕ ℕ).composition
      (singleString [⟨none, some 4⟩, ⟨some 3, none⟩] : Automaton Id (Tape ℕ ℕ) ℕ ℕ ℕ)).IsPath
      ⟨0, 0, .free⟩ path ∧ lefts path = [0, 1] ∧ rights path = [0, 1] := by
  have h := product_pairs_paths_once
    (singleString [7] : Automaton Id ℕ ℕ ℕ ℕ) (singleString [7] : Automaton Id ℕ ℕ ℕ ℕ)
    (singleString [⟨some 1, none⟩, ⟨some 2, some 3⟩] : Automaton Id (Tape ℕ ℕ) ℕ ℕ ℕ)
    (singleString [⟨none, some 4⟩, ⟨some 3, none⟩] : Automaton Id (Tape ℕ ℕ) ℕ ℕ ℕ)
  have hstep (x : List (Tape ℕ ℕ)) (hx : x.length = 2) :
      (singleString x : Automaton Id (Tape ℕ ℕ) ℕ ℕ ℕ).IsPath 0 [0, 1] := by
    simp [hx]
  constructor
  · exact h.1.exactly_one 0 0 [0] [0] (by simp) (by simp) rfl
  · exact h.2.exactly_one 0 0 [0, 1] [0, 1] (hstep _ rfl) (hstep _ rfl) rfl

end Automaton

end WeightedAutomata
