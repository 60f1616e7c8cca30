import WeightedAutomata.Proofs.StringWeight
import WeightedAutomata.View.EpsilonClosure

/-!
Sums over the paths that read a string, label by label: epsilon transitions are summed up before and
after each label.
-/
namespace WeightedAutomata.Automaton

open scoped BigOperators

variable {L S T W : Type} [BEq L] [LawfulBEq L] [Semiring W]

section Operators

variable (A : Automaton Id L S T W)

/-- The sum over the transitions with one label, or without a label, that leave a state. -/
def onLabel (l : Option L) (g : S → W) (s : S) : W :=
  ((A.leaving s).map fun t => if A.label t == l then A.cost t * g (A.target t) else 0).sum

/-- The sum over the initial states. -/
def fromStarts (g : S → W) : W := (A.starts.map fun s => A.entry s * g s).sum

variable [BEq S] [BEq W] (size : S → ℕ)

/-- The sum over the paths without labels. -/
def closing (g : S → W) (s : S) : W := (A.epsilonPart []).pathSum (size s) g s

/-- The sum over the paths that read a string from its first label to its last. -/
def after (g : S → W) : List L → S → W
  | [] => g
  | a :: u => A.onLabel (some a) (A.closing size (after g u))

end Operators

variable {A : Automaton Id L S T W}

theorem onLabel_congr {l : Option L} {f g : S → W} {s : S}
    (h : ∀ t ∈ A.leaving s, A.label t = l → f (A.target t) = g (A.target t)) :
    A.onLabel l f s = A.onLabel l g s := by
  unfold onLabel
  congr 1
  apply List.map_congr_left
  intro t ht
  split
  · next hl => rw [h t ht (eq_of_beq hl)]
  · rfl

omit [BEq L] [LawfulBEq L] in
theorem leaving_epsilonPart [BEq S] [BEq W] (seeds : WeightedStates S W) (s : S) :
    (A.epsilonPart seeds).leaving s = (A.leaving s).filter fun t => (A.label t).isNone := rfl

omit [LawfulBEq L] in
theorem onward_epsilonPart [BEq S] [BEq W] (seeds : WeightedStates S W) (g : S → W) (s : S) :
    (A.epsilonPart seeds).onward g s = A.onLabel none g s := by
  rw [onward, leaving_epsilonPart, sum_map_filter, onLabel]
  congr 1
  apply List.map_congr_left
  intro t _
  cases A.label t <;> rfl

omit [BEq L] [LawfulBEq L] in
theorem isPath_of_epsilonPart [BEq S] [BEq W] {seeds : WeightedStates S W} {s : S} {ts : List T}
    (h : (A.epsilonPart seeds).IsPath s ts) : A.IsPath s ts ∧ A.labels ts = [] := by
  induction ts generalizing s with
  | nil => exact ⟨trivial, rfl⟩
  | cons t ts ih =>
    obtain ⟨hpath, hlabels⟩ := ih h.2
    obtain ⟨ht, hl⟩ := List.mem_filter.1 h.1
    refine ⟨⟨ht, hpath⟩, ?_⟩
    rw [labels_cons, Option.isNone_iff_eq_none.1 hl, Option.elim_none, hlabels]

omit [BEq L] [LawfulBEq L] in
theorem closed_epsilonPart [BEq S] [BEq W] (seeds : WeightedStates S W) {R : S → Prop}
    (h : A.Closed R) : (A.epsilonPart seeds).Closed R :=
  fun s hs t ht => h s hs t (List.mem_filter.1 ht).1

omit [BEq L] [LawfulBEq L] in
theorem Closed.exists_bounded_epsilonPart [BEq S] [BEq W] {R : S → Prop} (hc : A.Closed R)
    (hfinite : {s | R s}.Finite) (hepsilon : ∀ s, R s → ∀ ts, ts ≠ [] → A.IsPath s ts →
      A.labels ts = [] → A.endpoint s ts ≠ s) :
    ∃ closure, (A.epsilonPart []).Bounded R closure := by
  apply exists_bounded (closed_epsilonPart [] hc) hfinite
  intro s hs ts hne hpath
  obtain ⟨hpath, hlabels⟩ := isPath_of_epsilonPart hpath
  exact hepsilon s hs ts hne hpath hlabels

omit [BEq L] [LawfulBEq L] in
theorem exists_bounded_epsilonPart [BEq S] [BEq W] (hfinite : {s | A.Reachable s}.Finite)
    (hepsilon : A.EpsilonAcyclic) : ∃ closure, (A.epsilonPart []).Bounded A.Reachable closure :=
  A.closed_reachable.exists_bounded_epsilonPart hfinite hepsilon

omit [LawfulBEq L] in
theorem after_append [BEq S] [BEq W] (closure : S → ℕ) (g : S → W) (u v : List L) :
    A.after closure g (u ++ v) = A.after closure (A.after closure g v) u := by
  induction u with
  | nil => rfl
  | cons a u ih => rw [List.cons_append, after, ih, after]

section Closing

variable [BEq S] [BEq W] {size : S → ℕ} {R : S → Prop} (hb : (A.epsilonPart []).Bounded R size)
include hb

omit [LawfulBEq L] in
theorem closing_eq (g : S → W) {s : S} (hs : R s) :
    A.closing size g s = g s + A.onLabel none (A.closing size g) s := by
  rw [closing, hb.pathSum_eq_add g hs, onward_epsilonPart]
  rfl

end Closing

section Reading

variable [BEq W] {x : List L} {size : PairState S ℕ → ℕ}

theorem rest_eq {R : PairState S ℕ → Prop} (hb : (A.reading x).Bounded R size) {s : S} {j : ℕ}
    (hs : R ⟨s, j, .free⟩) : A.rest x size s j =
      (A.exit s * if j = x.length then 1 else 0) +
        (A.onLabel none (fun q => A.rest x size q j) s +
          (x[j]?).elim 0 fun a => A.onLabel (some a) (fun q => A.rest x size q (j + 1)) s) := by
  rw [rest, hb.pathSum_eq_add _ hs, onward_reading]
  congr 1
  rw [onLabel]
  cases hx : x[j]? with
  | none =>
    rw [Option.elim_none, add_zero]
    congr 1
    apply List.map_congr_left
    intro t _
    rw [follow]
    cases A.label t with
    | none => rfl
    | some a => simp [hx]
  | some a =>
    rw [Option.elim_some, onLabel, ← List.sum_map_add]
    congr 1
    apply List.map_congr_left
    intro t _
    rw [follow]
    cases A.label t with
    | none => simp [rest]
    | some b =>
      by_cases hab : a = b
      · simp [hx, hab, rest]
      · simp [hx, hab, Ne.symm hab]

theorem exists_leaving_reading {s : S} {j : ℕ} {t : T} (ht : t ∈ A.leaving s)
    (hl : A.label t = none ∨ ∃ a, A.label t = some a ∧ x[j]? = some a) :
    ∃ u ∈ (A.reading x).leaving ⟨s, j, .free⟩,
      u.target = ⟨A.target t, if A.label t = none then j else j + 1, .free⟩ := by
  rcases hl with hl | ⟨a, hl, hx⟩
  · refine ⟨_, (mem_leaving_product Pairing.acceptor_keyed).2 (.inl ⟨t, ht, rfl, hl, rfl⟩), ?_⟩
    rw [if_pos hl]
  · have hlt : j < x.length := (List.getElem?_eq_some_iff.1 hx).1
    refine ⟨_, (mem_leaving_product Pairing.acceptor_keyed).2
      (.inr (.inr ⟨t, ht, j, by simp [hlt], ⟨a, hl, hx⟩, rfl⟩)), ?_⟩
    rw [if_neg (by simp [hl])]
    rfl

section Closing

variable [BEq S] {closure : S → ℕ} (hc : (A.epsilonPart []).Bounded A.Reachable closure)
  (hb : (A.reading x).Bounded (A.reading x).Reachable size)
include hc hb

/-- From a reachable pair on, the rest of the string is read label by label. -/
theorem rest_eq_closing [LawfulBEq W] {s : S} {j : ℕ}
    (hs : (A.reading x).Reachable ⟨s, j, .free⟩) :
    A.rest x size s j = A.closing closure (A.after closure A.exit (x.drop j)) s := by
  induction hn : size ⟨s, j, .free⟩ using Nat.strongRecOn generalizing s j with
  | ind n ih =>
    subst hn
    obtain ⟨hreach, hj, -⟩ := reachable_reading hs
    have hstep {t : T} (ht : t ∈ A.leaving s)
        (hl : A.label t = none ∨ ∃ a, A.label t = some a ∧ x[j]? = some a) :
        A.rest x size (A.target t) (if A.label t = none then j else j + 1) =
          A.closing closure (A.after closure A.exit
            (x.drop (if A.label t = none then j else j + 1))) (A.target t) := by
      obtain ⟨u, hu, htarget⟩ := exists_leaving_reading ht hl
      have hlt := hb.target_lt hs hu
      have hnext := hs.step hu
      rw [show (A.reading x).target u = u.target from rfl, htarget] at hlt hnext
      exact ih _ hlt hnext rfl
    rw [rest_eq hb hs, closing_eq hc _ hreach, ← add_assoc, add_comm (A.exit s * _), add_assoc,
      add_comm]
    congr 1
    · cases hx : x[j]? with
      | none =>
        have hend : j = x.length := Nat.le_antisymm hj (List.getElem?_eq_none_iff.1 hx)
        rw [hend, List.drop_length, after, if_pos rfl, mul_one, Option.elim_none, add_zero]
      | some a =>
        obtain ⟨hlt, hget⟩ := List.getElem?_eq_some_iff.1 hx
        rw [List.drop_eq_getElem_cons hlt, hget, after, if_neg (Nat.ne_of_lt hlt), mul_zero,
          zero_add, Option.elim_some]
        apply onLabel_congr
        intro t ht hl
        have hrest := hstep ht (.inr ⟨a, hl, hx⟩)
        rwa [if_neg (by simp [hl])] at hrest
    · apply onLabel_congr
      intro t ht hl
      have hrest := hstep ht (.inl hl)
      rwa [if_pos hl] at hrest

theorem fromStarts_rest [LawfulBEq W] (hA : A.Lawful) :
    (A.starts.map fun s => A.entry s * A.rest x size s 0).sum =
      A.fromStarts (A.closing closure (A.after closure A.exit x)) := by
  unfold fromStarts
  congr 1
  apply List.map_congr_left
  intro s hs
  rw [rest_eq_closing hc hb, List.drop_zero]
  refine .start ?_
  rw [starts_reading hA]
  exact List.mem_map.2 ⟨s, hs, rfl⟩

end Closing

end Reading

section StringWeight

variable [BEq S] [LawfulBEq S] [Hashable S] [BEq W] [LawfulBEq W]
variable {m : Type → Type} [Monad m] [LawfulMonad m] [StepLimited m]

/-- The weight of a string, by the sums over the paths that read it label by label. -/
theorem Answers.exists_stringWeight_eq {B : Automaton m L S T W} {R : S → Prop} (h : B.Answers A R)
    (hA : A.Lawful) (hfinite : {s | A.Reachable s}.Finite) (hepsilon : A.EpsilonAcyclic)
    {closure : S → ℕ} (hc : (A.epsilonPart []).Bounded A.Reachable closure) (queue : Queue W)
    (x : List L) : ∃ n, ∀ budget, n ≤ budget → B.stringWeight budget ⟨queue, .exact⟩ x =
      pure (A.fromStarts (A.closing closure (A.after closure A.exit x))) := by
  obtain ⟨size, hb⟩ := exists_bounded_reading hfinite hepsilon x
  refine ⟨(A.starts.map fun s => size ⟨s, 0, .free⟩).sum + 2, fun budget hbudget => ?_⟩
  rw [h.stringWeight_eq hA hb queue (by omega), fromStarts_rest hc hb hA]

end StringWeight

/-- The automaton with every state final, of weight one. -/
def allFinal (A : Automaton Id L S T W) : Automaton Id L S T W :=
  { A with finalWeight := fun _ => pure 1 }

/-- The sum over the paths from initial states that read a string, wherever they end. -/
noncomputable def arrival (A : Automaton Id L S T W) (u : List L) : W :=
  ∑ᶠ c ∈ {c ∈ A.allFinal.numbered.completePaths | A.allFinal.numbered.labels c.2 = u},
    A.allFinal.numbered.completeWeight c

omit [BEq L] [LawfulBEq L] in
theorem reachable_allFinal {s : S} : A.allFinal.Reachable s ↔ A.Reachable s := by
  constructor
  · intro h
    induction h with
    | start hs => exact .start hs
    | step _ ht ih => exact ih.step ht
  · intro h
    induction h with
    | start hs => exact .start hs
    | step _ ht ih => exact Reachable.step ih ht

omit [BEq L] [LawfulBEq L] in
theorem isPath_allFinal {s : S} {ts : List T} : A.allFinal.IsPath s ts ↔ A.IsPath s ts := by
  induction ts generalizing s with
  | nil => exact Iff.rfl
  | cons t ts ih => exact and_congr_right fun _ => ih

omit [LawfulBEq L] in
theorem after_allFinal [BEq S] [BEq W] (closure : S → ℕ) (g : S → W) (u : List L) :
    A.allFinal.after closure g u = A.after closure g u := by
  induction u with
  | nil => rfl
  | cons a u ih =>
    rw [after, ih, after]
    rfl

theorem arrival_eq [BEq S] [BEq W] [LawfulBEq W] (hA : A.Lawful)
    (hfinite : {s | A.Reachable s}.Finite) (hepsilon : A.EpsilonAcyclic) {closure : S → ℕ}
    (hc : (A.epsilonPart []).Bounded A.Reachable closure) (u : List L) :
    A.arrival u = A.fromStarts (A.closing closure (A.after closure (fun _ => 1) u)) := by
  have hA' : A.allFinal.Lawful := ⟨hA.starts_nodup, hA.mem_starts, hA.source_eq⟩
  have hfinite' : {s | A.allFinal.Reachable s}.Finite := by simpa only [reachable_allFinal]
  have hepsilon' : A.allFinal.EpsilonAcyclic := fun s hs ts hne hpath =>
    hepsilon s (reachable_allFinal.1 hs) ts hne (isPath_allFinal.1 hpath)
  have hc' : (A.allFinal.epsilonPart []).Bounded A.allFinal.Reachable closure :=
    ⟨closed_epsilonPart [] A.allFinal.closed_reachable,
      fun s hs => hc.sum_lt s (reachable_allFinal.1 hs)⟩
  obtain ⟨size, hb⟩ := exists_bounded_reading hfinite' hepsilon' u
  rw [arrival, (finsum_completePaths_reading hA' hb).2, fromStarts_rest hc' hb hA', after_allFinal]
  rfl

end WeightedAutomata.Automaton
