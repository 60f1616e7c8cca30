import WeightedAutomata.Proofs.Determinization.Closure
import WeightedAutomata.View.Determinization

/-!
The labeled transitions of a subset, grouped by label: each group has the sums of its label.
-/
namespace WeightedAutomata

variable {m : Type → Type} {L S T W : Type} [BEq L] [LawfulBEq L]

/-- The seeds grouped under a label, none where the label has no group. -/
def seedsOf (groups : List (L × WeightedStates S W)) (a : L) : WeightedStates S W :=
  (groups.lookup a).getD []

section AddSeed

variable {groups : List (L × WeightedStates S W)} {a l : L} {seed : S × W}

omit [LawfulBEq L] in
@[simp] theorem seedsOf_nil (a : L) : seedsOf ([] : List (L × WeightedStates S W)) a = [] := rfl

theorem seedsOf_cons (l : L) (seeds : WeightedStates S W) (groups : List (L × WeightedStates S W))
    (a : L) : seedsOf ((l, seeds) :: groups) a = if l == a then seeds else seedsOf groups a := by
  by_cases h : l = a
  · simp [seedsOf, h]
  · have ha : (a == l) = false := by simpa using Ne.symm h
    simp [seedsOf, List.lookup_cons, ha, h]

theorem seedsOf_of_notMem (h : a ∉ groups.map Prod.fst) : seedsOf groups a = [] := by
  rw [seedsOf, List.lookup_eq_none_iff.2 fun p hp => ?_]
  · rfl
  · have hne : a ≠ p.1 := fun heq => h (heq ▸ List.mem_map.2 ⟨p, hp, rfl⟩)
    simpa using hne

theorem seedsOf_of_mem (h : (groups.map Prod.fst).Nodup) {p : L × WeightedStates S W}
    (hp : p ∈ groups) : seedsOf groups p.1 = p.2 := by
  induction groups with
  | nil => cases hp
  | cons q groups ih =>
    obtain ⟨l, seeds⟩ := q
    obtain ⟨hq, hrest⟩ := List.nodup_cons.1 h
    rw [seedsOf_cons]
    rcases List.mem_cons.1 hp with rfl | hp
    · rw [if_pos (beq_self_eq_true l)]
    · have hne : l ≠ p.1 := fun heq => hq (heq ▸ List.mem_map.2 ⟨p, hp, rfl⟩)
      rw [if_neg (by simpa using hne), ih hrest hp]

theorem map_fst_addSeed (l : L) (seed : S × W) (groups : List (L × WeightedStates S W)) :
    (addSeed l seed groups).map Prod.fst =
      if l ∈ groups.map Prod.fst then groups.map Prod.fst else groups.map Prod.fst ++ [l] := by
  induction groups with
  | nil => rfl
  | cons p groups ih =>
    obtain ⟨q, seeds⟩ := p
    rw [addSeed]
    by_cases hq : q = l
    · simp [hq]
    · rw [if_neg (by simpa using hq), List.map_cons, ih]
      exact cons_appendNew hq

theorem nodup_addSeed (h : (groups.map Prod.fst).Nodup) :
    ((addSeed l seed groups).map Prod.fst).Nodup := by
  rw [map_fst_addSeed]
  exact nodup_appendNew h

theorem seedsOf_addSeed (l a : L) (seed : S × W) (groups : List (L × WeightedStates S W)) :
    seedsOf (addSeed l seed groups) a = seedsOf groups a ++ if l == a then [seed] else [] := by
  induction groups with
  | nil => rw [addSeed, seedsOf_cons, seedsOf_nil, List.nil_append]
  | cons p groups ih =>
    obtain ⟨q, seeds⟩ := p
    rw [addSeed]
    by_cases hq : q = l
    · subst hq
      by_cases ha : q = a <;> simp [seedsOf_cons, ha]
    · rw [if_neg (by simpa using hq), seedsOf_cons, seedsOf_cons, ih]
      by_cases ha : q = a
      · subst ha
        simp [Ne.symm hq]
      · simp [ha]

end AddSeed

namespace Automaton

variable [Semiring W] [BEq W]

/-- Groups of reachable seeds, one for each label, that have the sums `value`. -/
structure Groups (A : Automaton Id L S T W) (groups : List (L × WeightedStates S W))
    (value : L → (S → W) → W) : Prop where
  nodup : (groups.map Prod.fst).Nodup
  reachable : ∀ a, ∀ e ∈ seedsOf groups a, A.Reachable e.1
  weigh_eq : ∀ a g, weigh (seedsOf groups a) g = value a g

/-- Puts what a transition carries on into the group of its label. -/
def group (A : Automaton Id L S T W) (residual : W) (groups : List (L × WeightedStates S W))
    (t : T) : List (L × WeightedStates S W) :=
  match A.label t with
  | none => groups
  | some a =>
    let w := residual * A.cost t
    if w == 0 then groups else addSeed a (A.target t, w) groups

variable {A : Automaton Id L S T W} {groups : List (L × WeightedStates S W)}
variable {value : L → (S → W) → W} [LawfulBEq W]

theorem Groups.group (h : A.Groups groups value) {t : T} (ht : A.Reachable (A.target t))
    (residual : W) : A.Groups (A.group residual groups t) fun a g => value a g +
      if A.label t == some a then residual * (A.cost t * g (A.target t)) else 0 := by
  unfold Automaton.group
  cases hl : A.label t with
  | none => exact ⟨h.nodup, h.reachable, fun a g => by simp [h.weigh_eq]⟩
  | some l =>
    dsimp only
    split
    · next hz =>
      refine ⟨h.nodup, h.reachable, fun a g => ?_⟩
      rw [← mul_assoc, eq_of_beq hz, zero_mul, ite_self, add_zero, h.weigh_eq]
    · refine ⟨nodup_addSeed h.nodup, fun a e he => ?_, fun a g => ?_⟩
      · rw [seedsOf_addSeed] at he
        rcases List.mem_append.1 he with he | he
        · exact h.reachable a e he
        · obtain ⟨-, rfl⟩ : l = a ∧ e = (A.target t, residual * A.cost t) := by
            simpa using he
          exact ht
      · rw [seedsOf_addSeed, weigh_append, h.weigh_eq]
        by_cases ha : l = a
        · simp [ha, mul_assoc]
        · simp [ha]

theorem Groups.foldl_group (h : A.Groups groups value) {ts : List T}
    (hts : ∀ t ∈ ts, A.Reachable (A.target t)) (residual : W) :
    A.Groups (ts.foldl (A.group residual) groups) fun a g => value a g +
      residual * (ts.map fun t =>
        if A.label t == some a then A.cost t * g (A.target t) else 0).sum := by
  induction ts generalizing groups value with
  | nil => simpa using h
  | cons t ts ih =>
    have hone := h.group (hts t List.mem_cons_self) residual
    have hrest := ih hone fun u hu => hts u (List.mem_cons_of_mem t hu)
    refine ⟨hrest.nodup, hrest.reachable, fun a g => ?_⟩
    rw [List.foldl_cons, hrest.weigh_eq, List.map_cons, List.sum_cons, mul_add, add_assoc, mul_ite,
      mul_zero]

theorem Groups.foldl_leaving (h : A.Groups groups value) {subset : WeightedStates S W}
    (hsubset : ∀ e ∈ subset, A.Reachable e.1) :
    A.Groups (subset.foldl (fun groups e => (A.leaving e.1).foldl (A.group e.2) groups) groups)
      fun a g => value a g + weigh subset (A.onLabel (some a) g) := by
  induction subset generalizing groups value with
  | nil => simpa using h
  | cons e subset ih =>
    have he : A.Reachable e.1 := hsubset e List.mem_cons_self
    have hone := h.foldl_group (fun t ht => he.step ht) e.2
    have hrest := ih hone fun e' he' => hsubset e' (List.mem_cons_of_mem e he')
    refine ⟨hrest.nodup, hrest.reachable, fun a g => ?_⟩
    rw [List.foldl_cons, hrest.weigh_eq, weigh_cons, add_assoc]
    rfl

theorem Answers.successors_eq [Monad m] [LawfulMonad m] {B : Automaton m L S T W}
    (h : B.Answers A A.Reachable) {subset : WeightedStates S W}
    (hsubset : ∀ e ∈ subset, A.Reachable e.1) : ∃ groups,
      A.Groups groups (fun a g => weigh subset (A.onLabel (some a) g)) ∧
        B.successors subset = pure groups := by
  have hnil : A.Groups [] fun _ _ => 0 := ⟨List.nodup_nil, by simp, by simp⟩
  have hgroups := hnil.foldl_leaving hsubset
  simp only [zero_add] at hgroups
  refine ⟨_, hgroups, ?_⟩
  unfold successors
  apply foldlM_eq_pure
  intro e he groups
  have hreach : A.Reachable e.1 := hsubset e he
  dsimp only
  rw [h.outgoing e.1 hreach, pure_bind]
  apply foldlM_eq_pure
  intro t ht groups
  rw [h.label, h.target, Automaton.group]
  cases A.label t with
  | none => rfl
  | some a => simp only [h.weight e.1 hreach t ht, pure_bind]

end Automaton

end WeightedAutomata
