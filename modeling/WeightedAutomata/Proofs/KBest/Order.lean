import WeightedAutomata.Proofs.KBest.Followed

/-!
The order of lists of best entries, in which a list that ends before another is the worse one. A
list that covers the entries of another is no worse, so a sum is no worse than its summands, and the
`k` best of some entries have the same weights whichever of the tied entries are listed.
-/
namespace WeightedAutomata.KBest

variable {k : ℕ} {S T W : Type} [Ord W]

/-- The weights of the entries, best first. -/
def weights (a : KBest k S T W) : List W := a.entries.map PathWeight.weight

@[simp] theorem compareEntries_nil_nil :
    compareEntries ([] : List (PathWeight S T W)) [] = .eq := rfl

@[simp] theorem compareEntries_nil_cons (q : PathWeight S T W) (qs : List (PathWeight S T W)) :
    compareEntries [] (q :: qs) = .gt := rfl

@[simp] theorem compareEntries_cons_nil (p : PathWeight S T W) (ps : List (PathWeight S T W)) :
    compareEntries (p :: ps) [] = .lt := rfl

@[simp] theorem compareEntries_cons_cons (p q : PathWeight S T W)
    (ps qs : List (PathWeight S T W)) : compareEntries (p :: ps) (q :: qs) =
      (compare p.weight q.weight).then (compareEntries ps qs) := rfl

theorem compareEntries_eq_iff {l l' : List (PathWeight S T W)} : compareEntries l l' = .eq ↔
    List.Forall₂ (fun p q => compare p.weight q.weight = .eq) l l' := by
  induction l generalizing l' with
  | nil => cases l' <;> simp
  | cons p l ih => cases l' <;> simp [Ordering.then_eq_eq, ih]

section Preorder

variable [Std.TransOrd W] {l l' : List (PathWeight S T W)}

theorem compareEntries_swap (l l' : List (PathWeight S T W)) :
    compareEntries l l' = (compareEntries l' l).swap := by
  induction l generalizing l' with
  | nil => cases l' <;> rfl
  | cons p l ih =>
    cases l' with
    | nil => rfl
    | cons q l' =>
      rw [compareEntries_cons_cons, compareEntries_cons_cons, Ordering.swap_then, ih l',
        Std.OrientedOrd.eq_swap]

theorem compareEntries_isLE_trans {l l' l'' : List (PathWeight S T W)}
    (h : (compareEntries l l').isLE) (h' : (compareEntries l' l'').isLE) :
    (compareEntries l l'').isLE := by
  induction l generalizing l' l'' with
  | nil =>
    cases l' with
    | nil => exact h'
    | cons q l' => cases h
  | cons p l ih =>
    cases l'' with
    | nil => rfl
    | cons r l'' =>
      cases l' with
      | nil => cases h'
      | cons q l' =>
        rw [compareEntries_cons_cons, Ordering.isLE_then_iff_or] at h h' ⊢
        rcases h with hpq | ⟨hpq, hl⟩
        · left
          rcases h' with hqr | ⟨hqr, -⟩
          · exact Std.TransCmp.lt_trans hpq hqr
          · exact Std.TransCmp.lt_of_lt_of_eq hpq hqr
        · rcases h' with hqr | ⟨hqr, hl'⟩
          · exact .inl (Std.TransCmp.lt_of_eq_of_lt hpq hqr)
          · exact .inr ⟨Std.TransCmp.eq_trans hpq hqr, ih hl hl'⟩

instance : Std.TransOrd (KBest k S T W) where
  eq_swap := compareEntries_swap _ _
  isLE_trans := compareEntries_isLE_trans

end Preorder

/-- Position by position the first list is no worse, and it is no shorter. -/
inductive NoWorse : List (PathWeight S T W) → List (PathWeight S T W) → Prop
  | nil (l : List (PathWeight S T W)) : NoWorse l []
  | cons {p q : PathWeight S T W} {ps qs : List (PathWeight S T W)} (head : precedes p q)
    (tail : NoWorse ps qs) : NoWorse (p :: ps) (q :: qs)

theorem NoWorse.isLE {l l' : List (PathWeight S T W)} (h : NoWorse l l') :
    (compareEntries l l').isLE := by
  induction h with
  | nil l => cases l <;> rfl
  | cons head _ ih =>
    rw [compareEntries_cons_cons, Ordering.isLE_then_iff_and]
    exact ⟨precedes_iff.1 head, .inr ih⟩

theorem noWorse_of_getElem {l l' : List (PathWeight S T W)}
    (h : ∀ i (hi' : i < l'.length), ∃ hi : i < l.length, precedes l[i] l'[i]) : NoWorse l l' := by
  induction l' generalizing l with
  | nil => exact .nil l
  | cons q l' ih =>
    obtain ⟨hi, hhead⟩ := h 0 (Nat.zero_lt_succ _)
    cases l with
    | nil => cases hi
    | cons p l =>
      refine .cons hhead (ih fun i hi' => ?_)
      obtain ⟨hi, hprec⟩ := h (i + 1) (Nat.succ_lt_succ hi')
      exact ⟨Nat.lt_of_succ_lt_succ hi, hprec⟩

section Covered

variable [Std.TransOrd W] {l l' : List (PathWeight S T W)}

theorem precedes_of_mem_take {i : ℕ} (hl : l.Pairwise (precedes · ·)) (hi : i < l.length)
    {y : PathWeight S T W} (hy : y ∈ l.take (i + 1)) : precedes y l[i] := by
  obtain ⟨j, hj, rfl⟩ := List.mem_take_iff_getElem.1 hy
  rcases Nat.lt_or_eq_of_le (Nat.le_of_lt_succ (Nat.lt_of_lt_of_le hj (Nat.min_le_left _ _))) with
    hlt | rfl
  · exact List.pairwise_iff_getElem.1 hl j i _ hi hlt
  · exact precedes_refl _

theorem precedes_of_mem_drop {i : ℕ} (hl : l.Pairwise (precedes · ·)) (hi : i < l.length)
    {y : PathWeight S T W} (hy : y ∈ l.drop i) : precedes l[i] y := by
  rw [List.drop_eq_getElem_cons hi] at hy
  have hdrop := hl.sublist (List.drop_sublist i l)
  rw [List.drop_eq_getElem_cons hi] at hdrop
  rcases List.mem_cons.1 hy with rfl | hy
  · exact precedes_refl _
  · exact List.rel_of_pairwise_cons hdrop hy

variable [Zero W]

/-- A list that covers the entries of another is no worse: were it worse at some position, it would
have to list the entries of the other up to there in front of that position, one too many. -/
theorem Ranked.noWorse (h : Ranked k l) (h' : Ranked k l') (hcov : ∀ x ∈ l', Covered k l x) :
    NoWorse l l' := by
  refine noWorse_of_getElem fun i hi' => ?_
  by_contra hnot
  push Not at hnot
  have hbetter (y : PathWeight S T W) (hy : y ∈ l'.take (i + 1)) : precedes y l'[i] :=
    precedes_of_mem_take h'.sorted hi' hy
  have hfront (y : PathWeight S T W) (hy : y ∈ l'.take (i + 1)) : y ∈ l.take i := by
    rcases hcov y (List.mem_of_mem_take hy) with hmem | ⟨hfull, hall⟩
    · rw [← List.take_append_drop i l] at hmem
      refine (List.mem_append.1 hmem).resolve_right fun hdrop => ?_
      have hi : i < l.length := by
        by_contra hge
        rw [List.drop_eq_nil_of_le (Nat.le_of_not_lt hge)] at hdrop
        cases hdrop
      exact hnot hi (precedes_trans (precedes_of_mem_drop h.sorted hi hdrop) (hbetter y hy))
    · have hi : i < l.length := Nat.lt_of_lt_of_le hi' (Nat.le_trans h'.length_le hfull)
      exact absurd (precedes_trans (hall _ (List.getElem_mem hi)) (hbetter y hy)) (hnot hi)
  have hle := (List.Nodup.subperm (h'.nodup.sublist (List.take_sublist _ _)) hfront).length_le
  rw [List.length_take, List.length_take] at hle
  omega

theorem Best.noWorse {X : Set (PathWeight S T W)} (h : Best k X l) (h' : Ranked k l')
    (hX : ∀ x ∈ l', x ∈ X) : NoWorse l l' :=
  h.ranked.noWorse h' fun x hx => h.covers x (hX x hx)

/-- Which of the tied entries are listed does not show in the weights. -/
theorem Best.weights_eq [Std.LawfulEqOrd W] {X : Set (PathWeight S T W)} (h : Best k X l)
    (h' : Best k X l') : l.map PathWeight.weight = l'.map PathWeight.weight := by
  have heq : compareEntries l l' = .eq := by
    have hle := (h.noWorse h'.ranked h'.sound).isLE
    have hge := (h'.noWorse h.ranked h.sound).isLE
    rw [compareEntries_swap] at hge
    cases hc : compareEntries l l' <;> simp_all
  refine List.forall₂_eq_eq_eq ▸ List.forall₂_map_left_iff.2 (List.forall₂_map_right_iff.2 ?_)
  exact (compareEntries_eq_iff.1 heq).imp fun _ _ => Std.LawfulEqOrd.eq_of_compare

variable [BEq S] [LawfulBEq S] [BEq T] [LawfulBEq T] [BEq W] [LawfulBEq W]

/-- A sum is no worse than its summands. -/
theorem Ranked.compare_add_isLE {a b : KBest k S T W} (ha : Ranked k a.entries)
    (hb : Ranked k b.entries) : (compare (a + b) a).isLE ∧ (compare (a + b) b).isLE := by
  have hsum := (Best.ofRanked ha).add (Best.ofRanked hb)
  exact ⟨(hsum.noWorse ha fun _ hx => .inl hx).isLE, (hsum.noWorse hb fun _ hx => .inr hx).isLE⟩

end Covered

end WeightedAutomata.KBest
