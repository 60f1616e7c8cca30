import Mathlib.Data.ENat.Lattice
import Mathlib.Data.List.Perm.Subperm
import Mathlib.Data.Set.Card
import WeightedAutomata.Proofs.KBest.Insertion

/-!
Lists of best entries cover the entries they have been offered: an entry is listed, or the list is
full of entries that are no worse. Cutting a list loses nothing else.
-/
namespace WeightedAutomata.KBest

variable {S T W : Type} [Ord W] {k : ℕ}

/-- The list is full of entries that are no worse than `x`. -/
def Shut (k : ℕ) (l : List (PathWeight S T W)) (x : PathWeight S T W) : Prop :=
  k ≤ l.length ∧ ∀ y ∈ l, precedes y x

/-- The list has `x`, or no place for it. -/
def Covered (k : ℕ) (l : List (PathWeight S T W)) (x : PathWeight S T W) : Prop :=
  x ∈ l ∨ Shut k l x

section Pairs

variable {α : Type} {m : List α} {a b : α}

theorem pair_sublist_or (ha : a ∈ m) (hb : b ∈ m) (hne : a ≠ b) :
    [a, b].Sublist m ∨ [b, a].Sublist m := by
  obtain ⟨u, v, rfl⟩ := List.append_of_mem ha
  rcases List.mem_append.1 hb with hb | hb
  · exact .inr ((List.singleton_sublist.2 hb).append (List.singleton_sublist.2 List.mem_cons_self))
  · rcases List.mem_cons.1 hb with rfl | hb
    · exact absurd rfl hne
    · exact .inl (((List.singleton_sublist.2 hb).cons_cons a).trans (List.sublist_append_right _ _))

theorem pair_sublist_append {u v : List α} (h : [a, b].Sublist (u ++ v)) (hb : b ∉ v) :
    [a, b].Sublist u := by
  obtain ⟨l₁, l₂, heq, hl₁, hl₂⟩ := List.sublist_append_iff.1 h
  cases l₂ with
  | nil => rwa [heq, List.append_nil]
  | cons c l₂ =>
    have hlast : b ∈ c :: l₂ := by
      have hsome : (l₁ ++ c :: l₂).getLast? = some b := by rw [← heq]; rfl
      rw [List.getLast?_append_of_ne_nil _ (List.cons_ne_nil c l₂)] at hsome
      exact List.mem_of_getLast? hsome
    exact absurd (hl₂.subset hlast) hb

theorem pair_sublist_take (hm : m.Nodup) (h : [a, b].Sublist m) (hb : b ∈ m.take k) :
    [a, b].Sublist (m.take k) := by
  rw [← List.take_append_drop k m] at h hm
  exact pair_sublist_append h fun hdrop => (List.nodup_append.1 hm).2.2 b hb b hdrop rfl

theorem pair_sublist_of_not_mem_take (hb : b ∈ m) (hcut : b ∉ m.take k) (ha : a ∈ m.take k) :
    [a, b].Sublist m := by
  rw [← List.take_append_drop k m] at hb ⊢
  have hdrop : b ∈ m.drop k := (List.mem_append.1 hb).resolve_left hcut
  exact (List.singleton_sublist.2 ha).append (List.singleton_sublist.2 hdrop)

end Pairs

section Order

variable [Std.TransOrd W] {l : List (PathWeight S T W)} {x y : PathWeight S T W}

theorem Shut.mono (h : Shut k l x) (hxy : precedes x y) : Shut k l y :=
  ⟨h.1, fun z hz => precedes_trans (h.2 z hz) hxy⟩

omit [Std.TransOrd W] in
theorem precedes_of_pair (hl : l.Pairwise (precedes · ·)) (h : [x, y].Sublist l) :
    precedes x y := by
  have hpair : [x, y].Pairwise (precedes · ·) := hl.sublist h
  simpa using hpair

omit [Std.TransOrd W] in
/-- What a sorted list loses when it is cut, it still covers. -/
theorem covered_take (hl : l.Pairwise (precedes · ·)) (hx : x ∈ l) : Covered k (l.take k) x := by
  by_cases hcut : x ∈ l.take k
  · exact .inl hcut
  · refine .inr ⟨?_, fun y hy => ?_⟩
    · by_contra hlen
      rw [List.length_take] at hlen
      rw [List.take_of_length_le (by omega)] at hcut
      exact hcut hx
    · exact precedes_of_pair hl (pair_sublist_of_not_mem_take hx hcut hy)

variable [BEq S] [LawfulBEq S] [BEq T] [LawfulBEq T] [BEq W] [LawfulBEq W]

/-- The list with `x` in its place, before it is cut. -/
def uncut (l : List (PathWeight S T W)) (x : PathWeight S T W) : List (PathWeight S T W) :=
  if x ∈ l then l else place x l

omit [Std.TransOrd W] in
theorem mem_uncut : y ∈ uncut l x ↔ y = x ∨ y ∈ l := by
  unfold uncut
  split
  · next hx =>
    refine ⟨.inr, ?_⟩
    rintro (rfl | hy)
    · exact hx
    · exact hy
  · rw [(place_perm x l).mem_iff, List.mem_cons]

variable [Zero W]

omit [Std.TransOrd W] [Zero W] in
theorem sublist_uncut (l : List (PathWeight S T W)) (x : PathWeight S T W) :
    l.Sublist (uncut l x) := by
  unfold uncut
  split
  · exact .refl l
  · exact sublist_place x l

omit [Std.TransOrd W] in
theorem Ranked.insertBest_eq (h : Ranked k l) (x : PathWeight S T W) :
    insertBest k l x = (uncut l x).take k := by
  unfold insertBest uncut
  split
  · rw [List.take_of_length_le h.length_le]
  · rfl

theorem Ranked.sorted_uncut (h : Ranked k l) (x : PathWeight S T W) :
    (uncut l x).Pairwise (precedes · ·) := by
  unfold uncut
  split
  · exact h.sorted
  · exact pairwise_place h.sorted

omit [Std.TransOrd W] in
theorem Ranked.nodup_uncut (h : Ranked k l) (x : PathWeight S T W) : (uncut l x).Nodup := by
  unfold uncut
  split
  · exact h.nodup
  · next hx => exact (place_perm x l).nodup_iff.2 (List.nodup_cons.2 ⟨hx, h.nodup⟩)

omit [Std.TransOrd W] [Zero W] in
theorem mem_of_mem_insertBest (h : y ∈ insertBest k l x) : y = x ∨ y ∈ l := by
  unfold insertBest at h
  split at h
  · exact .inr h
  · exact List.mem_cons.1 ((place_perm x l).mem_iff.1 (List.mem_of_mem_take h))

theorem Ranked.insertBest (h : Ranked k l) (hx : x.weight ≠ 0) : Ranked k (insertBest k l x) where
  sorted := by
    rw [h.insertBest_eq]
    exact (h.sorted_uncut x).sublist (List.take_sublist _ _)
  nodup := by
    rw [h.insertBest_eq]
    exact (h.nodup_uncut x).sublist (List.take_sublist _ _)
  length_le := by
    rw [h.insertBest_eq]
    exact List.length_take_le _ _
  live e he := by
    rcases mem_of_mem_insertBest he with rfl | he
    · exact hx
    · exact h.live e he

theorem Ranked.covered_insertBest_self (h : Ranked k l) (x : PathWeight S T W) :
    Covered k (KBest.insertBest k l x) x := by
  rw [h.insertBest_eq]
  exact covered_take (h.sorted_uncut x) (mem_uncut.2 (.inl rfl))

omit [Std.TransOrd W] in
theorem Ranked.insertBest_of_shut (h : Ranked k l) (hx : Shut k l x) :
    KBest.insertBest k l x = l :=
  insertBest_of_full (Nat.le_antisymm h.length_le hx.1) hx.2

omit [Std.TransOrd W] in
theorem Ranked.insertBest_of_covered (h : Ranked k l) (hx : Covered k l x) :
    KBest.insertBest k l x = l := by
  rcases hx with hx | hx
  · exact if_pos hx
  · exact h.insertBest_of_shut hx

theorem Covered.insertBest (hy : Covered k l y) (h : Ranked k l) (x : PathWeight S T W) :
    Covered k (KBest.insertBest k l x) y := by
  by_cases hx : Covered k l x
  · rwa [h.insertBest_of_covered hx]
  · rw [h.insertBest_eq]
    rcases hy with hy | hy
    · exact covered_take (h.sorted_uncut x) (mem_uncut.2 (.inr hy))
    · -- the entry that gives way to `x` is no worse than `y`
      have hnot : x ∉ l := fun hmem => hx (.inl hmem)
      have hworse : ∃ b ∈ l, ¬ precedes b x := by
        by_contra hall
        push Not at hall
        exact hx (.inr ⟨hy.1, fun b hb => by simpa using hall b hb⟩)
      obtain ⟨b, hb, hbx⟩ := hworse
      have hxy : precedes x y :=
        precedes_trans ((precedes_total b x).resolve_left hbx) (hy.2 b hb)
      refine .inr ⟨?_, fun z hz => ?_⟩
      · have hlen : (uncut l x).length = l.length + 1 := by
          rw [uncut, if_neg hnot, (place_perm x l).length_eq, List.length_cons]
        have hfull := hy.1
        rw [List.length_take]
        omega
      · rcases mem_uncut.1 (List.mem_of_mem_take hz) with rfl | hz
        · exact hxy
        · exact hy.2 z hz

/-- `k` covered entries that are no worse leave no place. -/
theorem Ranked.shut_of_many (h : Ranked k l) {ys : List (PathWeight S T W)} (hys : ys.Nodup)
    (hlen : k ≤ ys.length) (hcov : ∀ y ∈ ys, Covered k l y ∧ precedes y x) : Shut k l x := by
  by_cases hall : ∀ y ∈ ys, y ∈ l
  · have hsub : ys.Subperm l := hys.subperm hall
    have hperm : ys.Perm l := hsub.perm_of_length_le (Nat.le_trans h.length_le hlen)
    constructor
    · rwa [← hperm.length_eq]
    · intro z hz
      exact (hcov z (hperm.mem_iff.2 hz)).2
  · push Not at hall
    obtain ⟨y, hy, hnot⟩ := hall
    obtain ⟨hy, hyx⟩ := hcov y hy
    exact (hy.resolve_left hnot).mono hyx

/-- The `k` best of the entries in `X`. -/
structure Best (k : ℕ) (X : Set (PathWeight S T W)) (l : List (PathWeight S T W)) : Prop where
  ranked : Ranked k l
  sound : ∀ e ∈ l, e ∈ X
  covers : ∀ e ∈ X, Covered k l e

namespace Best

variable {X Y : Set (PathWeight S T W)} {ys : List (PathWeight S T W)}

section Lists

omit [Std.TransOrd W] [BEq S] [LawfulBEq S] [BEq T] [LawfulBEq T] [BEq W] [LawfulBEq W]

theorem nil : Best k (∅ : Set (PathWeight S T W)) [] where
  ranked := ranked_nil
  sound := nofun
  covers := nofun

theorem eq_empty (h : Best k X []) (hk : 1 ≤ k) : X = ∅ := by
  apply Set.eq_empty_iff_forall_notMem.2
  intro e he
  rcases h.covers e he with hmem | hshut
  · cases hmem
  · exact absurd (Nat.le_trans hk hshut.1) (Nat.not_succ_le_zero 0)

theorem ofRanked (h : Ranked k l) : Best k {e | e ∈ l} l where
  ranked := h
  sound _ he := he
  covers _ he := .inl he

theorem length_eq (h : Best k X l) : (l.length : ℕ∞) = min (k : ℕ∞) X.encard := by
  classical
  have hcard : (l.toFinset : Set (PathWeight S T W)).encard = l.length := by
    rw [Set.encard_coe_eq_coe_finsetCard, List.toFinset_card_of_nodup h.ranked.nodup]
  have hsub : (l.toFinset : Set (PathWeight S T W)) ⊆ X := fun e he => h.sound e (by simpa using he)
  have hle := h.ranked.length_le
  by_cases hfull : l.length = k
  · have hX := Set.encard_le_encard hsub
    rw [hcard, hfull] at hX
    rw [hfull, min_eq_left hX]
  · have hX : X = l.toFinset := by
      refine Set.Subset.antisymm (fun e he => ?_) hsub
      rcases h.covers e he with he | hshut
      · simpa using he
      · exact absurd (Nat.le_antisymm hle hshut.1) hfull
    rw [hX, hcard]
    exact (min_eq_right (by exact_mod_cast hle)).symm

theorem precedes_of_notMem (h : Best k X l) (hx : x ∈ X) (hnot : x ∉ l) :
    ∀ y ∈ l, precedes y x :=
  ((h.covers x hx).resolve_left hnot).2

end Lists

theorem insertBest (h : Best k X l) (hx : x.weight ≠ 0) :
    Best k (insert x X) (insertBest k l x) where
  ranked := h.ranked.insertBest hx
  sound e he := by
    rcases mem_of_mem_insertBest he with rfl | he
    · exact Set.mem_insert e X
    · exact Set.mem_insert_of_mem x (h.sound e he)
  covers e he := by
    rcases Set.mem_insert_iff.1 he with rfl | he
    · exact h.ranked.covered_insertBest_self e
    · exact (h.covers e he).insertBest h.ranked x

theorem foldl_insertBest (h : Best k X l) (hys : ∀ y ∈ ys, y.weight ≠ 0) :
    Best k (X ∪ {y | y ∈ ys}) (ys.foldl (KBest.insertBest k) l) := by
  induction ys generalizing X l with
  | nil => simpa using h
  | cons y ys ih =>
    have hone := h.insertBest (hys y List.mem_cons_self)
    have hrest := ih hone fun z hz => hys z (List.mem_cons_of_mem y hz)
    have hset : X ∪ {z | z ∈ y :: ys} = insert y X ∪ {z | z ∈ ys} := by
      ext z
      simp only [Set.mem_union, Set.mem_ofPred_eq, List.mem_cons, Set.mem_insert_iff]
      tauto
    rwa [hset]

/-- What the `k` best of `Y` leave out, their union with other entries leaves out as well. -/
theorem union (h : Best k X l) (hY : Best k Y ys) :
    Best k (X ∪ Y) (ys.foldl (KBest.insertBest k) l) := by
  have hall := h.foldl_insertBest hY.ranked.live
  refine ⟨hall.ranked, fun e he => ?_, fun e he => ?_⟩
  · rcases hall.sound e he with he | he
    · exact .inl he
    · exact .inr (hY.sound e he)
  · rcases he with he | he
    · exact hall.covers e (.inl he)
    · rcases hY.covers e he with he | hshut
      · exact hall.covers e (.inr he)
      · refine .inr (hall.ranked.shut_of_many hY.ranked.nodup hshut.1 fun y hy => ?_)
        exact ⟨hall.covers y (.inr hy), hshut.2 y hy⟩

end Best

end Order

end WeightedAutomata.KBest
