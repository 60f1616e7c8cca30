import Mathlib.Data.List.Induction
import Mathlib.Data.List.Nodup
import WeightedAutomata.KBest.Basic

/-!
Adding to a list of best entries, one entry at a time: it goes behind those that are no worse, and
the list is cut again. The stable sort of the sum does the same.
-/
namespace WeightedAutomata.KBest

variable {S T W : Type} [Ord W]

/-- The first entry is no worse than the second. -/
def precedes (a b : PathWeight S T W) : Bool := compare a.weight b.weight != .gt

/-- Puts an entry behind those that are no worse. -/
def place (x : PathWeight S T W) : List (PathWeight S T W) → List (PathWeight S T W)
  | [] => [x]
  | b :: l => if precedes b x then b :: place x l else x :: b :: l

/-- Puts an entry before those that are no better. -/
def placeFirst (a : PathWeight S T W) : List (PathWeight S T W) → List (PathWeight S T W)
  | [] => [a]
  | b :: l => if precedes a b then a :: b :: l else b :: placeFirst a l

theorem place_append {u v : List (PathWeight S T W)} {x : PathWeight S T W}
    (hu : ∀ b ∈ u, precedes b x) (hv : ∀ b ∈ v, ¬ precedes b x) :
    place x (u ++ v) = u ++ x :: v := by
  induction u with
  | nil =>
    cases v with
    | nil => rfl
    | cons b v => exact if_neg (hv b List.mem_cons_self)
  | cons b u ih =>
    rw [List.cons_append, place, if_pos (hu b List.mem_cons_self),
      ih fun c hc => hu c (List.mem_cons_of_mem b hc), List.cons_append]

theorem placeFirst_append {u v : List (PathWeight S T W)} {a : PathWeight S T W}
    (hu : ∀ b ∈ u, ¬ precedes a b) (hv : ∀ b ∈ v, precedes a b) :
    placeFirst a (u ++ v) = u ++ a :: v := by
  induction u with
  | nil =>
    cases v with
    | nil => rfl
    | cons b v => exact if_pos (hv b List.mem_cons_self)
  | cons b u ih =>
    rw [List.cons_append, placeFirst, if_neg (hu b List.mem_cons_self),
      ih fun c hc => hu c (List.mem_cons_of_mem b hc), List.cons_append]

theorem place_perm (x : PathWeight S T W) (l : List (PathWeight S T W)) :
    (place x l).Perm (x :: l) := by
  induction l with
  | nil => exact .refl _
  | cons b l ih =>
    rw [place]
    split
    · exact (ih.cons b).trans (.swap x b l)
    · exact .refl _

theorem sublist_place (x : PathWeight S T W) (l : List (PathWeight S T W)) :
    l.Sublist (place x l) := by
  induction l with
  | nil => exact List.nil_sublist _
  | cons b l ih =>
    rw [place]
    split
    · exact ih.cons_cons b
    · exact List.sublist_cons_self x (b :: l)

section Order

variable [Std.TransOrd W]

theorem precedes_refl (a : PathWeight S T W) : precedes a a := by simp [precedes]

omit [Std.TransOrd W] in
theorem precedes_iff {a b : PathWeight S T W} :
    precedes a b ↔ (compare a.weight b.weight).isLE := by
  unfold precedes
  cases compare a.weight b.weight <;> simp

theorem precedes_trans {a b c : PathWeight S T W} (hab : precedes a b) (hbc : precedes b c) :
    precedes a c := by
  rw [precedes_iff] at hab hbc ⊢
  exact Std.TransOrd.isLE_trans hab hbc

theorem precedes_total (a b : PathWeight S T W) : precedes a b ∨ precedes b a := by
  rw [precedes_iff, precedes_iff, Std.OrientedOrd.eq_swap (a := b.weight)]
  cases compare a.weight b.weight <;> simp

/-- What arrives earlier stays before what arrives later, unless it is worse. -/
theorem place_placeFirst (a x : PathWeight S T W) (l : List (PathWeight S T W)) :
    place x (placeFirst a l) = placeFirst a (place x l) := by
  induction l with
  | nil => by_cases hax : precedes a x <;> simp [place, placeFirst, hax]
  | cons b l ih =>
    by_cases hab : precedes a b
    · by_cases hbx : precedes b x
      · have hax := precedes_trans hab hbx
        simp [place, placeFirst, hab, hbx, hax]
      · by_cases hax : precedes a x <;> simp [place, placeFirst, hab, hbx, hax]
    · by_cases hbx : precedes b x
      · simp [place, placeFirst, hab, hbx, ih]
      · have hba : precedes b a := (precedes_total a b).resolve_left hab
        have hax : ¬ precedes a x := fun hax => hbx (precedes_trans hba hax)
        simp [place, placeFirst, hab, hbx, hax]

theorem pairwise_place {x : PathWeight S T W} {l : List (PathWeight S T W)}
    (hl : l.Pairwise (precedes · ·)) : (place x l).Pairwise (precedes · ·) := by
  induction l with
  | nil => exact List.pairwise_singleton _ _
  | cons b l ih =>
    rw [List.pairwise_cons] at hl
    rw [place]
    split
    · next hbx =>
      refine List.pairwise_cons.2 ⟨fun c hc => ?_, ih hl.2⟩
      rcases List.mem_cons.1 ((place_perm x l).mem_iff.1 hc) with rfl | hc
      · exact hbx
      · exact hl.1 c hc
    · next hbx =>
      have hxb : precedes x b := (precedes_total b x).resolve_left hbx
      refine List.pairwise_cons.2 ⟨fun c hc => ?_, List.pairwise_cons.2 hl⟩
      rcases List.mem_cons.1 hc with rfl | hc
      · exact hxb
      · exact precedes_trans hxb (hl.1 c hc)

theorem pairwise_mergeSort (l : List (PathWeight S T W)) :
    (l.mergeSort precedes).Pairwise (precedes · ·) :=
  @List.pairwise_mergeSort _ precedes (fun _ _ _ => precedes_trans)
    (fun a b => by simpa using precedes_total a b) l

theorem mergeSort_cons_eq (a : PathWeight S T W) (l : List (PathWeight S T W)) :
    (a :: l).mergeSort precedes = placeFirst a (l.mergeSort precedes) := by
  obtain ⟨u, v, hcons, hl, hbefore⟩ := @List.mergeSort_cons _ precedes
    (fun _ _ _ => precedes_trans) (fun a b => by simpa using precedes_total a b) a l
  have hsorted := pairwise_mergeSort (a :: l)
  rw [hcons, List.pairwise_append, List.pairwise_cons] at hsorted
  rw [hcons, hl, placeFirst_append (fun b hb => by simpa using hbefore b hb) hsorted.2.1.1]

theorem mergeSort_append_singleton (l : List (PathWeight S T W)) (x : PathWeight S T W) :
    (l ++ [x]).mergeSort precedes = place x (l.mergeSort precedes) := by
  induction l with
  | nil => simp [place]
  | cons a l ih => rw [List.cons_append, mergeSort_cons_eq, ih, mergeSort_cons_eq, place_placeFirst]

/-- A sorted list falls into what is no worse than an entry and what is worse. -/
theorem exists_split {l : List (PathWeight S T W)} (hl : l.Pairwise (precedes · ·))
    (x : PathWeight S T W) :
    ∃ u v, l = u ++ v ∧ (∀ b ∈ u, precedes b x) ∧ ∀ b ∈ v, ¬ precedes b x := by
  induction l with
  | nil => exact ⟨[], [], rfl, nofun, nofun⟩
  | cons b l ih =>
    rw [List.pairwise_cons] at hl
    by_cases hbx : precedes b x
    · obtain ⟨u, v, rfl, hu, hv⟩ := ih hl.2
      refine ⟨b :: u, v, rfl, fun c hc => ?_, hv⟩
      rcases List.mem_cons.1 hc with rfl | hc
      · exact hbx
      · exact hu c hc
    · refine ⟨[], b :: l, rfl, nofun, fun c hc hcx => ?_⟩
      rcases List.mem_cons.1 hc with rfl | hc
      · exact hbx hcx
      · exact hbx (precedes_trans (hl.1 c hc) hcx)

end Order

section Select

variable [BEq S] [LawfulBEq S] [BEq T] [LawfulBEq T] [BEq W] [LawfulBEq W]

/-- The first `k` different entries of a list. -/
def select (k : ℕ) (l : List (PathWeight S T W)) : List (PathWeight S T W) := l.foldl (keep k) []

/-- Adds an entry to a list of at most `k` best ones. -/
def insertBest (k : ℕ) (l : List (PathWeight S T W)) (x : PathWeight S T W) :
    List (PathWeight S T W) :=
  if x ∈ l then l else (place x l).take k

omit [Ord W] in
theorem select_eq_take (k : ℕ) (l : List (PathWeight S T W)) : select k l = l.eraseDups.take k := by
  induction l using List.reverseRecOn with
  | nil => simp [select]
  | append_singleton l x ih =>
    have hkeep : select k (l ++ [x]) = keep k (select k l) x := by simp [select]
    rw [hkeep, ih, List.eraseDups_append]
    by_cases hfull : k ≤ l.eraseDups.length
    · have hlen : (l.eraseDups.take k).length = k := by simp [hfull]
      rw [keep, if_pos (by simp [hlen]), List.take_append_of_le_length hfull]
    · have hlt : l.eraseDups.length < k := by omega
      rw [keep, List.take_of_length_le (by omega)]
      by_cases hx : x ∈ l
      · simp [List.removeAll, hx, List.take_of_length_le (Nat.le_of_lt hlt)]
      · have hcut : (l.eraseDups ++ [x]).take k = l.eraseDups ++ [x] :=
          List.take_of_length_le (by simp; omega)
        simp [List.removeAll, hx, hfull, List.eraseDups_cons, hcut]

/-- An entry that was already seen or does not fit any more changes nothing. -/
theorem insertBest_of_full {k : ℕ} {l : List (PathWeight S T W)} {x : PathWeight S T W}
    (hlen : l.length = k) (hl : ∀ b ∈ l, precedes b x) : insertBest k l x = l := by
  unfold insertBest
  split
  · rfl
  · have hplace : place x l = l ++ [x] := by
      simpa using place_append hl (v := []) nofun
    rw [hplace, ← hlen, List.take_left']
    rfl

theorem select_place [Std.TransOrd W] {l : List (PathWeight S T W)}
    (hl : l.Pairwise (precedes · ·)) (k : ℕ) (x : PathWeight S T W) :
    select k (place x l) = insertBest k (select k l) x := by
  obtain ⟨u, v, rfl, hu, hv⟩ := exists_split hl x
  have hxv : x ∉ v := fun hx => hv x hx (precedes_refl x)
  let w := (v.removeAll u).eraseDups
  have hw : ∀ b ∈ w, ¬ precedes b x := by
    intro b hb
    rw [List.mem_eraseDups, List.removeAll, List.mem_filter] at hb
    exact hv b hb.1
  have hdups : ∀ b ∈ u.eraseDups, precedes b x := fun b hb => hu b (List.mem_eraseDups.1 hb)
  have hold : select k (u ++ v) = (u.eraseDups ++ w).take k := by
    rw [select_eq_take, List.eraseDups_append]
  rw [place_append hu hv, hold, select_eq_take, List.eraseDups_append, List.cons_removeAll]
  by_cases hfull : k ≤ u.eraseDups.length
  · -- the list is full of entries that are no worse
    rw [List.take_append_of_le_length hfull, List.take_append_of_le_length hfull,
      insertBest_of_full (by simp [hfull]) fun b hb => hdups b (List.mem_of_mem_take hb)]
  · have hcut (m : List (PathWeight S T W)) :
        (u.eraseDups ++ m).take k = u.eraseDups ++ m.take (k - u.eraseDups.length) := by
      rw [List.take_append, List.take_of_length_le (by omega)]
    by_cases hxu : x ∈ u
    · have hmem : x ∈ (u.eraseDups ++ w).take k := by
        rw [hcut]
        exact List.mem_append_left _ (List.mem_eraseDups.2 hxu)
      simp [insertBest, hmem, hxu, w]
    · have hxw : x ∉ w := fun hx => hw x hx (precedes_refl x)
      have hnew : (x :: v.removeAll u).eraseDups = x :: w := by
        rw [List.eraseDups_cons, List.filter_eq_self.2]
        intro b hb
        have hne : b ≠ x := fun heq => hxw (by rwa [← heq, List.mem_eraseDups])
        simpa using hne
      have hnot : x ∉ u.eraseDups ++ w.take (k - u.eraseDups.length) := by
        rw [List.mem_append, List.mem_eraseDups]
        rintro (h | h)
        · exact hxu h
        · exact hxw (List.mem_of_mem_take h)
      obtain ⟨n, hn⟩ : ∃ n, k - u.eraseDups.length = n + 1 := ⟨k - u.eraseDups.length - 1, by omega⟩
      rw [hcut w, insertBest, if_neg hnot,
        place_append hdups fun b hb => hw b (List.mem_of_mem_take hb)]
      simp only [List.elem_eq_mem, hxu, decide_false, hcut, hn]
      simp [hnew, List.take_take]

/-- At most `k` different entries, none of weight zero, best first. -/
structure Ranked [Zero W] (k : ℕ) (l : List (PathWeight S T W)) : Prop where
  sorted : l.Pairwise (precedes · ·)
  nodup : l.Nodup
  length_le : l.length ≤ k
  live : ∀ e ∈ l, e.weight ≠ 0

variable [Zero W] {k : ℕ}

omit [BEq S] [LawfulBEq S] [BEq T] [LawfulBEq T] [BEq W] [LawfulBEq W] in
theorem ranked_nil : Ranked k ([] : List (PathWeight S T W)) := ⟨.nil, .nil, Nat.zero_le k, nofun⟩

omit [BEq S] [LawfulBEq S] [BEq T] [LawfulBEq T] [BEq W] [LawfulBEq W] in
theorem ranked_singleton (hk : 1 ≤ k) {e : PathWeight S T W} (he : e.weight ≠ 0) : Ranked k [e] :=
  ⟨List.pairwise_singleton _ _, List.nodup_singleton _, hk, by simpa using he⟩

omit [LawfulBEq S] [LawfulBEq T] [LawfulBEq W] in
theorem entries_ofEntries (xs : List (PathWeight S T W)) : (ofEntries xs : KBest k S T W).entries =
    select k ((xs.filter fun e => !e.weight == 0).mergeSort precedes) := rfl

theorem entries_ofEntries_append [Std.TransOrd W] (xs ys : List (PathWeight S T W)) :
    (ofEntries (xs ++ ys) : KBest k S T W).entries =
      (ys.filter fun e => !e.weight == 0).foldl (insertBest k)
        (ofEntries xs : KBest k S T W).entries := by
  induction ys using List.reverseRecOn with
  | nil => rw [List.append_nil, List.filter_nil, List.foldl_nil]
  | append_singleton ys y ih =>
    rw [entries_ofEntries] at ih ⊢
    rw [← List.append_assoc, List.filter_append,
      List.filter_append (p := fun e => !e.weight == 0) ys]
    cases hy : y.weight == 0
    · have hone : [y].filter (fun e => !e.weight == 0) = [y] := by simp [hy]
      rw [hone, mergeSort_append_singleton, select_place (pairwise_mergeSort _), ih,
        List.foldl_append, List.foldl_cons, List.foldl_nil]
    · have hone : [y].filter (fun e => !e.weight == 0) = [] := by simp [hy]
      rw [hone, List.append_nil, List.append_nil, ih]

theorem Ranked.entries_ofEntries {l : List (PathWeight S T W)} (h : Ranked k l) :
    (ofEntries l : KBest k S T W).entries = l := by
  have hlive : l.filter (fun e => !e.weight == 0) = l :=
    List.filter_eq_self.2 fun e he => by simpa using h.live e he
  have hselect (m : List (PathWeight S T W)) (hm : m.Nodup) : m.eraseDups = m := by
    induction m using List.reverseRecOn with
    | nil => rfl
    | append_singleton m x ih =>
      obtain ⟨hm, -, hx⟩ := List.nodup_append.1 hm
      have hx : x ∉ m := fun hmem => hx x hmem x (List.mem_singleton_self x) rfl
      rw [List.eraseDups_append, ih hm]
      simp [List.removeAll, hx, List.eraseDups_cons]
  rw [KBest.entries_ofEntries, hlive, List.mergeSort_of_pairwise h.sorted, select_eq_take,
    hselect l h.nodup, List.take_of_length_le h.length_le]

end Select

end WeightedAutomata.KBest
