import WeightedAutomata.Proofs.KBest.Coverage

/-!
Sums and products of lists of best entries. A list followed by at most one entry keeps its order and
loses what becomes zero.
-/
namespace WeightedAutomata.KBest

variable {S T W : Type} [Zero W] [Ord W]

/-- Zero is the last weight, and multiplying on the right keeps the order. -/
structure Ordered (W : Type) [Zero W] [Mul W] [Ord W] : Prop where
  zero_last : ∀ a : W, (compare a 0).isLE
  mul_right : ∀ a b c : W, (compare a b).isLE → (compare (a * c) (b * c)).isLE

/-- Zero is the last weight, and a factor other than zero keeps the better weight the better one. -/
structure StrictlyOrdered (W : Type) [Zero W] [Mul W] [Ord W] : Prop where
  zero_last : ∀ a : W, (compare a 0).isLE
  mul_right_lt : ∀ c : W, c ≠ 0 → ∀ a b, compare a b = .lt → compare (a * c) (b * c) = .lt
  mul_left_lt : ∀ c : W, c ≠ 0 → ∀ a b, compare a b = .lt → compare (c * a) (c * b) = .lt

section Followed

variable [Mul W] [BEq W] [LawfulBEq W] {k : ℕ}
variable {c : KBest k S T W} {e p x y z : PathWeight S T W}

/-- An entry followed by the one of `c`, if that is not zero. -/
def followed (c : KBest k S T W) (e : PathWeight S T W) : Option (PathWeight S T W) :=
  (c.best?.map e.append).filter fun x => !x.weight == 0

omit [Ord W] in
theorem followed_eq_some :
    followed c e = some x ↔ ∃ p, c.best? = some p ∧ e.append p = x ∧ x.weight ≠ 0 := by
  rw [followed, Option.filter_eq_some_iff, Option.map_eq_some_iff]
  constructor
  · rintro ⟨⟨p, hp, rfl⟩, hx⟩
    exact ⟨p, hp, rfl, by simpa using hx⟩
  · rintro ⟨p, hp, rfl, hx⟩
    exact ⟨⟨p, hp, rfl⟩, by simpa using hx⟩

omit [Ord W] in
theorem weight_ne_zero_of_followed (h : followed c e = some x) : x.weight ≠ 0 := by
  obtain ⟨p, -, -, hx⟩ := followed_eq_some.1 h
  exact hx

/-- What is no worse stays no worse, and does not become zero. -/
theorem followed_of_precedes [Std.LawfulEqOrd W] [Std.TransOrd W] (ho : Ordered W)
    (h : followed c z = some x) (hyz : precedes y z) :
    ∃ x', followed c y = some x' ∧ precedes x' x := by
  obtain ⟨p, hp, rfl, hx⟩ := followed_eq_some.1 h
  have hle : precedes (y.append p) (z.append p) :=
    precedes_iff.2 (ho.mul_right _ _ _ (precedes_iff.1 hyz))
  refine ⟨y.append p, followed_eq_some.2 ⟨p, hp, rfl, fun hzero => hx ?_⟩, hle⟩
  have hlow : (compare (0 : W) (z.append p).weight).isLE := by
    rw [← hzero]
    exact precedes_iff.1 hle
  have hhigh : (compare (z.append p).weight 0).isLE := ho.zero_last _
  rw [Std.OrientedOrd.eq_swap, Ordering.isLE_swap] at hlow
  apply Std.LawfulEqOrd.eq_of_compare
  cases hc : compare (z.append p).weight 0 with
  | lt => simp [hc] at hlow
  | eq => rfl
  | gt => simp [hc] at hhigh

end Followed

section Zero

variable [BEq S] [BEq T] [BEq W] {k : ℕ}

theorem ofEntries_nil : (ofEntries [] : KBest k S T W) = 0 := by
  simp only [ofEntries, List.filter_nil, List.mergeSort_nil]
  rfl

variable [Mul W] (a : KBest k S T W)

theorem zero_mul_eq : 0 * a = 0 := ofEntries_nil

theorem mul_zero_eq : a * 0 = 0 := by
  change (ofEntries (a.entries.flatMap fun _ => []) : KBest k S T W) = 0
  rw [List.flatMap_eq_nil_iff.2 fun _ _ => rfl, ofEntries_nil]

end Zero

section Lists

variable [BEq S] [LawfulBEq S] [BEq T] [LawfulBEq T] [BEq W] [LawfulBEq W] [Std.TransOrd W] {k : ℕ}

theorem Ranked.entries_add {a b : KBest k S T W} (ha : Ranked k a.entries)
    (hb : Ranked k b.entries) :
    (a + b).entries = b.entries.foldl (KBest.insertBest k) a.entries := by
  have hlive : b.entries.filter (fun e => !e.weight == 0) = b.entries :=
    List.filter_eq_self.2 fun e he => by simpa using hb.live e he
  change (ofEntries (a.entries ++ b.entries) : KBest k S T W).entries = _
  rw [entries_ofEntries_append, hlive, ha.entries_ofEntries]

theorem Ranked.foldl_insertBest {l xs : List (PathWeight S T W)} (hl : Ranked k l)
    (hxs : ∀ x ∈ xs, x.weight ≠ 0) : Ranked k (xs.foldl (KBest.insertBest k) l) := by
  induction xs generalizing l with
  | nil => exact hl
  | cons x xs ih =>
    exact ih (hl.insertBest (hxs x List.mem_cons_self)) fun y hy =>
      hxs y (List.mem_cons_of_mem x hy)

omit [Std.TransOrd W] in
theorem mem_ofEntries {l : List (PathWeight S T W)} {x : PathWeight S T W}
    (h : x ∈ (ofEntries l : KBest k S T W).entries) : x ∈ l ∧ x.weight ≠ 0 := by
  rw [entries_ofEntries, select_eq_take] at h
  have hmem := List.mem_eraseDups.1 (List.mem_of_mem_take h)
  rw [List.mem_mergeSort, List.mem_filter] at hmem
  exact ⟨hmem.1, by simpa using hmem.2⟩

theorem ranked_ofEntries (l : List (PathWeight S T W)) :
    Ranked k (ofEntries l : KBest k S T W).entries := by
  have h := entries_ofEntries_append (k := k) [] l
  rw [List.nil_append, ofEntries_nil] at h
  rw [h]
  exact Ranked.foldl_insertBest ranked_nil fun e he => by
    simpa using (List.mem_filter.1 he).2

omit [LawfulBEq S] [LawfulBEq T] [LawfulBEq W] [Std.TransOrd W] in
theorem ofEntries_filter (l : List (PathWeight S T W)) :
    (ofEntries (l.filter fun e => !e.weight == 0) : KBest k S T W) = ofEntries l := by
  simp only [ofEntries, List.filter_filter, Bool.and_self]

variable [Mul W] [Std.LawfulEqOrd W] {c : KBest k S T W} {l : List (PathWeight S T W)}

omit [LawfulBEq S] [BEq S] [LawfulBEq T] [BEq T] in
theorem Ranked.filterMap_followed (ho : Ordered W) (h : Ranked k l)
    (hd : ∀ y ∈ l, ∀ z ∈ l, ∀ x, followed c y = some x → followed c z = some x → y = z) :
    Ranked k (l.filterMap (followed c)) where
  sorted := by
    refine List.pairwise_filterMap.2 (h.sorted.imp fun {y z} hyz x hx x' hx' => ?_)
    obtain ⟨w, hw, hprec⟩ := followed_of_precedes ho hx' hyz
    rw [hx] at hw
    cases hw
    exact hprec
  nodup := by
    refine List.pairwise_filterMap.2 (List.Pairwise.imp_of_mem ?_ h.nodup)
    rintro y z hy hz hne x hx _ hx' rfl
    exact hne (hd y hy z hz x hx hx')
  length_le := Nat.le_trans (List.length_filterMap_le _ _) h.length_le
  live x hx := by
    obtain ⟨e, -, he⟩ := List.mem_filterMap.1 hx
    exact weight_ne_zero_of_followed he

/-- When a full list has nothing worse than `z`, what follows it leaves no place for `z` followed by
the same entry. -/
theorem Ranked.shut_of_followed (ho : Ordered W) {m : List (PathWeight S T W)}
    {x z : PathWeight S T W} (hm : Ranked k m) (h : Ranked k l)
    (hd : ∀ y ∈ l, ∀ z ∈ l, ∀ x, followed c y = some x → followed c z = some x → y = z)
    (hz : Shut k l z) (hx : followed c z = some x)
    (hcov : ∀ y ∈ l, ∀ x', followed c y = some x' → Covered k m x') : Shut k m x := by
  have hall (y : PathWeight S T W) (hy : y ∈ l) : ∃ x', followed c y = some x' ∧ precedes x' x :=
    followed_of_precedes ho hx (hz.2 y hy)
  have hlen : (l.filterMap (followed c)).length = l.length :=
    List.filterMap_length_eq_length.2 fun y hy => by
      obtain ⟨x', hx', -⟩ := hall y hy
      rw [hx', Option.isSome_some]
  apply hm.shut_of_many (h.filterMap_followed ho hd).nodup (by rw [hlen]; exact hz.1)
  intro x' hx'
  obtain ⟨y, hy, hyx⟩ := List.mem_filterMap.1 hx'
  obtain ⟨w, hw, hprec⟩ := hall y hy
  rw [hyx] at hw
  cases hw
  exact ⟨hcov y hy x' hyx, hprec⟩

theorem Ranked.entries_mul {a : KBest k S T W} (ho : Ordered W) (h : Ranked k a.entries)
    (hc : c.entries.length ≤ 1)
    (hd : ∀ y ∈ a.entries, ∀ z ∈ a.entries, ∀ x,
      followed c y = some x → followed c z = some x → y = z) :
    (a * c).entries = a.entries.filterMap (followed c) := by
  rw [← (h.filterMap_followed ho hd).entries_ofEntries]
  change (ofEntries (a.entries.flatMap fun p => c.entries.map p.append) : KBest k S T W).entries = _
  rw [← ofEntries_filter]
  congr 2
  rcases hentries : c.entries with _ | ⟨p, _ | ⟨q, rest⟩⟩
  · have hnone (e : PathWeight S T W) : followed c e = none := by
      simp [followed, best?, hentries]
    simp [hnone]
  · have hone (e : PathWeight S T W) :
        followed c e = if !(e.append p).weight == 0 then some (e.append p) else none := by
      simp [followed, best?, hentries, Option.filter]
    induction a.entries with
    | nil => rfl
    | cons e es ih =>
      simp only [List.flatMap_cons, List.map_cons, List.map_nil, List.filterMap_cons, hone]
      by_cases hz : (e.append p).weight == 0 <;> simp_all
  · rw [hentries] at hc
    simp at hc

omit [Mul W] [Std.LawfulEqOrd W] in
theorem Best.add {X Y : Set (PathWeight S T W)} {a b : KBest k S T W} (ha : Best k X a.entries)
    (hb : Best k Y b.entries) : Best k (X ∪ Y) (a + b).entries := by
  rw [ha.ranked.entries_add hb.ranked]
  exact ha.union hb

theorem Best.mul {X : Set (PathWeight S T W)} {a : KBest k S T W} (ho : Ordered W)
    (h : Best k X a.entries) (hc : c.entries.length ≤ 1)
    (hd : ∀ y ∈ X, ∀ z ∈ X, ∀ x, followed c y = some x → followed c z = some x → y = z) :
    Best k {x | ∃ e ∈ X, followed c e = some x} (a * c).entries := by
  have hd' : ∀ y ∈ a.entries, ∀ z ∈ a.entries, ∀ x,
      followed c y = some x → followed c z = some x → y = z :=
    fun y hy z hz => hd y (h.sound y hy) z (h.sound z hz)
  have hranked := h.ranked.filterMap_followed ho hd'
  rw [h.ranked.entries_mul ho hc hd']
  refine ⟨hranked, fun x hx => ?_, ?_⟩
  · obtain ⟨e, he, hx⟩ := List.mem_filterMap.1 hx
    exact ⟨e, h.sound e he, hx⟩
  · rintro x ⟨e, he, hx⟩
    rcases h.covers e he with hmem | hshut
    · exact .inl (List.mem_filterMap.2 ⟨e, hmem, hx⟩)
    · exact .inr (hranked.shut_of_followed ho h.ranked hd' hshut hx fun y hy x' hx' =>
        .inl (List.mem_filterMap.2 ⟨y, hy, hx'⟩))

end Lists

end WeightedAutomata.KBest
