import Mathlib.Data.Set.NAry
import WeightedAutomata.Proofs.Costs
import WeightedAutomata.Proofs.KBest.Order

/-!
The laws of lists of best entries. Sums are associative as they stand, because what a cut loses is
covered by what it keeps. Products cut as well, and may then list other entries of equal weight. But
followed by one path, different paths stay different and in order, so the weights obey all laws.
-/
namespace WeightedAutomata.KBest

variable {k : ℕ} {S T W : Type} [Ord W]

section Sums

variable [Std.TransOrd W] {l m : List (PathWeight S T W)} {x e : PathWeight S T W}

theorem place_place (hxe : ¬ precedes x e) (l : List (PathWeight S T W)) :
    place e (place x l) = place x (place e l) := by
  have hex : precedes e x := (precedes_total e x).resolve_right hxe
  induction l with
  | nil => simp [place, hxe, hex]
  | cons b l ih =>
    by_cases hbe : precedes b e
    · have hbx := precedes_trans hbe hex
      simp [place, hbe, hbx, ih]
    · by_cases hbx : precedes b x <;> simp [place, hbe, hbx, hxe, hex]

omit [Std.TransOrd W] in
theorem take_place_take (k : ℕ) (x : PathWeight S T W) (l : List (PathWeight S T W)) :
    (place x (l.take k)).take k = (place x l).take k := by
  induction l generalizing k with
  | nil => rw [List.take_nil]
  | cons b l ih =>
    cases k with
    | zero => rw [List.take_zero, List.take_zero]
    | succ k =>
      rw [List.take_succ_cons, place, place]
      split
      · rw [List.take_succ_cons, List.take_succ_cons, ih]
      · have hcut : (b :: l.take k).take k = (b :: l).take k := by
          rw [← List.take_succ_cons, List.take_take, Nat.min_eq_left (Nat.le_succ k)]
        rw [List.take_succ_cons, List.take_succ_cons, hcut]

variable [BEq S] [LawfulBEq S] [BEq T] [LawfulBEq T] [BEq W] [LawfulBEq W]

omit [Std.TransOrd W] in
/-- Cutting a list before an entry is added makes no difference once it is cut again. -/
theorem take_uncut_take (hl : l.Pairwise (precedes · ·)) (k : ℕ) (x : PathWeight S T W) :
    (uncut (l.take k) x).take k = (uncut l x).take k := by
  by_cases hcut : x ∈ l.take k
  · rw [uncut, if_pos hcut, uncut, if_pos (List.mem_of_mem_take hcut), List.take_take,
      Nat.min_self]
  · rw [uncut, if_neg hcut, take_place_take]
    by_cases hx : x ∈ l
    · have hall (y : PathWeight S T W) (hy : y ∈ l.take k) : precedes y x :=
        precedes_of_pair hl (pair_sublist_of_not_mem_take hx hcut hy)
      have hlen : (l.take k).length = k := by
        rw [List.length_take, Nat.min_eq_left]
        by_contra hlt
        exact hcut (by rwa [List.take_of_length_le (by omega)])
      have hfull := insertBest_of_full hlen hall
      rw [insertBest, if_neg hcut, take_place_take] at hfull
      rw [hfull, uncut, if_pos hx]
    · rw [uncut, if_neg hx]

theorem uncut_uncut (hxe : ¬ precedes x e) (l : List (PathWeight S T W)) :
    uncut (uncut l x) e = uncut (uncut l e) x := by
  have hne : x ≠ e := fun h => hxe (h ▸ precedes_refl x)
  by_cases hx : x ∈ l <;> by_cases he : e ∈ l <;>
    simp [uncut, hx, he, (place_perm _ l).mem_iff, hne, hne.symm, place_place hxe]

variable [Zero W]

/-- Entries of different weight may be added in either order. -/
theorem Ranked.insertBest_insertBest (h : Ranked k l) (hx : x.weight ≠ 0) (he : e.weight ≠ 0)
    (hxe : ¬ precedes x e) : KBest.insertBest k (KBest.insertBest k l x) e =
      KBest.insertBest k (KBest.insertBest k l e) x := by
  rw [(h.insertBest hx).insertBest_eq, (h.insertBest he).insertBest_eq, h.insertBest_eq,
    h.insertBest_eq, take_uncut_take (h.sorted_uncut x), take_uncut_take (h.sorted_uncut e),
    uncut_uncut hxe]

theorem Ranked.foldl_insertBest_swap {v : List (PathWeight S T W)} (h : Ranked k l)
    (hv : ∀ x ∈ v, x.weight ≠ 0 ∧ ¬ precedes x e) (he : e.weight ≠ 0) :
    v.foldl (KBest.insertBest k) (KBest.insertBest k l e) =
      KBest.insertBest k (v.foldl (KBest.insertBest k) l) e := by
  induction v generalizing l with
  | nil => rfl
  | cons x v ih =>
    obtain ⟨hx, hxe⟩ := hv x List.mem_cons_self
    rw [List.foldl_cons, List.foldl_cons, ← h.insertBest_insertBest hx he hxe]
    exact ih (h.insertBest hx) fun y hy => hv y (List.mem_cons_of_mem x hy)

omit [Std.TransOrd W] in
theorem Ranked.foldl_insertBest_of_covered (h : Ranked k l) (hm : ∀ x ∈ m, Covered k l x) :
    m.foldl (KBest.insertBest k) l = l := by
  induction m with
  | nil => rfl
  | cons x m ih =>
    rw [List.foldl_cons, h.insertBest_of_covered (hm x List.mem_cons_self)]
    exact ih fun y hy => hm y (List.mem_cons_of_mem x hy)

/-- What is cut off a list is covered by what it keeps, wherever that is added. -/
theorem Ranked.foldl_insertBest_take (h : Ranked k l) (hm : m.Pairwise (precedes · ·))
    (hnodup : m.Nodup) (hlive : ∀ x ∈ m, x.weight ≠ 0) :
    (m.take k).foldl (KBest.insertBest k) l = m.foldl (KBest.insertBest k) l := by
  have hkept (x : PathWeight S T W) (hx : x ∈ m.take k) : x.weight ≠ 0 :=
    hlive x (List.mem_of_mem_take hx)
  have hcut : ((m.take k).foldl (KBest.insertBest k) l).length ≤ k :=
    (h.foldl_insertBest hkept).length_le
  have hcovers := ((Best.ofRanked h).foldl_insertBest hkept).covers
  have hdrop : ∀ x ∈ m.drop k, Covered k ((m.take k).foldl (KBest.insertBest k) l) x := by
    intro x hx
    rw [← List.take_append_drop k m] at hm hnodup
    obtain ⟨htake, -, hbefore⟩ := List.pairwise_append.1 hm
    refine .inr ((h.foldl_insertBest hkept).shut_of_many (List.nodup_append.1 hnodup).1 ?_
      fun y hy => ⟨hcovers y (.inr hy), hbefore y hy x hx⟩)
    have hlen := List.length_pos_of_mem hx
    rw [List.length_drop] at hlen
    rw [List.length_take]
    omega
  calc (m.take k).foldl (KBest.insertBest k) l
      = (m.drop k).foldl (KBest.insertBest k) ((m.take k).foldl (KBest.insertBest k) l) :=
        ((h.foldl_insertBest hkept).foldl_insertBest_of_covered hdrop).symm
    _ = m.foldl (KBest.insertBest k) l := by rw [← List.foldl_append, List.take_append_drop]

/-- An entry may be added to a list before or after the list is added to another. -/
theorem Ranked.foldl_insertBest_insertBest (h : Ranked k l) (hm : Ranked k m) (he : e.weight ≠ 0) :
    (KBest.insertBest k m e).foldl (KBest.insertBest k) l =
      KBest.insertBest k (m.foldl (KBest.insertBest k) l) e := by
  have hlive : ∀ x ∈ uncut m e, x.weight ≠ 0 := by
    intro x hx
    rcases mem_uncut.1 hx with rfl | hx
    · exact he
    · exact hm.live x hx
  rw [hm.insertBest_eq, h.foldl_insertBest_take (hm.sorted_uncut e) (hm.nodup_uncut e) hlive]
  by_cases hmem : e ∈ m
  · have hcov := ((Best.ofRanked h).foldl_insertBest hm.live).covers e (.inr hmem)
    rw [uncut, if_pos hmem, (h.foldl_insertBest hm.live).insertBest_of_covered hcov]
  · obtain ⟨u, v, rfl, hu, hv⟩ := exists_split hm.sorted e
    have hulive (x : PathWeight S T W) (hx : x ∈ u) : x.weight ≠ 0 :=
      hm.live x (List.mem_append_left v hx)
    rw [uncut, if_neg hmem, place_append hu hv, List.foldl_append, List.foldl_cons,
      List.foldl_append]
    exact (h.foldl_insertBest hulive).foldl_insertBest_swap
      (fun x hx => ⟨hm.live x (List.mem_append_right u hx), hv x hx⟩) he

theorem Ranked.foldl_insertBest_assoc {n : List (PathWeight S T W)} (h : Ranked k l)
    (hm : Ranked k m) (hn : ∀ x ∈ n, x.weight ≠ 0) :
    (n.foldl (KBest.insertBest k) m).foldl (KBest.insertBest k) l =
      n.foldl (KBest.insertBest k) (m.foldl (KBest.insertBest k) l) := by
  induction n using List.reverseRecOn with
  | nil => rfl
  | append_singleton n e ih =>
    have hn' (x : PathWeight S T W) (hx : x ∈ n) : x.weight ≠ 0 := hn x (List.mem_append_left _ hx)
    have he : e.weight ≠ 0 := hn e (List.mem_append_right n (List.mem_singleton_self e))
    rw [List.foldl_append, List.foldl_append, List.foldl_cons, List.foldl_nil, List.foldl_cons,
      List.foldl_nil, h.foldl_insertBest_insertBest (hm.foldl_insertBest hn') he, ih hn']

variable {a b c : KBest k S T W} (ha : Ranked k a.entries)
include ha

theorem Ranked.add_assoc (hb : Ranked k b.entries) (hc : Ranked k c.entries) :
    a + b + c = a + (b + c) := by
  have hab : Ranked k (a + b).entries := ranked_ofEntries _
  have hbc : Ranked k (b + c).entries := ranked_ofEntries _
  have hentries : (a + b + c).entries = (a + (b + c)).entries := by
    rw [hab.entries_add hc, ha.entries_add hb, ha.entries_add hbc, hb.entries_add hc,
      ha.foldl_insertBest_assoc hb hc.live]
  exact congrArg KBest.mk hentries

theorem Ranked.add_self : a + a = a := by
  have hentries : (a + a).entries = a.entries := by
    rw [ha.entries_add ha, ha.foldl_insertBest_of_covered fun x hx => .inl hx]
  exact congrArg KBest.mk hentries

omit [Std.TransOrd W] in
theorem Ranked.ofEntries_eq : (ofEntries a.entries : KBest k S T W) = a :=
  congrArg KBest.mk ha.entries_ofEntries

omit [Std.TransOrd W] in
theorem Ranked.zero_add : 0 + a = a := ha.ofEntries_eq

omit [Std.TransOrd W] in
theorem Ranked.add_zero : a + 0 = a := by
  change (ofEntries (a.entries ++ []) : KBest k S T W) = a
  rw [List.append_nil, ha.ofEntries_eq]

end Sums

section Order

variable [Std.LawfulEqOrd W] {a b : W} {f : W → W}
variable (hf : ∀ a b, compare a b = .lt → compare (f a) (f b) = .lt)
include hf

theorem isLE_of_lt (h : (compare a b).isLE) : (compare (f a) (f b)).isLE := by
  cases hab : compare a b with
  | lt =>
    rw [hf a b hab]
    rfl
  | eq =>
    rw [Std.LawfulEqOrd.eq_of_compare hab]
    exact Std.ReflCmp.isLE_rfl
  | gt => simp [hab] at h

theorem injective_of_lt [Std.TransOrd W] : Function.Injective f := by
  intro a b h
  have hne {a b : W} (h : f a = f b) : compare a b ≠ .lt := by
    intro hab
    have hlt := hf a b hab
    rw [h, Std.ReflOrd.compare_self] at hlt
    cases hlt
  cases hab : compare a b with
  | lt => exact absurd hab (hne h)
  | eq => exact Std.LawfulEqOrd.eq_of_compare hab
  | gt => exact absurd (Std.OrientedCmp.lt_of_gt hab) (hne h.symm)

end Order

section Products

variable [MonoidWithZero W] [Std.TransOrd W] [Std.LawfulEqOrd W]

theorem StrictlyOrdered.mul_ne_zero (ho : StrictlyOrdered W) {a b : W} (ha : a ≠ 0) (hb : b ≠ 0) :
    a * b ≠ 0 := by
  intro hz
  exact ha (injective_of_lt (ho.mul_right_lt b hb) (hz.trans (zero_mul b).symm))

/-- The entries that are not zero and not tied to an origin. -/
def Rootless : Set (PathWeight S T W) := {e | e.origin = none ∧ e.weight ≠ 0}

variable (ho : StrictlyOrdered W) {p q r : PathWeight S T W}

omit [Ord W] [Std.TransOrd W] [Std.LawfulEqOrd W] in
theorem append_assoc (p q r : PathWeight S T W) :
    (p.append q).append r = p.append (q.append r) := by
  cases h : p.origin <;> simp [PathWeight.append, mul_assoc, h]

include ho

theorem append_mem_rootless (hp : p ∈ Rootless) (hq : q ∈ Rootless) : p.append q ∈ Rootless := by
  obtain ⟨hp, hpw⟩ := hp
  obtain ⟨hq, hqw⟩ := hq
  exact ⟨by simp [PathWeight.append, hp, hq], ho.mul_ne_zero hpw hqw⟩

/-- Different paths followed by one path are different. -/
theorem injOn_append_right (hq : q ∈ Rootless) :
    Set.InjOn (fun p : PathWeight S T W => p.append q) Rootless := by
  intro p hp p' hp' h
  have hweight := injective_of_lt (ho.mul_right_lt q.weight hq.2) (congrArg PathWeight.weight h)
  have htrail : p.trail = p'.trail := List.append_cancel_left (congrArg PathWeight.trail h)
  cases p
  cases p'
  simp_all [Rootless]

theorem injOn_append_left (hp : p ∈ Rootless) :
    Set.InjOn (fun q : PathWeight S T W => p.append q) Rootless := by
  intro q hq q' hq' h
  have hweight := injective_of_lt (ho.mul_left_lt p.weight hp.2) (congrArg PathWeight.weight h)
  have htrail : q.trail = q'.trail := List.append_cancel_right (congrArg PathWeight.trail h)
  cases q
  cases q'
  simp_all [Rootless]

variable [BEq S] [LawfulBEq S] [BEq T] [LawfulBEq T] [BEq W] [LawfulBEq W]

omit [MonoidWithZero W] [Std.LawfulEqOrd W] ho in
theorem best_ofEntries [Zero W] (l : List (PathWeight S T W)) :
    Best k {e | e ∈ l ∧ e.weight ≠ 0} (ofEntries l : KBest k S T W).entries where
  ranked := ranked_ofEntries l
  sound _ he := mem_ofEntries he
  covers e he := by
    have h := entries_ofEntries_append (k := k) [] l
    rw [List.nil_append, ofEntries_nil] at h
    rw [h]
    have hlive : ∀ e ∈ l.filter (fun e => !e.weight == 0), e.weight ≠ 0 := fun e he => by
      simpa using (List.mem_filter.1 he).2
    refine (Best.nil.foldl_insertBest hlive).covers e (.inr (List.mem_filter.2 ⟨he.1, ?_⟩))
    simpa using he.2

omit [MonoidWithZero W] [Std.LawfulEqOrd W] ho in
/-- When `z` has no place in a list, `f z` has none where the images of the list are covered. -/
theorem Ranked.shut_image [Zero W] {l m : List (PathWeight S T W)} {z : PathWeight S T W}
    (hm : Ranked k m) (hl : Ranked k l) {f : PathWeight S T W → PathWeight S T W}
    (hinj : Set.InjOn f {y | y ∈ l}) (hmono : ∀ y ∈ l, precedes y z → precedes (f y) (f z))
    (hcov : ∀ y ∈ l, Covered k m (f y)) (hz : Shut k l z) : Shut k m (f z) := by
  refine hm.shut_of_many (hl.nodup.map_on hinj) (by rw [List.length_map]; exact hz.1) ?_
  intro x hx
  obtain ⟨y, hy, rfl⟩ := List.mem_map.1 hx
  exact ⟨hcov y hy, hmono y hy (hz.2 y hy)⟩

/-- The best products of the best entries are the best products of all: an entry that is left out
is no better than `k` others, and followed by the same path it still is. -/
theorem Best.mul_rootless {X Y : Set (PathWeight S T W)} {a b : KBest k S T W}
    (hX : X ⊆ Rootless) (hY : Y ⊆ Rootless) (ha : Best k X a.entries) (hb : Best k Y b.entries) :
    Best k (Set.image2 PathWeight.append X Y) (a * b).entries := by
  have hprod : Best k _ (a * b).entries :=
    best_ofEntries (a.entries.flatMap fun p => b.entries.map p.append)
  have hlisted (p : PathWeight S T W) (hp : p ∈ a.entries) (q : PathWeight S T W)
      (hq : q ∈ b.entries) : Covered k (a * b).entries (p.append q) :=
    hprod.covers _ ⟨List.mem_flatMap.2 ⟨p, hp, List.mem_map_of_mem hq⟩,
      (append_mem_rootless ho (hX (ha.sound p hp)) (hY (hb.sound q hq))).2⟩
  have hright (p : PathWeight S T W) (hp : p ∈ a.entries) (q : PathWeight S T W) (hq : q ∈ Y) :
      Covered k (a * b).entries (p.append q) := by
    have hpr := hX (ha.sound p hp)
    refine (hb.covers q hq).elim (hlisted p hp q) fun hshut => .inr ?_
    refine hprod.ranked.shut_image hb.ranked (f := p.append) ?_ ?_ (hlisted p hp) hshut
    · exact (injOn_append_left ho hpr).mono fun q hq => hY (hb.sound q hq)
    · exact fun q' _ h =>
        precedes_iff.2 (isLE_of_lt (ho.mul_left_lt p.weight hpr.2) (precedes_iff.1 h))
  refine ⟨hprod.ranked, fun x hx => ?_, ?_⟩
  · obtain ⟨p, hp, hx⟩ := List.mem_flatMap.1 (hprod.sound x hx).1
    obtain ⟨q, hq, rfl⟩ := List.mem_map.1 hx
    exact ⟨p, ha.sound p hp, q, hb.sound q hq, rfl⟩
  · rintro _ ⟨p, hp, q, hq, rfl⟩
    have hqr := hY hq
    refine (ha.covers p hp).elim (fun hp => hright p hp q hq) fun hshut => .inr ?_
    refine hprod.ranked.shut_image ha.ranked (f := fun p => p.append q) ?_ ?_
      (fun p hp => hright p hp q hq) hshut
    · exact (injOn_append_right ho hqr).mono fun p hp => hX (ha.sound p hp)
    · exact fun p' _ h =>
        precedes_iff.2 (isLE_of_lt (ho.mul_right_lt q.weight hqr.2) (precedes_iff.1 h))

end Products

/-- At most `k` different entries, best first, none of weight zero and none tied to an origin. -/
structure Normal [Zero W] (a : KBest k S T W) : Prop where
  ranked : Ranked k a.entries
  rootless : ∀ e ∈ a.entries, e.origin = none

section Normal

variable [MonoidWithZero W] [Std.TransOrd W] [BEq S] [LawfulBEq S] [BEq T] [LawfulBEq T]
variable [BEq W] [LawfulBEq W] {a b c : KBest k S T W}

omit [Std.TransOrd W] [BEq S] [LawfulBEq S] [BEq T] [LawfulBEq T] [BEq W] [LawfulBEq W] in
theorem Normal.subset_rootless (ha : a.Normal) : {e | e ∈ a.entries} ⊆ Rootless := fun e he =>
  ⟨ha.rootless e he, ha.ranked.live e he⟩

theorem Normal.add (ha : a.Normal) (hb : b.Normal) : (a + b).Normal where
  ranked := ranked_ofEntries _
  rootless e he :=
    (List.mem_append.1 (mem_ofEntries he).1).elim (ha.rootless e) (hb.rootless e)

theorem Normal.mul (ha : a.Normal) (hb : b.Normal) : (a * b).Normal where
  ranked := ranked_ofEntries _
  rootless e he := by
    obtain ⟨p, hp, he⟩ := List.mem_flatMap.1 (mem_ofEntries he).1
    obtain ⟨q, hq, rfl⟩ := List.mem_map.1 he
    simp [PathWeight.append, ha.rootless p hp, hb.rootless q hq]

omit [Std.TransOrd W] in
theorem Normal.one_mul (ha : a.Normal) : 1 * a = a := by
  have hone : (⟨1, none, []⟩ : PathWeight S T W).append = id := by
    funext p
    simp [PathWeight.append]
  change (ofEntries (a.entries.map (⟨1, none, []⟩ : PathWeight S T W).append ++ []) :
    KBest k S T W) = a
  rw [hone, List.map_id, List.append_nil, ha.ranked.ofEntries_eq]

omit [Std.TransOrd W] in
theorem Normal.mul_one (ha : a.Normal) : a * 1 = a := by
  have hone (p : PathWeight S T W) : [⟨1, none, []⟩].map p.append = [p] := by
    simp [PathWeight.append]
  change (ofEntries (a.entries.flatMap fun p => [⟨1, none, []⟩].map p.append) : KBest k S T W) = a
  simp only [hone, List.flatMap_singleton', ha.ranked.ofEntries_eq]

/-- The laws of a semiring, as equations of lists, or of their weights where the two sides may list
different ones of the tied entries. -/
structure LawsUpToTies (a b c : KBest k S T W) : Prop where
  normal_add : (a + b).Normal
  normal_mul : (a * b).Normal
  add_assoc : a + b + c = a + (b + c)
  add_self : a + a = a
  zero_add : 0 + a = a
  add_zero : a + 0 = a
  one_mul : 1 * a = a
  mul_one : a * 1 = a
  zero_mul : 0 * a = 0
  mul_zero : a * 0 = 0
  add_comm : (a + b).weights = (b + a).weights
  mul_assoc : (a * b * c).weights = (a * (b * c)).weights
  mul_add : (a * (b + c)).weights = (a * b + a * c).weights
  add_mul : ((a + b) * c).weights = (a * c + b * c).weights

variable [Std.LawfulEqOrd W]

/-- Where a factor other than zero keeps the better weight the better one, lists in normal form
satisfy the laws of a semiring up to ties. -/
theorem lawsUpToTies (ho : StrictlyOrdered W) (ha : a.Normal) (hb : b.Normal) (hc : c.Normal) :
    LawsUpToTies a b c := by
  have hA := Best.ofRanked ha.ranked
  have hB := Best.ofRanked hb.ranked
  have hC := Best.ofRanked hc.ranked
  have hab := Best.mul_rootless ho ha.subset_rootless hb.subset_rootless hA hB
  have hbc := Best.mul_rootless ho hb.subset_rootless hc.subset_rootless hB hC
  have hac := Best.mul_rootless ho ha.subset_rootless hc.subset_rootless hA hC
  have hprod {X Y : Set (PathWeight S T W)} (hX : X ⊆ Rootless) (hY : Y ⊆ Rootless) :
      Set.image2 PathWeight.append X Y ⊆ Rootless := by
    rintro _ ⟨p, hp, q, hq, rfl⟩
    exact append_mem_rootless ho (hX hp) (hY hq)
  refine ⟨ha.add hb, ha.mul hb, ha.ranked.add_assoc hb.ranked hc.ranked, ha.ranked.add_self,
    ha.ranked.zero_add, ha.ranked.add_zero, ha.one_mul, ha.mul_one, zero_mul_eq a, mul_zero_eq a,
    ?_, ?_, ?_, ?_⟩
  · exact (hA.add hB).weights_eq (Set.union_comm _ _ ▸ hB.add hA)
  · have hleft := Best.mul_rootless ho (hprod ha.subset_rootless hb.subset_rootless)
      hc.subset_rootless hab hC
    have hright := Best.mul_rootless ho ha.subset_rootless
      (hprod hb.subset_rootless hc.subset_rootless) hA hbc
    rw [Set.image2_assoc append_assoc] at hleft
    exact hleft.weights_eq hright
  · have hleft := Best.mul_rootless ho ha.subset_rootless
      (Set.union_subset hb.subset_rootless hc.subset_rootless) hA (hB.add hC)
    rw [Set.image2_union_right] at hleft
    exact hleft.weights_eq (hab.add hac)
  · have hleft := Best.mul_rootless ho
      (Set.union_subset ha.subset_rootless hb.subset_rootless) hc.subset_rootless (hA.add hB) hC
    rw [Set.image2_union_left] at hleft
    exact hleft.weights_eq (hac.add hbc)

end Normal

section Costs

open Tropical

/-- Two paths of equal cost, the one through `first` listed before the other. -/
def twoWays (first : Bool) : KBest 2 Unit Bool (Tropical (WithTop ℤ)) :=
  ⟨[⟨trop (-1 : ℤ), none, [first]⟩, ⟨trop (-1 : ℤ), none, [!first]⟩]⟩

theorem normal_twoWays (first : Bool) : (twoWays first).Normal where
  ranked := by cases first <;> exact ⟨by decide, by simp [twoWays], by decide, by decide⟩
  rootless := by cases first <;> decide

/-- Here the two sums of the commutative law are different lists of equal weights. -/
theorem lawsUpToTies_twoWays :
    StrictlyOrdered (Tropical (WithTop ℤ)) ∧ (twoWays true).Normal ∧ (twoWays false).Normal ∧
      (twoWays true * twoWays false).Normal ∧
      twoWays true + twoWays false ≠ twoWays false + twoWays true ∧
      LawsUpToTies (twoWays true) (twoWays false) (twoWays true * twoWays false) := by
  have htrue := normal_twoWays true
  have hfalse := normal_twoWays false
  refine ⟨Costs.strictlyOrdered, htrue, hfalse, htrue.mul hfalse, fun heq => ?_,
    lawsUpToTies Costs.strictlyOrdered htrue hfalse (htrue.mul hfalse)⟩
  have hentries := congrArg KBest.entries heq
  rw [htrue.ranked.entries_add hfalse.ranked, hfalse.ranked.entries_add htrue.ranked] at hentries
  exact absurd (beq_iff_eq.2 hentries) (by decide)

end Costs

end WeightedAutomata.KBest
