import WeightedAutomata.Proofs.KBest.Coverage

/-!
Two cut lists of best entries that receive the same entries, one of them emptied now and then. What
is new in the first is still pending in the second: cutting the second loses nothing of it.
-/
namespace WeightedAutomata.KBest

variable {S T W : Type} [Ord W] [Std.TransOrd W] {k : ℕ} {l d r : List (PathWeight S T W)}
variable {x y z e : PathWeight S T W}

/-- In a list with a new entry `x`, what is before `x` is no worse and what is behind it is worse. -/
theorem pairwise_place_new (hl : l.Pairwise (precedes · ·)) (hx : x ∉ l) :
    (place x l).Pairwise fun a b => (b = x → precedes a x) ∧ (a = x → ¬ precedes b x) := by
  obtain ⟨u, v, rfl, hu, hv⟩ := exists_split hl x
  rw [List.mem_append, not_or] at hx
  rw [place_append hu hv]
  have hne {w : List (PathWeight S T W)} (hw : x ∉ w) {a : PathWeight S T W} (ha : a ∈ w) : a ≠ x :=
    fun heq => hw (heq ▸ ha)
  have hold {w : List (PathWeight S T W)} (hw : x ∉ w) :
      w.Pairwise fun a b => (b = x → precedes a x) ∧ (a = x → ¬ precedes b x) := by
    refine List.pairwise_of_forall_mem_list fun a ha b hb => ⟨fun h => ?_, fun h => ?_⟩
    · exact absurd h (hne hw hb)
    · exact absurd h (hne hw ha)
  refine List.pairwise_append.2 ⟨hold hx.1, List.pairwise_cons.2 ⟨fun b hb => ?_, hold hx.2⟩, ?_⟩
  · exact ⟨fun h => absurd h (hne hx.2 hb), fun _ => hv b hb⟩
  · intro a ha b _
    exact ⟨fun _ => hu a ha, fun h => absurd h (hne hx.1 ha)⟩

variable [BEq S] [LawfulBEq S] [BEq T] [LawfulBEq T] [BEq W] [LawfulBEq W]

theorem pair_sublist_of_place (hl : l.Pairwise (precedes · ·)) (hx : x ∉ l)
    (h : [z, e].Sublist (place x l)) (hz : z ≠ x) (he : e ≠ x) : [z, e].Sublist l := by
  obtain ⟨u, v, rfl, hu, hv⟩ := exists_split hl x
  rw [List.mem_append, not_or] at hx
  rw [place_append hu hv] at h
  have hkeep {w : List (PathWeight S T W)} (hw : x ∉ w) : w.filter (· != x) = w :=
    List.filter_eq_self.2 fun a ha => by
      have hne : a ≠ x := fun heq => hw (heq ▸ ha)
      simpa using hne
  have hfilter := h.filter (· != x)
  have hself : ¬ (x != x) = true := by simp
  have hpair : x ∉ [z, e] := by simp [hz.symm, he.symm]
  rwa [List.filter_append, hkeep hx.1, List.filter_cons_of_neg (p := (· != x)) hself, hkeep hx.2,
    hkeep hpair] at hfilter

/-- Entries of `d` are free, or pending in `r` behind none that they are not behind in `d`. -/
structure Tracks [Zero W] (k : ℕ) (free : PathWeight S T W → Prop) (d r : List (PathWeight S T W)) :
    Prop where
  listed : Ranked k d
  pending : Ranked k r
  covered : ∀ z ∈ r, Covered k d z
  kept : ∀ e ∈ d, free e ∨ e ∈ r ∧ ∀ z, [z, e].Sublist r → [z, e].Sublist d

namespace Tracks

variable [Zero W] {free : PathWeight S T W → Prop}

omit [Std.TransOrd W] [BEq S] [LawfulBEq S] [BEq T] [LawfulBEq T] [BEq W] [LawfulBEq W] in
theorem mono {free' : PathWeight S T W → Prop} (h : Tracks k free d r)
    (hfree : ∀ e, free e → free' e) : Tracks k free' d r :=
  ⟨h.listed, h.pending, h.covered, fun e he => (h.kept e he).imp_left (hfree e)⟩

variable (h : Tracks k free d r)
include h

theorem kept_uncut (he : e ∈ insertBest k d x) :
    free e ∨ e ∈ uncut r x ∧ ∀ z, [z, e].Sublist (uncut r x) → [z, e].Sublist (uncut d x) := by
  by_cases hed : e ∈ d
  · rcases h.kept e hed with hfree | ⟨her, hbefore⟩
    · exact .inl hfree
    · refine .inr ⟨mem_uncut.2 (.inr her), fun z hz => ?_⟩
      by_cases hxr : x ∈ r
      · rw [uncut, if_pos hxr] at hz
        exact (hbefore z hz).trans (sublist_uncut d x)
      · rw [uncut, if_neg hxr] at hz
        have hex : e ≠ x := fun heq => hxr (heq ▸ her)
        by_cases hzx : z = x
        · subst hzx
          have hnew := (pairwise_place_new h.pending.sorted hxr).sublist hz
          have hworse : ¬ precedes e z := (List.pairwise_pair.1 hnew).2 rfl
          refine (pair_sublist_or (mem_uncut.2 (.inl rfl)) (mem_uncut.2 (.inr hed)) hex.symm).resolve_right
            fun hez => hworse ?_
          exact precedes_of_pair (h.listed.sorted_uncut z) hez
        · have hold := pair_sublist_of_place h.pending.sorted hxr hz hzx hex
          exact (hbefore z hold).trans (sublist_uncut d x)
  · -- the entry is new in both lists
    have hopen : ¬ Covered k d e := fun hcov => by
      rcases mem_of_mem_insertBest he with rfl | hmem
      · exact hed (h.listed.insertBest_of_covered hcov ▸ he)
      · exact hed hmem
    obtain rfl : e = x := (mem_of_mem_insertBest he).resolve_right hed
    have hxr : e ∉ r := fun hmem => hopen (h.covered e hmem)
    refine .inr ⟨mem_uncut.2 (.inl rfl), fun z hz => ?_⟩
    have hzr : z = e ∨ z ∈ r := mem_uncut.1 (hz.subset List.mem_cons_self)
    rw [uncut, if_neg hxr] at hz
    have hnew := List.pairwise_pair.1 ((pairwise_place_new h.pending.sorted hxr).sublist hz)
    have hze : z ≠ e := fun heq => hnew.2 heq (precedes_refl e)
    have hprec : precedes z e := hnew.1 rfl
    have hzd : z ∈ d := by
      rcases h.covered z (hzr.resolve_left hze) with hzd | hshut
      · exact hzd
      · exact absurd (.inr (hshut.mono hprec)) hopen
    rw [uncut, if_neg hed]
    have hmem (b : PathWeight S T W) := (place_perm e d).mem_iff (a := b)
    refine (pair_sublist_or ((hmem z).2 (List.mem_cons_of_mem e hzd)) ((hmem e).2 List.mem_cons_self)
      hze).resolve_right fun hez => ?_
    have hlast := (pairwise_place_new h.listed.sorted hed).sublist hez
    exact (List.pairwise_pair.1 hlast).2 rfl hprec

/-- Both lists may be offered an entry. -/
theorem insertBest (hx : x.weight ≠ 0) :
    Tracks k free (KBest.insertBest k d x) (KBest.insertBest k r x) where
  listed := h.listed.insertBest hx
  pending := h.pending.insertBest hx
  covered z hz := by
    rcases mem_of_mem_insertBest hz with rfl | hz
    · exact h.listed.covered_insertBest_self z
    · exact (h.covered z hz).insertBest h.listed x
  kept e he := by
    rcases h.kept_uncut he with hfree | ⟨her, hbefore⟩
    · exact .inl hfree
    · have hr := h.pending.nodup_uncut x
      have hd := h.listed.nodup_uncut x
      rw [h.listed.insertBest_eq] at he ⊢
      rw [h.pending.insertBest_eq]
      refine .inr ⟨?_, fun z hz => pair_sublist_take hd (hbefore z ?_) he⟩
      · -- if `e` is cut off, `k` entries are before it in `r`, hence in `d`
        by_contra hcut
        have hfull : ((uncut r x).take k).length = k := by
          rw [List.length_take, min_eq_left_iff]
          by_contra hlt
          rw [List.take_of_length_le (by omega)] at hcut
          exact hcut her
        have hsub : ∀ z ∈ (uncut r x).take k, z ∈ ((uncut d x).take k).erase e := by
          intro z hz
          have hpair := hbefore z (pair_sublist_of_not_mem_take her hcut hz)
          have hmem := (pair_sublist_take hd hpair he).subset List.mem_cons_self
          have hne : z ≠ e := fun heq => hcut (heq ▸ hz)
          exact (List.mem_erase_of_ne hne).2 hmem
        have hle := (List.Nodup.subperm (hr.sublist (List.take_sublist k _)) hsub).length_le
        rw [hfull, List.length_erase_of_mem he] at hle
        have hshort := List.length_take_le k (uncut d x)
        have hpos := List.length_pos_of_mem he
        omega
      · exact hz.trans (List.take_sublist k _)

end Tracks

end WeightedAutomata.KBest
