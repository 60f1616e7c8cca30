import Mathlib.Data.Finset.Max
import Mathlib.Data.List.Nodup
import Mathlib.Data.List.Perm.Subperm
import Mathlib.Order.Nat
import WeightedAutomata.Explicit.Ranks

/-!
Topological ranks: a state is ranked once all edges into it have been removed, so every edge leads
to a higher rank.
-/
namespace WeightedAutomata

variable {n : ℕ} {successors : ℕ → List ℕ} {inDegree : ℕ → ℕ} {v : ℕ}

/-- The in-degrees of the edges that `successors` lists between states below `n`. -/
structure InDegrees (n : ℕ) (successors : ℕ → List ℕ) (inDegree : ℕ → ℕ) : Prop where
  target_lt : ∀ u < n, ∀ v ∈ successors u, v < n
  eq_count : ∀ v < n, inDegree v = ((List.range n).flatMap successors).count v

/-- Different states have no more edges into `v` than there are, and all of them only if they
include every state with such an edge. -/
theorem InDegrees.count_le (h : InDegrees n successors inDegree) {l : List ℕ} (hl : l.Nodup)
    (hlt : ∀ u ∈ l, u < n) (hv : v < n) : (l.flatMap successors).count v ≤ inDegree v ∧
      ((l.flatMap successors).count v = inDegree v → ∀ u < n, v ∈ successors u → u ∈ l) := by
  obtain ⟨l', hl', hsub⟩ : l.Subperm (List.range n) :=
    List.subperm_of_subset hl fun u hu => List.mem_range.2 (hlt u hu)
  obtain ⟨rest, hrest⟩ := hsub.exists_perm_append
  have hperm : (List.range n).Perm (l ++ rest) := hrest.trans (hl'.append_right rest)
  have hcount : inDegree v =
      (l.flatMap successors).count v + (rest.flatMap successors).count v := by
    rw [h.eq_count v hv, (hperm.flatMap_right successors).count_eq, List.flatMap_append,
      List.count_append]
  refine ⟨by omega, fun heq u hu hedge => ?_⟩
  have hnone : (rest.flatMap successors).count v = 0 := by omega
  rcases List.mem_append.1 (hperm.mem_iff.1 (List.mem_range.2 hu)) with hmem | hmem
  · exact hmem
  · exact absurd (List.mem_flatMap.2 ⟨u, hmem, hedge⟩) (List.count_eq_zero.1 hnone)

/-- States that include every one with an edge into `v` have all the edges into `v`. -/
theorem InDegrees.count_eq (h : InDegrees n successors inDegree) {l : List ℕ} (hl : l.Nodup)
    (hlt : ∀ u ∈ l, u < n) (hv : v < n) (hall : ∀ u < n, v ∈ successors u → u ∈ l) :
    (l.flatMap successors).count v = inDegree v := by
  obtain ⟨l', hl', hsub⟩ : l.Subperm (List.range n) :=
    List.subperm_of_subset hl fun u hu => List.mem_range.2 (hlt u hu)
  obtain ⟨rest, hrest⟩ := hsub.exists_perm_append
  have hperm : (List.range n).Perm (l ++ rest) := hrest.trans (hl'.append_right rest)
  have hdisjoint := (List.nodup_append.1 (hperm.nodup_iff.1 List.nodup_range)).2.2
  have hnone : (rest.flatMap successors).count v = 0 := by
    refine List.count_eq_zero.2 fun hmem => ?_
    obtain ⟨u, hu, hedge⟩ := List.mem_flatMap.1 hmem
    have hlt := List.mem_range.1 (hperm.mem_iff.2 (List.mem_append_right l hu))
    exact hdisjoint u (hall u hlt hedge) u hu rfl
  rw [h.eq_count v hv, (hperm.flatMap_right successors).count_eq, List.flatMap_append,
    List.count_append, hnone, Nat.add_zero]

namespace Ranking

variable {r : Ranking} {released : List ℕ}

/-- The ranking after the edges into `released` have been removed. -/
structure Tracks (n : ℕ) (inDegree : ℕ → ℕ) (released : List ℕ) (r : Ranking) : Prop where
  count_le : ∀ v < n, released.count v ≤ inDegree v
  blockers : ∀ v < n, r.blockers[v]? = some (inDegree v - released.count v)
  mem_ranked : ∀ v, v ∈ r.ranked.toList ↔ v < n ∧ released.count v = inDegree v
  nodup : r.ranked.toList.Nodup

/-- Removes one edge into `v`, as long as there is one left. -/
def release? (r : Ranking) (v : ℕ) : Option Ranking :=
  match r.blockers[v]? with
  | some (_ + 1) => some (r.release v)
  | _ => none

theorem Tracks.release?_eq (h : r.Tracks n inDegree released) (hv : v < n)
    (hcount : released.count v < inDegree v) : r.release? v = some (r.release v) := by
  obtain ⟨left, hleft⟩ := Nat.exists_eq_add_one.2 (Nat.sub_pos_of_lt hcount)
  simp only [release?, h.blockers v hv, hleft]

/-- Every edge into a ranked state comes from a state ranked before it. -/
def Ascending (n : ℕ) (successors : ℕ → List ℕ) (ranked : List ℕ) : Prop :=
  ∀ v ∈ ranked, ∀ u < n, v ∈ successors u → u ∈ ranked ∧ ranked.idxOf u < ranked.idxOf v

theorem tracks_start (n : ℕ) (inDegree : ℕ → ℕ) :
    Tracks n inDegree [] ⟨(Array.range n).map inDegree,
      (Array.range n).filter fun s => inDegree s == 0⟩ where
  count_le v _ := by simp
  blockers v hv := by simp [hv]
  mem_ranked v := by
    simp only [Array.toList_filter, Array.toList_range, List.mem_filter, List.mem_range, beq_iff_eq,
      List.count_nil]
    exact and_congr_right fun _ => eq_comm
  nodup := by
    rw [Array.toList_filter, Array.toList_range]
    exact List.nodup_range.filter _

/-- Removing an edge ranks its target exactly if that was the last edge into it. -/
theorem Tracks.release (h : r.Tracks n inDegree released) (hv : v < n)
    (hcount : released.count v < inDegree v) : (r.release v).Tracks n inDegree (released ++ [v]) ∧
      ((r.release v).ranked = r.ranked ∨ (r.release v).ranked = r.ranked.push v ∧
        v ∉ r.ranked.toList ∧ (released ++ [v]).count v = inDegree v) := by
  have hnew (q : ℕ) : (released ++ [v]).count q = released.count q + if v = q then 1 else 0 := by
    simp [List.count_append, List.count_singleton]
  have hle : ∀ q < n, (released ++ [v]).count q ≤ inDegree q := by
    intro q hq
    have := h.count_le q hq
    rw [hnew]
    split
    · next heq =>
      subst heq
      omega
    · omega
  have hblockers : ∀ q < n, (r.blockers.modify v (· - 1))[q]? =
      some (inDegree q - (released ++ [v]).count q) := by
    intro q hq
    rw [Array.getElem?_modify, h.blockers q hq, hnew]
    split
    · rw [Option.map_some, Nat.sub_sub]
    · rfl
  have hfresh : v ∉ r.ranked.toList := fun hmem =>
    absurd ((h.mem_ranked v).1 hmem).2 (Nat.ne_of_lt hcount)
  have hother {q : ℕ} (hq : q ≠ v) : (released ++ [v]).count q = released.count q := by
    rw [hnew, if_neg hq.symm, Nat.add_zero]
  unfold Ranking.release
  by_cases hlast : (released ++ [v]).count v = inDegree v
  · have hzero : (r.blockers.modify v (· - 1))[v]? = some 0 := by
      rw [hblockers v hv, hlast, Nat.sub_self]
    simp only [hzero, if_true]
    refine ⟨⟨hle, hblockers, fun q => ?_, ?_⟩, .inr ⟨trivial, hfresh, hlast⟩⟩
    · rw [Array.toList_push, List.mem_append, List.mem_singleton, h.mem_ranked]
      by_cases hq : q = v
      · simp [hq, hv, hlast]
      · simp [hq, hother hq]
    · rw [Array.toList_push]
      exact List.nodup_append.2 ⟨h.nodup, List.nodup_singleton v, by
        rintro q hq _ hmem rfl
        exact hfresh (List.mem_singleton.1 hmem ▸ hq)⟩
  · have hnot : ¬(r.blockers.modify v (· - 1))[v]? = some 0 := by
      have := hle v hv
      rw [hblockers v hv, Option.some_inj]
      omega
    simp only [hnot, if_false]
    refine ⟨⟨hle, hblockers, fun q => ?_, h.nodup⟩, .inl trivial⟩
    rw [h.mem_ranked]
    by_cases hq : q = v
    · subst hq
      simp only [hlast, and_false, iff_false, not_and]
      intro _
      omega
    · rw [hother hq]

theorem Ascending.push {ranked : List ℕ} (h : Ascending n successors ranked) (hv : v ∉ ranked)
    (hedges : ∀ u < n, v ∈ successors u → u ∈ ranked) :
    Ascending n successors (ranked ++ [v]) := by
  intro q hq u hu hedge
  have hindex {p : ℕ} (hp : p ∈ ranked) : (ranked ++ [v]).idxOf p = ranked.idxOf p :=
    List.idxOf_append_of_mem hp
  rcases List.mem_append.1 hq with hq | hq
  · obtain ⟨hmem, hlt⟩ := h q hq u hu hedge
    rw [hindex hmem, hindex hq]
    exact ⟨List.mem_append_left _ hmem, hlt⟩
  · obtain rfl := List.mem_singleton.1 hq
    have hmem := hedges u hu hedge
    rw [hindex hmem, List.idxOf_append_of_notMem hv]
    exact ⟨List.mem_append_left _ hmem, Nat.lt_add_right _ (List.idxOf_lt_length_iff.2 hmem)⟩

/-- The ranking after `k` rounds. -/
def rounds (n : ℕ) (successors : ℕ → List ℕ) (inDegree : ℕ → ℕ) (k : ℕ) : Ranking :=
  (List.range k).foldl (advance successors)
    ⟨(Array.range n).map inDegree, (Array.range n).filter fun s => inDegree s == 0⟩

theorem rounds_succ (k : ℕ) : rounds n successors inDegree (k + 1) =
    (rounds n successors inDegree k).advance successors k := by
  rw [rounds, List.range_succ, List.foldl_append]
  rfl

section Rounds

variable (hdeg : InDegrees n successors inDegree)
include hdeg

/-- The edges of the state of rank `k` are removed one by one, each while it is still there. -/
theorem Tracks.foldl_release {k u : ℕ} (before : List ℕ) {after : List ℕ}
    (h : r.Tracks n inDegree ((r.ranked.toList.take k).flatMap successors ++ before))
    (hasc : Ascending n successors r.ranked.toList) (hk : r.ranked.toList[k]? = some u)
    (hsplit : successors u = before ++ after) :
    let r' := after.foldl Ranking.release r
    r'.Tracks n inDegree ((r'.ranked.toList.take (k + 1)).flatMap successors) ∧
      Ascending n successors r'.ranked.toList ∧ after.foldlM Ranking.release? r = some r' := by
  have hnext : ((r.ranked.toList.take k).flatMap successors ++ before) ++ after =
      (r.ranked.toList.take (k + 1)).flatMap successors := by
    rw [List.take_add_one, hk, List.flatMap_append, List.append_assoc, ← hsplit]
    simp
  have hstates : ∀ q ∈ r.ranked.toList.take (k + 1), q < n := fun q hq =>
    ((h.mem_ranked q).1 (List.mem_of_mem_take hq)).1
  induction after generalizing r before with
  | nil =>
    rw [List.append_nil] at hnext
    exact ⟨hnext ▸ h, hasc, rfl⟩
  | cons v after ih =>
    have hu : u < n := ((h.mem_ranked u).1 (List.mem_of_getElem? hk)).1
    have hv : v < n := hdeg.target_lt u hu v (by simp [hsplit])
    obtain ⟨hle, hall⟩ := hdeg.count_le (h.nodup.sublist (List.take_sublist (k + 1) _)) hstates hv
    rw [← hnext, List.count_append, List.count_cons_self] at hle hall
    have hleft : ((r.ranked.toList.take k).flatMap successors ++ before).count v < inDegree v := by
      omega
    obtain ⟨hrelease, hranked⟩ := h.release hv hleft
    have hlt : k < r.ranked.toList.length := (List.getElem?_eq_some_iff.1 hk).1
    -- A state that is ranked now comes behind the state of rank `k`.
    have hprefix : ∃ tail, (r.release v).ranked.toList = r.ranked.toList ++ tail := by
      rcases hranked with heq | ⟨heq, -⟩
      · exact ⟨[], by rw [heq, List.append_nil]⟩
      · exact ⟨[v], by rw [heq, Array.toList_push]⟩
    obtain ⟨tail, htail⟩ := hprefix
    have htake {j : ℕ} (hj : j ≤ k + 1) :
        (r.release v).ranked.toList.take j = r.ranked.toList.take j := by
      rw [htail, List.take_append_of_le_length (by omega)]
    have hascending : Ascending n successors (r.release v).ranked.toList := by
      rcases hranked with heq | ⟨heq, hfresh, hlast⟩
      · rwa [heq]
      · rw [heq, Array.toList_push]
        apply hasc.push hfresh
        intro q hq hedge
        rw [List.count_append, List.count_singleton_self] at hlast
        exact List.mem_of_mem_take (hall (by omega) q hq hedge)
    rw [List.foldl_cons, List.foldlM_cons, h.release?_eq hv hleft]
    apply ih (before ++ [v])
    · rwa [htake (Nat.le_succ k), ← List.append_assoc]
    · exact hascending
    · rwa [htail, List.getElem?_append_left hlt]
    · rw [hsplit, List.append_assoc, List.singleton_append]
    · rw [htake (Nat.le_succ k), htake le_rfl, ← hnext]
      simp
    · rwa [htake le_rfl]

theorem Tracks.advance {k : ℕ}
    (h : r.Tracks n inDegree ((r.ranked.toList.take k).flatMap successors))
    (hasc : Ascending n successors r.ranked.toList) :
    let r' := r.advance successors k
    r'.Tracks n inDegree ((r'.ranked.toList.take (k + 1)).flatMap successors) ∧
      Ascending n successors r'.ranked.toList ∧
      ∀ u, r.ranked.toList[k]? = some u → (successors u).foldlM Ranking.release? r = some r' := by
  unfold Ranking.advance
  cases hk : r.ranked[k]? with
  | none =>
    have hlength : r.ranked.toList.length ≤ k := Array.getElem?_eq_none_iff.1 hk
    dsimp only
    rw [List.take_of_length_le (by omega)]
    rw [List.take_of_length_le hlength] at h
    refine ⟨h, hasc, fun u hu => ?_⟩
    rw [Array.getElem?_toList, hk] at hu
    cases hu
  | some u =>
    rw [← Array.getElem?_toList] at hk
    obtain ⟨htracks, hascending, hrun⟩ := Tracks.foldl_release hdeg []
      (by rwa [List.append_nil]) hasc hk (List.nil_append (successors u)).symm
    refine ⟨htracks, hascending, fun u' hu => ?_⟩
    obtain rfl : u = u' := Option.some.inj (hk.symm.trans hu)
    exact hrun

theorem tracks_rounds (k : ℕ) :
    let r := rounds n successors inDegree k
    r.Tracks n inDegree ((r.ranked.toList.take k).flatMap successors) ∧
      Ascending n successors r.ranked.toList := by
  induction k with
  | zero =>
    have hstart := tracks_start n inDegree
    refine ⟨hstart, fun v hv u hu hedge => ?_⟩
    obtain ⟨hlt, hzero⟩ := (hstart.mem_ranked v).1 hv
    rw [hdeg.eq_count v hlt, List.count_nil] at hzero
    exact absurd (List.mem_flatMap.2 ⟨u, List.mem_range.2 hu, hedge⟩)
      (List.count_eq_zero.1 hzero.symm)
  | succ k ih =>
    rw [rounds_succ]
    obtain ⟨htracks, hascending, -⟩ := Tracks.advance hdeg ih.1 ih.2
    exact ⟨htracks, hascending⟩

theorem ranked_rounds_subperm (k : ℕ) :
    (rounds n successors inDegree k).ranked.toList.Subperm (List.range n) :=
  have htracks := (tracks_rounds hdeg k).1
  List.subperm_of_subset htracks.nodup fun v hv =>
    List.mem_range.2 ((htracks.mem_ranked v).1 hv).1

theorem size_ranked_rounds_le (k : ℕ) : (rounds n successors inDegree k).ranked.size ≤ n := by
  simpa using (ranked_rounds_subperm hdeg k).length_le

end Rounds

end Ranking

/-- Storing at each element of a list of different states its place in the list. -/
theorem getElem?_foldl_setIfInBounds {l : List ℕ} (hl : l.Nodup) (k : ℕ) (a : Array ℕ)
    (hv : v < a.size) : ((l.zipIdx k).foldl (fun a e => a.setIfInBounds e.1 e.2) a)[v]? =
      if v ∈ l then some (k + l.idxOf v) else a[v]? := by
  induction l generalizing k a with
  | nil => rfl
  | cons u l ih =>
    obtain ⟨hu, hl⟩ := List.nodup_cons.1 hl
    rw [List.zipIdx_cons, List.foldl_cons, ih hl _ _ (by rwa [Array.size_setIfInBounds])]
    by_cases huv : u = v
    · subst huv
      rw [if_neg hu, if_pos List.mem_cons_self, Array.getElem?_setIfInBounds_self_of_lt hv,
        List.idxOf_cons_self, Nat.add_zero]
    · have hmem : v ∈ u :: l ↔ v ∈ l := by simp [Ne.symm huv]
      rw [Array.getElem?_setIfInBounds_ne huv, List.idxOf_cons_ne l huv]
      simp only [hmem, Nat.add_comm, Nat.add_left_comm, Nat.succ_eq_add_one]

theorem size_foldl_setIfInBounds (l : List (ℕ × ℕ)) (a : Array ℕ) :
    (l.foldl (fun a e => a.setIfInBounds e.1 e.2) a).size = a.size := by
  induction l generalizing a with
  | nil => rfl
  | cons e l ih => rw [List.foldl_cons, ih, Array.size_setIfInBounds]

/-- A table of `n` states with the place of each that is listed. -/
def places (n : ℕ) (ranked : List ℕ) : Array ℕ :=
  ranked.zipIdx.foldl (fun a e => a.setIfInBounds e.1 e.2) (Array.replicate n 0)

@[simp] theorem size_places (ranked : List ℕ) : (places n ranked).size = n := by
  rw [places, size_foldl_setIfInBounds, Array.size_replicate]

theorem places_concat (ranked : List ℕ) (u : ℕ) :
    places n (ranked ++ [u]) = (places n ranked).setIfInBounds u ranked.length := by
  rw [places, List.zipIdx_append, List.foldl_append, Nat.zero_add]
  rfl

theorem getElem?_places {ranked : List ℕ} (hranked : ranked.Perm (List.range n)) (hv : v < n) :
    (places n ranked)[v]? = some (ranked.idxOf v) := by
  rw [places, getElem?_foldl_setIfInBounds (hranked.nodup_iff.2 List.nodup_range) 0 _
    (by rwa [Array.size_replicate]), if_pos (hranked.mem_iff.2 (List.mem_range.2 hv)), Nat.zero_add]

theorem topologicalRanks_eq : topologicalRanks n successors inDegree =
    let ranked := (Ranking.rounds n successors inDegree n).ranked
    if ranked.size = n then some (places n ranked.toList) else none := by
  simp only [places, ← Array.toList_zipIdx, Array.foldl_toList]
  rfl

/-- The ranks are the places of the states in a list of them all along which every edge ascends. -/
theorem topologicalRanks_spec (hdeg : InDegrees n successors inDegree) {ranks : Array ℕ}
    (h : topologicalRanks n successors inDegree = some ranks) : ∃ ranked : List ℕ,
      ranked.Perm (List.range n) ∧ Ranking.Ascending n successors ranked ∧
        ranks = places n ranked := by
  have hsub := Ranking.ranked_rounds_subperm hdeg n
  have hasc := (Ranking.tracks_rounds hdeg n).2
  rw [topologicalRanks_eq] at h
  dsimp only at h
  split at h
  · next hsize =>
    exact ⟨_, hsub.perm_of_length_le (by simp [hsize]), hasc, (Option.some.inj h).symm⟩
  · cases h

/-- If every edge goes down by some measure, all states are ranked. -/
theorem topologicalRanks_isSome (hdeg : InDegrees n successors inDegree) (size : ℕ → ℕ)
    (hsize : ∀ u < n, ∀ v ∈ successors u, size v < size u) :
    (topologicalRanks n successors inDegree).isSome := by
  have htracks := (Ranking.tracks_rounds hdeg n).1
  have hlength := Ranking.size_ranked_rounds_le hdeg n
  rw [topologicalRanks_eq]
  generalize Ranking.rounds n successors inDegree n = r at htracks hlength ⊢
  have hstates : ∀ u ∈ r.ranked.toList, u < n := fun u hu => ((htracks.mem_ranked u).1 hu).1
  rw [List.take_of_length_le hlength] at htracks
  have hall : ∀ v < n, v ∈ r.ranked.toList := by
    by_contra! hmissing
    obtain ⟨v, hv, hmissing⟩ := hmissing
    -- An edge into the largest state that is not ranked comes from a ranked one.
    obtain ⟨w, hw, hmax⟩ := ((Finset.range n).filter (· ∉ r.ranked.toList)).exists_max_image size
      ⟨v, Finset.mem_filter.2 ⟨Finset.mem_range.2 hv, hmissing⟩⟩
    obtain ⟨hlt, hw⟩ := Finset.mem_filter.1 hw
    have hlt := Finset.mem_range.1 hlt
    refine hw ((htracks.mem_ranked w).2 ⟨hlt, hdeg.count_eq htracks.nodup hstates hlt ?_⟩)
    intro u hu hedge
    by_contra hnot
    have hle := hmax u (Finset.mem_filter.2 ⟨Finset.mem_range.2 hu, hnot⟩)
    exact absurd (hsize u hu w hedge) (Nat.not_lt.2 hle)
  have hge : n ≤ r.ranked.toList.length := by
    simpa using (List.subperm_of_subset List.nodup_range fun v hv =>
      hall v (List.mem_range.1 hv)).length_le
  have hfull : r.ranked.size = n := le_antisymm hlength hge
  rw [if_pos hfull]
  rfl

end WeightedAutomata
