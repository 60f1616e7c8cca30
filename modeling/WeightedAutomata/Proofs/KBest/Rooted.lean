import Mathlib.Algebra.Ring.Defs
import WeightedAutomata.KBest.View
import WeightedAutomata.Proofs.KBest.Routes
import WeightedAutomata.Proofs.SingleInitial

/-!
The view of the `k` best paths with a single initial state: its routes are the paths from the initial
states of the operand, and their entries are those paths with their weights.
-/
namespace WeightedAutomata

open KBest

variable {m : Type → Type} {L S T W : Type} {k : ℕ}

section Single

variable [Semiring W] [BEq W] [LawfulBEq W] {e p x : PathWeight S T W}

omit [LawfulBEq W] in
theorem KBest.length_single_le (e : PathWeight S T W) :
    (single e : KBest k S T W).entries.length ≤ 1 := by
  unfold single
  split
  · exact Nat.zero_le 1
  · exact Nat.le_refl 1

theorem KBest.best_single [Ord W] (hk : 1 ≤ k) (e : PathWeight S T W) :
    Best k {x | x = e ∧ x.weight ≠ 0} (single e : KBest k S T W).entries := by
  unfold single
  by_cases he : e.weight = 0
  · rw [if_pos (by simpa using he)]
    refine ⟨ranked_nil, nofun, ?_⟩
    rintro x ⟨rfl, hx⟩
    exact absurd he hx
  · rw [if_neg (by simpa using he)]
    refine ⟨⟨List.pairwise_singleton _ e, List.nodup_singleton e, hk, by simpa using he⟩,
      fun x hx => ?_, fun x hx => .inl ?_⟩
    · obtain rfl := List.mem_singleton.1 hx
      exact ⟨rfl, he⟩
    · rw [hx.1]
      exact List.mem_singleton_self e

theorem KBest.followed_single :
    (single p : KBest k S T W).followed e = some x ↔ e.append p = x ∧ x.weight ≠ 0 := by
  rw [followed_eq_some]
  constructor
  · rintro ⟨q, hq, rfl, hx⟩
    unfold single best? at hq
    split at hq
    · cases hq
    · cases hq
      exact ⟨rfl, hx⟩
  · rintro ⟨rfl, hx⟩
    have hp : ¬ (p.weight == 0) = true := by
      intro hz
      exact hx (by rw [PathWeight.append, eq_of_beq hz, mul_zero])
    refine ⟨p, ?_, rfl, hx⟩
    unfold single best?
    rw [if_neg hp]
    rfl

theorem KBest.single_mul [BEq S] [BEq T] [LawfulBEq S] [LawfulBEq T] [Ord W] (hk : 1 ≤ k)
    (e p : PathWeight S T W) : (single e * single p : KBest k S T W) = single (e.append p) := by
  have hk' : k ≠ 0 := Nat.ne_of_gt hk
  change ofEntries ((single e : KBest k S T W).entries.flatMap fun q =>
    (single p : KBest k S T W).entries.map q.append) = _
  by_cases he : e.weight == 0
  · have hz : (e.append p).weight = 0 := by rw [PathWeight.append, eq_of_beq he, zero_mul]
    simp [single, he, hz, ofEntries]
  · by_cases hp : p.weight == 0
    · have hz : (e.append p).weight = 0 := by rw [PathWeight.append, eq_of_beq hp, mul_zero]
      simp [single, he, hp, hz, ofEntries]
    · by_cases hz : (e.append p).weight == 0
      · simp [single, he, hp, hz, ofEntries]
      · simp [single, he, hp, hz, ofEntries, keep, hk']

end Single

namespace Automaton

section View

variable [Monad m] [LawfulMonad m] [Zero W] [BEq W]

theorem Answers.kBest {A : Automaton m L S T W} {Q : Automaton Id L S T W} {R : S → Prop}
    (h : A.Answers Q R) : (A.kBest k).Answers (Q.kBest k) R where
  closed := h.closed
  starts := h.starts
  initialStates := h.initialStates
  outgoing := h.outgoing
  initialWeight s hs := by
    change (do return KBest.liftInitial (← A.initialWeight s) s) = _
    rw [h.initialWeight s hs, pure_bind]
    rfl
  finalWeight s hs := by
    change (do return KBest.lift (← A.finalWeight s)) = _
    rw [h.finalWeight s hs, pure_bind]
    rfl
  weight s hs t ht := by
    change (do return KBest.liftTransition (← A.weight t) t) = _
    rw [h.weight s hs t ht, pure_bind]
    rfl
  source := h.source
  target := h.target
  label := h.label
  order := h.order

theorem reachable_kBest {Q : Automaton Id L S T W} {s : S} :
    (Q.kBest k).Reachable s ↔ Q.Reachable s := by
  constructor
  · intro h
    induction h with
    | start hs => exact .start hs
    | step _ ht ih => exact ih.step ht
  · intro h
    induction h with
    | start hs => exact .start hs
    | step _ ht ih => exact Reachable.step ih ht

theorem Lawful.kBest [LawfulBEq W] {Q : Automaton Id L S T W} (hQ : Q.Lawful) (k : ℕ) :
    (Q.kBest k).Lawful where
  starts_nodup := hQ.starts_nodup
  mem_starts s := by
    have hiff : (KBest.liftInitial (Q.entry s) s : KBest k S T W) ≠ 0 ↔ Q.entry s ≠ 0 := by
      unfold KBest.liftInitial single
      by_cases hz : Q.entry s = 0
      · simp only [hz, beq_self_eq_true, if_true, ne_eq, not_true_eq_false, iff_false, not_not]
        rfl
      · simp only [beq_iff_eq, hz, if_false, ne_eq, not_false_eq_true, iff_true]
        intro h
        cases h
    exact (hQ.mem_starts s).trans hiff.symm
  source_eq := hQ.source_eq

end View

section Routes

variable [Semiring W]

/-- The entry of a path from an initial state, the final weight left out. -/
def pathEntry (A : Automaton Id L S T W) (s : S) (ts : List T) : PathWeight S T W :=
  ⟨A.entry s * A.pathCost ts, some s, ts.reverse⟩

/-- A path from an initial state as one from the added state. -/
def rooted : List T → List (Rooted T)
  | [] => []
  | t :: ts => .fused t :: ts.map .plain

variable {A : Automaton Id L S T W} {s : S} {t : T} {ts us : List T}

theorem pathEntry_append_singleton : A.pathEntry s (ts ++ [t]) =
    (A.pathEntry s ts).append ⟨A.cost t, none, [t]⟩ := by
  simp [pathEntry, PathWeight.append, pathCost, mul_assoc]

theorem rooted_append (hts : ts ≠ []) (us : List T) :
    rooted (ts ++ us) = rooted ts ++ us.map .plain := by
  cases ts with
  | nil => exact absurd rfl hts
  | cons t ts => simp [rooted]

theorem rooted_append_singleton (hts : ts ≠ []) : rooted (ts ++ [t]) = rooted ts ++ [.plain t] :=
  rooted_append hts [t]

theorem map_transition_rooted (ts : List T) : (rooted ts).map Rooted.transition = ts := by
  cases ts with
  | nil => rfl
  | cons t ts => simp [rooted, Rooted.transition, Function.comp_def]

variable [BEq W] [BEq S] [BEq T] [Ord W]

theorem cost_plain_kBest (t : T) : (A.kBest k).singleInitial.cost (.plain t) =
    single ⟨A.cost t, none, [t]⟩ := rfl

variable [LawfulBEq W] [LawfulBEq S] [LawfulBEq T]

theorem cost_fused_kBest (hk : 1 ≤ k) (t : T) : (A.kBest k).singleInitial.cost (.fused t) =
    single ⟨A.entry (A.source t) * A.cost t, some (A.source t), [t]⟩ :=
  KBest.single_mul hk ⟨A.entry (A.source t), some (A.source t), []⟩ ⟨A.cost t, none, [t]⟩

/-- A route from the added state is empty or a path from an initial state. -/
theorem route_cases (hA : A.Lawful) (hk : 1 ≤ k) {rs : List (Rooted T)} {q : Option S}
    {e : PathWeight S T W} (h : (A.kBest k).singleInitial.Route none rs q e) :
    rs = [] ∧ q = none ∧ e = ⟨1, none, []⟩ ∨
      ∃ s ts, s ∈ A.starts ∧ ts ≠ [] ∧ A.IsPath s ts ∧ q = some (A.endpoint s ts) ∧
        rs = rooted ts ∧ e = A.pathEntry s ts ∧ e.weight ≠ 0 := by
  induction rs using List.reverseRecOn generalizing q e with
  | nil =>
    obtain ⟨-, rfl, hvalue⟩ := h
    cases hvalue
    exact .inl ⟨rfl, rfl, rfl⟩
  | append_singleton rs r ih =>
    obtain ⟨p, z, hroute, hr, hx, rfl⟩ := h.of_snoc
    rcases ih hroute with ⟨rfl, rfl, rfl⟩ | ⟨s, ts, hs, hne, hpath, rfl, rfl, rfl, -⟩
    · rw [leaving_singleInitial_none] at hr
      obtain ⟨t, ht, rfl⟩ := List.mem_map.1 hr
      obtain ⟨s, hs, ht⟩ := List.mem_flatMap.1 ht
      have hsource : A.source t = s := hA.source_eq s t ht
      rw [cost_fused_kBest hk, KBest.followed_single, hsource] at hx
      refine .inr ⟨s, [t], hs, List.cons_ne_nil t [], ⟨ht, trivial⟩, rfl, rfl, ?_, hx.2⟩
      rw [← hx.1]
      simp [pathEntry, PathWeight.append]
    · rw [leaving_singleInitial_some] at hr
      obtain ⟨t, ht, rfl⟩ := List.mem_map.1 hr
      rw [cost_plain_kBest, KBest.followed_single, ← pathEntry_append_singleton] at hx
      refine .inr ⟨s, ts ++ [t], hs, by simp, isPath_append.2 ⟨hpath, ht, trivial⟩, ?_,
        (rooted_append_singleton hne).symm, hx.1.symm, hx.2⟩
      rw [endpoint_append]
      rfl

/-- A path from an initial state is a route from the added state, unless its weight is zero. -/
theorem route_rooted (hA : A.Lawful) (hk : 1 ≤ k) (hs : s ∈ A.starts) (hne : ts ≠ [])
    (hpath : A.IsPath s ts) (hweight : (A.pathEntry s ts).weight ≠ 0) :
    (A.kBest k).singleInitial.Route none (rooted ts) (some (A.endpoint s ts))
      (A.pathEntry s ts) := by
  induction ts using List.reverseRecOn with
  | nil => exact absurd rfl hne
  | append_singleton ts t ih =>
    have ht : t ∈ A.leaving (A.endpoint s ts) := (isPath_append.1 hpath).2.1
    rcases List.eq_nil_or_concat ts with rfl | ⟨us, u, rfl⟩
    · have hsource : A.source t = s := hA.source_eq s t ht
      refine (Route.nil none).snoc (t := Rooted.fused t) ?_ ?_
      · rw [leaving_singleInitial_none]
        exact List.mem_map.2 ⟨t, List.mem_flatMap.2 ⟨s, hs, ht⟩, rfl⟩
      · rw [cost_fused_kBest hk, KBest.followed_single, hsource]
        exact ⟨by simp [pathEntry, PathWeight.append], hweight⟩
    · have hne' : us.concat u ≠ [] := by simp
      have hprefix : (A.pathEntry s (us.concat u)).weight ≠ 0 := by
        intro hz
        rw [pathEntry_append_singleton, PathWeight.append, hz, zero_mul] at hweight
        exact hweight rfl
      have hroute := ih hne' (isPath_append.1 hpath).1 hprefix
      rw [rooted_append_singleton hne', endpoint_append]
      refine hroute.snoc (t := Rooted.plain t) ?_ ?_
      · rw [leaving_singleInitial_some]
        exact List.mem_map.2 ⟨t, ht, rfl⟩
      · rw [cost_plain_kBest, KBest.followed_single, ← pathEntry_append_singleton]
        exact ⟨rfl, hweight⟩

/-- Nothing that comes back gets better: no path comes back, or no transition improves a weight. -/
def NeverBetter (A : Automaton Id L S T W) : Prop :=
  A.Acyclic ∨ ∀ s, A.Reachable s → ∀ t ∈ A.leaving s, ∀ a : W, (compare a (a * A.cost t)).isLE

omit [BEq W] [BEq S] [BEq T] [LawfulBEq W] [LawfulBEq S] [LawfulBEq T] in
theorem precedes_pathEntry [Std.TransOrd W]
    (h : ∀ s, A.Reachable s → ∀ t ∈ A.leaving s, ∀ a : W, (compare a (a * A.cost t)).isLE)
    (hs : s ∈ A.starts) (hpath : A.IsPath s (ts ++ us)) :
    precedes (A.pathEntry s ts) (A.pathEntry s (ts ++ us)) := by
  induction us using List.reverseRecOn with
  | nil =>
    rw [List.append_nil]
    exact precedes_refl _
  | append_singleton us t ih =>
    rw [← List.append_assoc] at hpath ⊢
    obtain ⟨hinit, ht, -⟩ := isPath_append.1 hpath
    refine precedes_trans (ih hinit) (precedes_iff.2 ?_)
    rw [pathEntry_append_singleton]
    exact h _ (A.closed_reachable.endpoint (.start hs) hinit) t ht _

omit [BEq W] [BEq S] [BEq T] [LawfulBEq W] [LawfulBEq S] [LawfulBEq T] in
/-- A path that comes back to a state is no better than the part of it that has led there before. -/
theorem NeverBetter.precedes_of_return [Std.TransOrd W] (hn : A.NeverBetter) (hs : s ∈ A.starts)
    (hpath : A.IsPath s (ts ++ us)) (hend : A.endpoint s (ts ++ us) = A.endpoint s ts) :
    precedes (A.pathEntry s ts) (A.pathEntry s (ts ++ us)) := by
  rcases hn with hacyclic | hworse
  · obtain ⟨hinit, hback⟩ := isPath_append.1 hpath
    have hreach := A.closed_reachable.endpoint (.start hs) hinit
    rw [endpoint_append] at hend
    by_cases hus : us = []
    · rw [hus, List.append_nil]
      exact precedes_refl _
    · exact absurd hend (hacyclic _ hreach us hus hback)
  · exact precedes_pathEntry hworse hs hpath

theorem routed_kBest [Std.TransOrd W] (hA : A.Lawful) (hk : 1 ≤ k) (hn : A.NeverBetter) :
    (A.kBest k).singleInitial.Routed none where
  few r := by
    cases r with
    | fused t =>
      rw [cost_fused_kBest hk]
      exact length_single_le _
    | plain t =>
      rw [cost_plain_kBest]
      exact length_single_le _
  distinct rs vs q p e hr hv := by
    rcases route_cases hA hk hr with ⟨rfl, -, rfl⟩ | ⟨s, ts, -, -, -, -, rfl, rfl, -⟩
    · rcases route_cases hA hk hv with ⟨rfl, -, -⟩ | ⟨s, ts, -, -, -, -, -, heq, -⟩
      · rfl
      · cases congrArg PathWeight.origin heq
    · rcases route_cases hA hk hv with ⟨-, -, heq⟩ | ⟨s', us, -, -, -, -, rfl, heq, -⟩
      · cases congrArg PathWeight.origin heq
      · have htrail : ts.reverse = us.reverse := congrArg PathWeight.trail heq
        rw [List.reverse_inj.1 htrail]
  settles rs vs q e x hr hv := by
    rcases route_cases hA hk hr with ⟨rfl, rfl, rfl⟩ | ⟨s, ts, hs, hne, hpath, rfl, rfl, rfl, -⟩
    · rcases route_cases hA hk hv with ⟨-, -, rfl⟩ | ⟨s, ts, -, -, -, hq, -⟩
      · exact precedes_refl _
      · cases hq
    · rcases route_cases hA hk hv with ⟨-, hq, -⟩ | ⟨s', us, hs', hne', hpath', hq, hrs, rfl, -⟩
      · cases hq
      · -- the longer path starts with the shorter one
        obtain ⟨ws, rfl⟩ : ∃ ws, us = ts ++ ws := by
          have htransitions := congrArg (List.map Rooted.transition) hrs
          rw [List.map_append, map_transition_rooted, map_transition_rooted] at htransitions
          exact ⟨_, htransitions.symm⟩
        obtain rfl : s = s' := by
          cases ts with
          | nil => exact absurd rfl hne
          | cons t ts => rw [← hA.source_eq s t hpath.1, hA.source_eq s' t hpath'.1]
        exact hn.precedes_of_return hs hpath' (Option.some.inj hq).symm

end Routes

end Automaton

end WeightedAutomata
