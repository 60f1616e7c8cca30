import Mathlib.Algebra.BigOperators.Finprod
import WeightedAutomata.Proofs.Paths.Sums

/-!
Complete paths and the sums over sets of them. The paths up to a length are enumerated; numbering
the transitions keeps apart paths through equal parallel transitions.
-/
namespace WeightedAutomata

open scoped BigOperators

/-- A sum over a set that a list enumerates. -/
theorem finsum_mem_eq_sum {α M : Type} [AddCommMonoid M] {s : Set α} {l : List α} (hl : l.Nodup)
    (hs : ∀ a, a ∈ l ↔ a ∈ s) (f : α → M) : s.Finite ∧ ∑ᶠ a ∈ s, f a = (l.map f).sum := by
  classical
  have hset : s = (l.toFinset : Set α) := by
    ext a
    simp [hs]
  constructor
  · exact hset ▸ l.toFinset.finite_toSet
  · rw [hset, finsum_mem_coe_finset, List.sum_toFinset f hl]

theorem sum_map_flatMap {α β M : Type} [AddCommMonoid M] (l : List α) (f : α → List β) (g : β → M) :
    ((l.flatMap f).map g).sum = (l.map fun a => ((f a).map g).sum).sum := by
  induction l with
  | nil => rfl
  | cons a l ih => simp [ih]

theorem sum_map_filterMap {α β M : Type} [AddCommMonoid M] (f : α → Option β) (l : List α)
    (g : β → M) : ((l.filterMap f).map g).sum = (l.map fun a => (f a).elim 0 g).sum := by
  induction l with
  | nil => rfl
  | cons a l ih =>
    cases ha : f a
    · simp [ha, ih]
    · simp [ha, ih]

theorem sum_map_filter {α M : Type} [AddCommMonoid M] (p : α → Bool) (l : List α) (g : α → M) :
    ((l.filter p).map g).sum = (l.map fun a => if p a then g a else 0).sum := by
  induction l with
  | nil => rfl
  | cons a l ih =>
    cases ha : p a
    · simp [ha, ih]
    · simp [ha, ih]

namespace Automaton

variable {L S T W : Type}

/-- The automaton with transitions numbered among those that leave the same state. -/
def numbered (A : Automaton Id L S T W) : Automaton Id L S (T × ℕ) W where
  initialStates := A.initialStates
  outgoing s := pure (A.leaving s).zipIdx
  initialWeight := A.initialWeight
  finalWeight := A.finalWeight
  weight t := A.weight t.1
  source t := A.source t.1
  target t := A.target t.1
  label t := A.label t.1
  order := A.order

/-- The paths of fewer than `n` transitions from a state. -/
def paths (A : Automaton Id L S T W) : ℕ → S → List (List T)
  | 0, _ => []
  | n + 1, s => [] :: (A.leaving s).flatMap fun t => (A.paths n (A.target t)).map (t :: ·)

section Paths

variable {A : Automaton Id L S T W}

theorem mem_paths {n : ℕ} {s : S} {ts : List T} :
    ts ∈ A.paths n s ↔ A.IsPath s ts ∧ ts.length < n := by
  induction n generalizing s ts with
  | zero => simp [paths]
  | succ n ih =>
    cases ts with
    | nil => simp [paths]
    | cons t ts =>
      simp only [paths, List.mem_cons, List.mem_flatMap, List.mem_map, isPath_cons]
      constructor
      · rintro (h | ⟨u, hu, us, hus, h⟩)
        · cases h
        · obtain ⟨rfl, rfl⟩ := List.cons.inj h
          obtain ⟨hpath, hlen⟩ := ih.1 hus
          exact ⟨⟨hu, hpath⟩, Nat.succ_lt_succ hlen⟩
      · rintro ⟨⟨ht, hpath⟩, hlen⟩
        exact .inr ⟨t, ht, ts, ih.2 ⟨hpath, Nat.lt_of_succ_lt_succ hlen⟩, rfl⟩

/-- Longer than all of its paths, a bound has no effect. -/
theorem paths_succ {n : ℕ} {s : S} (h : ∀ ts, A.IsPath s ts → ts.length < n) :
    A.paths (n + 1) s = A.paths n s := by
  induction n generalizing s with
  | zero => exact absurd (h [] trivial) (Nat.not_lt_zero _)
  | succ n ih =>
    rw [paths, paths]
    congr 1
    refine List.flatMap_congr fun t ht => ?_
    rw [ih fun ts hts => Nat.lt_of_succ_lt_succ (h (t :: ts) ⟨ht, hts⟩)]

/-- An automaton is bounded by the numbers of its paths if their lengths have a bound. -/
theorem bounded_paths {n : ℕ} (h : ∀ s ∈ A.starts, ∀ ts, A.IsPath s ts → ts.length < n) :
    A.Bounded A.Reachable fun s => (A.paths n s).length where
  closed := A.closed_reachable
  sum_lt s hs := by
    obtain ⟨q, hq, us, hus, rfl⟩ := hs.exists_path
    obtain ⟨n, rfl⟩ : ∃ k, n = k + 1 := Nat.exists_eq_succ_of_ne_zero fun hz =>
      absurd (h q hq us hus) (hz ▸ Nat.not_lt_zero _)
    have hshort (t : T) (ht : t ∈ A.leaving (A.endpoint q us)) (ts : List T)
        (hts : A.IsPath (A.target t) ts) : ts.length < n := by
      have hlt := h q hq (us ++ t :: ts) (isPath_append.2 ⟨hus, ht, hts⟩)
      rw [List.length_append, List.length_cons] at hlt
      omega
    have hmap : (A.leaving (A.endpoint q us)).map (fun t => (A.paths (n + 1) (A.target t)).length) =
        (A.leaving (A.endpoint q us)).map fun t => (A.paths n (A.target t)).length :=
      List.map_congr_left fun t ht => by rw [paths_succ (hshort t ht)]
    rw [hmap, paths, List.length_cons, List.length_flatMap]
    simp only [List.length_map]
    exact Nat.lt_succ_self _

theorem nodup_paths (h : ∀ s, (A.leaving s).Nodup) (n : ℕ) (s : S) : (A.paths n s).Nodup := by
  induction n generalizing s with
  | zero => exact List.nodup_nil
  | succ n ih =>
    rw [paths, List.nodup_cons, List.nodup_flatMap]
    refine ⟨by simp, fun t _ => ?_, (h s).imp fun {t u} hne ts ht hu => hne ?_⟩
    · exact (ih (A.target t)).map fun _ _ heq => (List.cons.inj heq).2
    · obtain ⟨_, _, rfl⟩ := List.mem_map.1 ht
      obtain ⟨_, _, heq⟩ := List.mem_map.1 hu
      exact (List.cons.inj heq).1.symm

theorem nodup_leaving_numbered (s : S) : (A.numbered.leaving s).Nodup := by
  have h : ((A.leaving s).zipIdx.map Prod.snd).Nodup := by
    rw [List.zipIdx_map_snd]
    exact List.nodup_range'
  exact h.of_map

/-- Forgetting the numbers gives every path as often as its transitions are listed. -/
theorem map_fst_paths_numbered (n : ℕ) (s : S) :
    (A.numbered.paths n s).map (List.map Prod.fst) = A.paths n s := by
  induction n generalizing s with
  | zero => rfl
  | succ n ih =>
    have hleaving : A.leaving s = (A.numbered.leaving s).map Prod.fst :=
      (List.zipIdx_map_fst 0 (A.leaving s)).symm
    simp only [paths, List.map_cons, List.map_nil, List.map_flatMap, List.map_map, hleaving,
      List.flatMap_map, ← ih, Function.comp_def]
    rfl

/-- The weights of the transitions, multiplied in order. -/
def pathCost [Monoid W] (A : Automaton Id L S T W) (ts : List T) : W := (ts.map A.cost).prod

@[simp] theorem pathCost_nil [Monoid W] : A.pathCost [] = 1 := rfl

@[simp] theorem pathCost_cons [Monoid W] (t : T) (ts : List T) :
    A.pathCost (t :: ts) = A.cost t * A.pathCost ts := by simp [pathCost]

theorem pathCost_append [Monoid W] (ts us : List T) :
    A.pathCost (ts ++ us) = A.pathCost ts * A.pathCost us := by simp [pathCost]

/-- A numbered path is a path with numbers. -/
theorem isPath_map_fst {s : S} {ts : List (T × ℕ)} (h : A.numbered.IsPath s ts) :
    A.IsPath s (ts.map Prod.fst) := by
  induction ts generalizing s with
  | nil => trivial
  | cons t ts ih => exact ⟨List.fst_mem_of_mem_zipIdx h.1, ih h.2⟩

theorem labels_numbered (ts : List (T × ℕ)) :
    A.numbered.labels ts = A.labels (ts.map Prod.fst) := by
  rw [labels, labels, List.filterMap_map]
  rfl

theorem endpoint_numbered (s : S) (ts : List (T × ℕ)) :
    A.numbered.endpoint s ts = A.endpoint s (ts.map Prod.fst) := by
  rw [endpoint, endpoint, List.foldl_map]
  rfl

theorem pathCost_numbered [Monoid W] (ts : List (T × ℕ)) :
    A.numbered.pathCost ts = A.pathCost (ts.map Prod.fst) := by
  rw [pathCost, pathCost, List.map_map]
  rfl

theorem sum_paths_eq_pathSum [Semiring W] (n : ℕ) (g : S → W) (s : S) :
    ((A.paths n s).map fun ts => A.pathCost ts * g (A.endpoint s ts)).sum = A.pathSum n g s := by
  induction n generalizing s with
  | zero => rw [pathSum_zero, paths, List.map_nil, List.sum_nil]
  | succ n ih =>
    have hstep (t : T) : (((A.paths n (A.target t)).map (t :: ·)).map fun ts =>
        A.pathCost ts * g (A.endpoint s ts)).sum = A.cost t * A.pathSum n g (A.target t) := by
      rw [← ih, ← List.sum_map_mul_left, List.map_map]
      simp only [Function.comp_def, pathCost_cons, endpoint_cons, mul_assoc]
    rw [pathSum_succ, onward, paths, List.map_cons, List.sum_cons, sum_map_flatMap, pathCost_nil,
      one_mul, endpoint_nil]
    simp only [hstep]

theorem sum_paths_numbered [Semiring W] (n : ℕ) (g : S → W) (s : S) :
    ((A.numbered.paths n s).map fun ts =>
      A.numbered.pathCost ts * g (A.numbered.endpoint s ts)).sum = A.pathSum n g s := by
  rw [← sum_paths_eq_pathSum, ← map_fst_paths_numbered (A := A), List.map_map]
  simp only [pathCost_numbered, endpoint_numbered, Function.comp_def]

theorem pathSum_numbered [Semiring W] (n : ℕ) (g : S → W) (s : S) :
    A.numbered.pathSum n g s = A.pathSum n g s := by
  rw [← sum_paths_eq_pathSum, sum_paths_numbered]

/-- Paths of bounded length from the initial states, summed start by start. -/
theorem finsum_paths [AddCommMonoid W] (hs : A.starts.Nodup) (hl : ∀ s, (A.leaving s).Nodup)
    (keep : S → List T → Prop) [∀ s, DecidablePred (keep s)] (bound : S → ℕ)
    (hb : ∀ s ∈ A.starts, ∀ ts, A.IsPath s ts → keep s ts → ts.length < bound s)
    (f : S × List T → W) :
    {c : S × List T | c.1 ∈ A.starts ∧ A.IsPath c.1 c.2 ∧ keep c.1 c.2}.Finite ∧
      ∑ᶠ c ∈ {c : S × List T | c.1 ∈ A.starts ∧ A.IsPath c.1 c.2 ∧ keep c.1 c.2}, f c =
        (A.starts.map fun s => ((A.paths (bound s) s).map fun ts =>
          if keep s ts then f (s, ts) else 0).sum).sum := by
  let kept (s : S) := (A.paths (bound s) s).filter fun ts => decide (keep s ts)
  have hnodup : (A.starts.flatMap fun s => (kept s).map fun ts => (s, ts)).Nodup := by
    refine List.nodup_flatMap.2 ⟨fun s _ => ?_, hs.imp fun {s q} hne c hc hc' => hne ?_⟩
    · exact ((nodup_paths hl _ s).filter _).map fun _ _ heq => (Prod.mk.inj heq).2
    · obtain ⟨_, _, rfl⟩ := List.mem_map.1 hc
      obtain ⟨_, _, heq⟩ := List.mem_map.1 hc'
      exact (Prod.mk.inj heq).1.symm
  have hmem (c : S × List T) : c ∈ (A.starts.flatMap fun s => (kept s).map fun ts => (s, ts)) ↔
      c ∈ {c : S × List T | c.1 ∈ A.starts ∧ A.IsPath c.1 c.2 ∧ keep c.1 c.2} := by
    obtain ⟨s, ts⟩ := c
    simp only [List.mem_flatMap, List.mem_map, kept, List.mem_filter, mem_paths, decide_eq_true_eq,
      Set.mem_ofPred_eq]
    constructor
    · rintro ⟨q, hq, us, ⟨⟨hpath, -⟩, hkeep⟩, heq⟩
      cases heq
      exact ⟨hq, hpath, hkeep⟩
    · rintro ⟨hq, hpath, hkeep⟩
      exact ⟨s, hq, ts, ⟨⟨hpath, hb s hq ts hpath hkeep⟩, hkeep⟩, rfl⟩
  obtain ⟨hfin, hsum⟩ := finsum_mem_eq_sum hnodup hmem f
  refine ⟨hfin, hsum.trans ?_⟩
  simp only [sum_map_flatMap, kept, List.map_map, Function.comp_def, sum_map_filter,
    decide_eq_true_eq]

end Paths

section Complete

variable [Semiring W] (A : Automaton Id L S T W)

/-- Initial weight and weights along the path, multiplied in order. -/
def forwardWeight (c : S × List T) : W := A.entry c.1 * A.pathCost c.2

/-- An initial state and a path from it to a final state. -/
def completePaths : Set (S × List T) :=
  {c | c.1 ∈ A.starts ∧ A.IsPath c.1 c.2 ∧ A.exit (A.endpoint c.1 c.2) ≠ 0}

/-- Initial weight, weights along the path and final weight, multiplied in order. -/
def completeWeight (c : S × List T) : W :=
  A.entry c.1 * A.pathCost c.2 * A.exit (A.endpoint c.1 c.2)

variable {A}

theorem forwardWeight_append (s : S) (ts us : List T) :
    A.forwardWeight (s, ts ++ us) = A.forwardWeight (s, ts) * A.pathCost us := by
  rw [forwardWeight, forwardWeight, pathCost_append, mul_assoc]

theorem forwardWeight_numbered (s : S) (ts : List (T × ℕ)) :
    A.numbered.forwardWeight (s, ts) = A.forwardWeight (s, ts.map Prod.fst) := by
  rw [forwardWeight, forwardWeight, pathCost_numbered]
  rfl

/-- Complete paths of bounded length, summed start by start. -/
theorem finsum_completePaths (hs : A.starts.Nodup) (hl : ∀ s, (A.leaving s).Nodup)
    (keep : List T → Prop) [DecidablePred keep] (bound : S → ℕ)
    (hb : ∀ s ∈ A.starts, ∀ ts, A.IsPath s ts → keep ts → ts.length < bound s) :
    {c ∈ A.completePaths | keep c.2}.Finite ∧
      ∑ᶠ c ∈ {c ∈ A.completePaths | keep c.2}, A.completeWeight c =
        (A.starts.map fun s => A.entry s * ((A.paths (bound s) s).map fun ts =>
          if keep ts then A.pathCost ts * A.exit (A.endpoint s ts) else 0).sum).sum := by
  classical
  have hset : {c ∈ A.completePaths | keep c.2} = {c : S × List T | c.1 ∈ A.starts ∧
      A.IsPath c.1 c.2 ∧ (A.exit (A.endpoint c.1 c.2) ≠ 0 ∧ keep c.2)} := by
    ext c
    simp only [completePaths, Set.mem_ofPred_eq, and_assoc]
  obtain ⟨hfin, hsum⟩ := finsum_paths hs hl (fun s ts => A.exit (A.endpoint s ts) ≠ 0 ∧ keep ts)
    bound (fun s hs ts hts hkeep => hb s hs ts hts hkeep.2) A.completeWeight
  rw [hset]
  refine ⟨hfin, hsum.trans ?_⟩
  congr 1
  apply List.map_congr_left
  intro s _
  rw [← List.sum_map_mul_left]
  congr 1
  apply List.map_congr_left
  intro ts _
  by_cases hexit : A.exit (A.endpoint s ts) = 0
  · simp [hexit]
  · by_cases hkeep : keep ts <;> simp [completeWeight, hexit, hkeep, mul_assoc]

end Complete

end Automaton

end WeightedAutomata
