import WeightedAutomata.Proofs.Determinization.Readings

/-!
Automata that contain another one, its states and transitions under other names. Whatever starts in
a state of the smaller one stays within it, so that paths and the sums over them are the same.
-/
namespace WeightedAutomata.Automaton

variable {L S T S' T' W : Type}

/-- From `f s` on `B` moves as `A` does from `s`, and `k` renames the transitions. -/
structure Embeds (A : Automaton Id L S T W) (B : Automaton Id L S' T' W) (f : S → S')
    (k : T → T') : Prop where
  leaving : ∀ s, B.leaving (f s) = (A.leaving s).map k
  cost : ∀ t, B.cost (k t) = A.cost t
  target : ∀ t, B.target (k t) = f (A.target t)
  label : ∀ t, B.label (k t) = A.label t

namespace Embeds

variable {A : Automaton Id L S T W} {B : Automaton Id L S' T' W} {f : S → S'} {k : T → T'}
variable (h : A.Embeds B f k)
include h

theorem isPath_iff {s : S} {us : List T'} :
    B.IsPath (f s) us ↔ ∃ ts, A.IsPath s ts ∧ ts.map k = us := by
  induction us generalizing s with
  | nil => exact ⟨fun _ => ⟨[], trivial, rfl⟩, fun _ => trivial⟩
  | cons u us ih =>
    rw [isPath_cons, h.leaving, List.mem_map]
    constructor
    · rintro ⟨⟨t, ht, rfl⟩, hpath⟩
      rw [h.target, ih] at hpath
      obtain ⟨ts, hts, rfl⟩ := hpath
      exact ⟨t :: ts, ⟨ht, hts⟩, rfl⟩
    · rintro ⟨ts, hts, heq⟩
      obtain ⟨t, ts, rfl, rfl, hrest⟩ := List.map_eq_cons_iff.1 heq
      refine ⟨⟨t, hts.1, rfl⟩, ?_⟩
      rw [h.target, ih]
      exact ⟨ts, hts.2, hrest⟩

theorem endpoint_map (s : S) (ts : List T) :
    B.endpoint (f s) (ts.map k) = f (A.endpoint s ts) := by
  induction ts generalizing s with
  | nil => rfl
  | cons t ts ih => rw [List.map_cons, endpoint_cons, endpoint_cons, h.target, ih]

theorem labels_map (ts : List T) : B.labels (ts.map k) = A.labels ts := by
  unfold labels
  rw [List.filterMap_map]
  congr 1
  funext t
  exact h.label t

/-- A cycle is one of the smaller automaton. -/
theorem exists_cycle (hf : Function.Injective f) {s : S} {us : List T'} (hne : us ≠ [])
    (hpath : B.IsPath (f s) us) (hend : B.endpoint (f s) us = f s) :
    ∃ ts, ts ≠ [] ∧ A.IsPath s ts ∧ A.endpoint s ts = s ∧ A.labels ts = B.labels us := by
  obtain ⟨ts, hts, rfl⟩ := h.isPath_iff.1 hpath
  rw [h.endpoint_map] at hend
  exact ⟨ts, by simpa using hne, hts, hf hend, (h.labels_map ts).symm⟩

theorem bounded {R : S' → Prop} {size : S' → ℕ} (hb : B.Bounded R size) :
    A.Bounded (fun s => R (f s)) fun s => size (f s) where
  closed s hs t ht := by
    have hmem : k t ∈ B.leaving (f s) := by
      rw [h.leaving]
      exact List.mem_map_of_mem ht
    have hnext := hb.closed _ hs _ hmem
    rwa [h.target] at hnext
  sum_lt s hs := by
    have hlt := hb.sum_lt (f s) hs
    rw [h.leaving, List.map_map] at hlt
    simpa only [Function.comp_def, h.target] using hlt

theorem epsilonPart [BEq S] [BEq S'] [Semiring W] [BEq W] :
    (A.epsilonPart []).Embeds (B.epsilonPart []) f k where
  leaving s := by
    rw [leaving_epsilonPart, leaving_epsilonPart, h.leaving, List.filter_map]
    congr 2
    funext t
    exact congrArg Option.isNone (h.label t)
  cost := h.cost
  target := h.target
  label _ := rfl

section Sums

variable [Semiring W] (g : S' → W) (s : S)

theorem onward_eq : B.onward g (f s) = A.onward (fun q => g (f q)) s := by
  unfold onward
  rw [h.leaving, List.map_map]
  simp only [Function.comp_def, h.cost, h.target]

theorem pathSum_eq (n : ℕ) : B.pathSum n g (f s) = A.pathSum n (fun q => g (f q)) s := by
  induction n generalizing s with
  | zero => simp
  | succ n ih =>
    rw [pathSum_succ, pathSum_succ, h.onward_eq]
    simp only [ih]

variable [BEq L]

theorem onLabel_eq (l : Option L) : B.onLabel l g (f s) = A.onLabel l (fun q => g (f q)) s := by
  unfold onLabel
  rw [h.leaving, List.map_map]
  simp only [Function.comp_def, h.cost, h.target, h.label]

variable [BEq S] [BEq S'] [BEq W] (size : S' → ℕ)

omit [BEq L] in
theorem closing_eq : B.closing size g (f s) =
    A.closing (fun q => size (f q)) (fun q => g (f q)) s :=
  h.epsilonPart.pathSum_eq g s _

theorem after_eq (x : List L) : B.after size g x (f s) =
    A.after (fun q => size (f q)) (fun q => g (f q)) x s := by
  induction x generalizing s with
  | nil => rfl
  | cons a x ih =>
    rw [after, after, h.onLabel_eq]
    simp only [h.closing_eq, ih]

end Sums

end Embeds

end WeightedAutomata.Automaton
