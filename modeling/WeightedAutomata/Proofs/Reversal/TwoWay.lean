import WeightedAutomata.Proofs.Backward
import WeightedAutomata.Proofs.Contract
import WeightedAutomata.Proofs.Union.Basic

/-!
Automata that can be walked both ways: explicit ones, the primitives, unions and reversals. Forward
and backward they list the same transitions, once each, and never leave a finite set of states.
-/
namespace WeightedAutomata

theorem allSome?_eq_some {n : ℕ} {α : Fin n → Type} {f : (i : Fin n) → Option (α i)}
    {g : (i : Fin n) → α i} (h : ∀ i, f i = some (g i)) : allSome? f = some g := by
  obtain rfl : f = fun i => some (g i) := funext h
  exact dif_pos fun _ => rfl

namespace Automaton

variable {L S T W : Type}

section Definitions

/-- Nothing that is listed, forward or backward, leads out of `F`. -/
structure Encloses (F : Finset S) (A : Automaton Id L S T W) (back : Backward Id S T) : Prop where
  starts : ∀ s ∈ A.starts, s ∈ F
  finals : ∀ s ∈ back.finalStates.run, s ∈ F
  closed : A.Closed (· ∈ F)
  closed_back : (A.reversal back).Closed (· ∈ F)

/-- Forward and backward access list the same transitions, once each. -/
structure TwoWay [Zero W] (A : Automaton Id L S T W) (back : Backward Id S T) : Prop where
  lawful : A.Lawful
  retraces : A.Retraces back
  leaving_nodup : ∀ s, (A.leaving s).Nodup

/-- The automata that have backward access. -/
inductive Reversible [Zero W] [One W] [BEq W] : {S T : Type} → Automaton Id L S T W → Prop
  | explicit (E : Explicit L W) : Reversible (E.automaton : Automaton Id L ℕ ℕ W)
  | string (x : List L) : Reversible (singleString x : Automaton Id L ℕ ℕ W)
  | transition (label : Option L) (w : W) : Reversible (singleTransition label w)
  | union {n : ℕ} {S T : Fin n → Type} {A : (i : Fin n) → Automaton Id L (S i) (T i) W}
      (operands : ∀ i, Reversible (A i)) : Reversible (WeightedAutomata.union A)
  | reversal {S T : Type} {A : Automaton Id L S T W} {back : Backward Id S T}
      (access : A.backward = some back) (operand : Reversible A) : Reversible (A.reversal back)

end Definitions

section Union

variable {n : ℕ} {S T : Fin n → Type} {A : (i : Fin n) → Automaton Id L (S i) (T i) W}
variable {back : (i : Fin n) → Backward Id (S i) (T i)}

/-- Backward access to a union. -/
def unionBack (back : (i : Fin n) → Backward Id (S i) (T i)) : Backward Id (Tagged S) (Tagged T) where
  finalStates := tagAll fun i => (back i).finalStates
  incoming s := return (← (back s.operand).incoming s.value).map (.mk s.operand)

theorem backward_union (haccess : ∀ i, (A i).backward = some (back i)) :
    (WeightedAutomata.union A).backward = some (unionBack back) := by
  change (allSome? fun i => (A i).backward).map _ = _
  rw [allSome?_eq_some haccess]
  rfl

theorem Encloses.union {F : (i : Fin n) → Finset (S i)} (h : ∀ i, Encloses (F i) (A i) (back i)) :
    Encloses (finite_operands fun i => (F i).finite_toSet).toFinset (WeightedAutomata.union A)
      (unionBack back) := by
  have hmem (s : Tagged S) : s ∈ (finite_operands fun i => (F i).finite_toSet).toFinset ↔
      s.value ∈ F s.operand := by simp
  refine ⟨fun s hs => ?_, fun s hs => ?_, ?_, ?_⟩
  · rw [hmem]
    exact (h s.operand).starts _ (mem_starts_union.1 hs)
  · rw [hmem]
    -- The final states are the initial states of the union of the reversals.
    exact (h s.operand).finals _
      (mem_starts_union (A := fun i => (A i).reversal (back i)).1 hs)
  · simp only [hmem]
    exact .union fun i => (h i).closed
  · simp only [hmem]
    exact Closed.union (A := fun i => (A i).reversal (back i)) fun i => (h i).closed_back

variable [Zero W]

theorem Retraces.union (h : ∀ i, (A i).Retraces (back i)) :
    (WeightedAutomata.union A).Retraces (unionBack back) := by
  have hfinals := Lawful.union fun i => lawful_reversal (h i)
  refine ⟨hfinals.starts_nodup, hfinals.mem_starts, fun s => ?_, fun s t => ?_⟩
  · exact ((h s.operand).incoming_nodup s.value).map (injective_tag _)
  · obtain ⟨i, s⟩ := s
    obtain ⟨j, t⟩ := t
    change (⟨j, t⟩ : Tagged T) ∈ (((back i).incoming s).run).map (Tagged.mk i) ↔
      (⟨j, t⟩ : Tagged T) ∈ ((A j).leaving ((A j).source t)).map (Tagged.mk j) ∧
        (⟨j, (A j).target t⟩ : Tagged S) = ⟨i, s⟩
    rw [List.mem_map_of_injective (injective_tag j)]
    constructor
    · intro ht
      obtain ⟨u, hu, heq⟩ := List.mem_map.1 ht
      cases heq
      obtain ⟨hu, hend⟩ := ((h i).mem_incoming s u).1 hu
      exact ⟨hu, congrArg (Tagged.mk i) hend⟩
    · rintro ⟨ht, heq⟩
      cases heq
      exact List.mem_map_of_mem (((h _).mem_incoming _ t).2 ⟨ht, rfl⟩)

theorem TwoWay.union (h : ∀ i, (A i).TwoWay (back i)) :
    (WeightedAutomata.union A).TwoWay (unionBack back) where
  lawful := .union fun i => (h i).lawful
  retraces := .union fun i => (h i).retraces
  leaving_nodup s := ((h s.operand).leaving_nodup s.value).map (injective_tag _)

end Union

section Reversal

variable {A : Automaton Id L S T W} {back : Backward Id S T}

theorem Encloses.reversal {F : Finset S} (h : Encloses F A back) :
    Encloses F (A.reversal back) ⟨A.initialStates, A.outgoing⟩ :=
  ⟨h.finals, h.starts, h.closed_back, h.closed⟩

theorem Encloses.mem_of_reachable {F : Finset S} (h : Encloses F A back) {s : S}
    (hs : A.Reachable s) : s ∈ F := by
  induction hs with
  | start hs => exact h.starts _ hs
  | step _ ht ih => exact h.closed _ ih _ ht

theorem Encloses.finite {F : Finset S} (h : Encloses F A back) : {s | A.Reachable s}.Finite :=
  F.finite_toSet.subset fun _ hs => h.mem_of_reachable hs

theorem TwoWay.reversal [Zero W] (h : A.TwoWay back) :
    (A.reversal back).TwoWay ⟨A.initialStates, A.outgoing⟩ where
  lawful := lawful_reversal h.retraces
  retraces :=
    { finals_nodup := h.lawful.starts_nodup
      mem_finals := h.lawful.mem_starts
      incoming_nodup := h.leaving_nodup
      mem_incoming := fun s t => by
        change t ∈ A.leaving s ↔ t ∈ (back.incoming (A.target t)).run ∧ A.source t = s
        rw [h.retraces.mem_incoming]
        constructor
        · intro ht
          obtain rfl := h.lawful.source_eq s t ht
          exact ⟨⟨ht, rfl⟩, rfl⟩
        · rintro ⟨⟨ht, -⟩, rfl⟩
          exact ht }
  leaving_nodup := h.retraces.incoming_nodup

end Reversal

section Leaves

variable [Zero W] [One W]

open scoped Classical in
/-- The contract of an automaton, read where every query is answered. -/
theorem TwoWay.of_honours {A : Automaton Id L S T W} {back : Backward Id S T}
    (haccess : A.backward = some back) {K : S → Prop} (hone : (1 : W) ≠ 0)
    (h : Honours (A.lift : Automaton Option L S T W) K) (hnodup : ∀ s, (A.leaving s).Nodup) :
    A.TwoWay back := by
  have hlift : (A.lift : Automaton Option L S T W).backward =
      some (back.hoist fun x => pure x.run) := by
    change A.backward.map _ = _
    rw [haccess]
    rfl
  have hbackward := h.backward _ hlift
  have hcount (t : T) : (back.incoming (A.target t)).run.count t =
      (A.leaving (A.source t)).count t := h.count_incoming _ hlift t _ rfl _ rfl
  have htarget {s : S} {t : T} : t ∈ (back.incoming s).run → A.target t = s :=
    hbackward.near_eq s _ rfl t
  refine ⟨⟨h.forward.nodup _ rfl, fun s => h.forward.mem_iff hone _ rfl s _ rfl,
    fun s => h.forward.near_eq s _ rfl⟩, ⟨hbackward.nodup _ rfl,
    fun s => hbackward.mem_iff hone _ rfl s _ rfl, fun s => ?_, fun s t => ?_⟩, hnodup⟩
  · refine List.nodup_iff_count_le_one.2 fun t => ?_
    by_cases ht : t ∈ (back.incoming s).run
    · obtain rfl := htarget ht
      rw [hcount]
      exact List.nodup_iff_count_le_one.1 (hnodup _) t
    · rw [List.count_eq_zero_of_not_mem ht]
      exact Nat.zero_le 1
  · rw [← List.count_pos_iff, ← List.count_pos_iff, ← hcount]
    constructor
    · intro ht
      obtain rfl := htarget (List.count_pos_iff.1 ht)
      exact ⟨ht, rfl⟩
    · rintro ⟨ht, rfl⟩
      exact ht

variable [BEq W] [LawfulBEq W]

theorem twoWay_explicit (hone : (1 : W) ≠ 0) (E : Explicit L W) :
    (E.automaton : Automaton Id L ℕ ℕ W).TwoWay
      ⟨pure (E.statesWhere Terminal.final), fun s => pure (E.incoming.getD s [])⟩ := by
  refine .of_honours rfl hone (Honours.explicit E) fun s => ?_
  change (E.outgoing.getD s []).Nodup
  rw [E.outgoing_eq]
  exact E.nodup_edgesBy (fun e he => E.source_lt he) s

theorem encloses_explicit (E : Explicit L W) :
    Encloses (Finset.range E.states.size) (E.automaton : Automaton Id L ℕ ℕ W)
      ⟨pure (E.statesWhere Terminal.final), fun s => pure (E.incoming.getD s [])⟩ := by
  have h := Honours.explicit E
  have hback := h.backward _ rfl
  exact ⟨fun s hs => Finset.mem_range.2 (h.forward.known _ rfl s hs),
    fun s hs => Finset.mem_range.2 (hback.known _ rfl s hs),
    fun s hs t ht => Finset.mem_range.2 (h.forward.far_known s (Finset.mem_range.1 hs) _ rfl t ht),
    fun s hs t ht => Finset.mem_range.2 (hback.far_known s (Finset.mem_range.1 hs) _ rfl t ht)⟩

omit [BEq W] [LawfulBEq W]

theorem twoWay_string (hone : (1 : W) ≠ 0) (x : List L) :
    (singleString x : Automaton Id L ℕ ℕ W).TwoWay ⟨pure [x.length],
      fun s => pure (if 0 < s ∧ s ≤ x.length then [s - 1] else [])⟩ := by
  refine .of_honours rfl hone (Honours.string x) fun s => ?_
  rw [leaving_singleString]
  split
  · exact List.nodup_singleton s
  · exact List.nodup_nil

theorem encloses_string (x : List L) :
    Encloses (Finset.range (x.length + 1)) (singleString x : Automaton Id L ℕ ℕ W)
      ⟨pure [x.length], fun s => pure (if 0 < s ∧ s ≤ x.length then [s - 1] else [])⟩ := by
  refine ⟨fun s hs => ?_, fun s hs => ?_, fun s hs t ht => ?_, fun s hs t ht => ?_⟩
  · obtain rfl := List.mem_singleton.1 hs
    simp
  · obtain rfl := List.mem_singleton.1 hs
    simp
  · obtain ⟨hlt, ht⟩ := List.mem_ite_nil_right.1 ht
    obtain rfl := List.mem_singleton.1 ht
    simpa using hlt
  · obtain ⟨⟨-, hle⟩, ht⟩ := List.mem_ite_nil_right.1 ht
    obtain rfl := List.mem_singleton.1 ht
    exact Finset.mem_range.2 (by change s - 1 < _; omega)

theorem twoWay_transition (hone : (1 : W) ≠ 0) (label : Option L) (w : W) :
    (singleTransition label w : Automaton Id L ℕ Unit W).TwoWay
      ⟨pure [1], fun s => pure (if s = 1 then [()] else [])⟩ := by
  refine .of_honours rfl hone (Honours.transition label w) fun s => ?_
  change (if s = 0 then [()] else []).Nodup
  split
  · exact List.nodup_singleton ()
  · exact List.nodup_nil

theorem encloses_transition (label : Option L) (w : W) :
    Encloses (Finset.range 2) (singleTransition label w : Automaton Id L ℕ Unit W)
      ⟨pure [1], fun s => pure (if s = 1 then [()] else [])⟩ := by
  refine ⟨fun s hs => ?_, fun s hs => ?_, fun _ _ _ _ => by simp [singleTransition],
    fun _ _ _ _ => by simp [reversal, singleTransition]⟩
  · obtain rfl := List.mem_singleton.1 hs
    simp
  · obtain rfl := List.mem_singleton.1 hs
    simp

end Leaves

/-- Reversible automata are finite, and backward access retraces them. -/
theorem Reversible.exists_backward [Zero W] [One W] [BEq W] [LawfulBEq W]
    {A : Automaton Id L S T W} (h : A.Reversible) :
    ∃ back F, A.backward = some back ∧ Encloses F A back ∧ ((1 : W) ≠ 0 → A.TwoWay back) := by
  induction h with
  | explicit E => exact ⟨_, _, rfl, encloses_explicit E, fun hone => twoWay_explicit hone E⟩
  | string x => exact ⟨_, _, rfl, encloses_string x, fun hone => twoWay_string hone x⟩
  | transition label w =>
    exact ⟨_, _, rfl, encloses_transition label w, fun hone => twoWay_transition hone label w⟩
  | union _ ih =>
    choose back F haccess hencloses htwoWay using ih
    exact ⟨_, _, backward_union haccess, .union hencloses, fun hone => .union fun i =>
      htwoWay i hone⟩
  | reversal haccess _ ih =>
    obtain ⟨back, F, haccess', hencloses, htwoWay⟩ := ih
    obtain rfl := Option.some.inj (haccess.symm.trans haccess')
    exact ⟨_, F, rfl, hencloses.reversal, fun hone => (htwoWay hone).reversal⟩

end Automaton

end WeightedAutomata
