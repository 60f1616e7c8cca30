import Mathlib.Algebra.BigOperators.Fin
import Mathlib.Data.Set.Finite.Lattice
import WeightedAutomata.Proofs.Embedding
import WeightedAutomata.View.Union

/-!
Unions: each operand stands in the union under its own tag, and a sum over the initial states is the
sum of those of the operands.
-/
namespace WeightedAutomata.Automaton

variable {L W : Type} {n : ℕ} {S T : Fin n → Type}

section Answers

variable {m : Type → Type} [Monad m] [LawfulMonad m]

theorem tagAll_eq_pure {query : (i : Fin n) → m (List (S i))} {rows : (i : Fin n) → List (S i)}
    (h : ∀ i, query i = pure (rows i)) :
    tagAll query = pure ((List.finRange n).flatMap fun i => (rows i).map (.mk i)) := by
  unfold tagAll
  rw [mapM_eq_pure (g := fun i => (rows i).map (Tagged.mk i)) fun i _ => by rw [h, pure_bind],
    pure_bind, List.flatMap]

variable (A : (i : Fin n) → Automaton Id L (S i) (T i) W)

theorem starts_union : (WeightedAutomata.union A).starts =
    (List.finRange n).flatMap fun i => (A i).starts.map (.mk i) :=
  tagAll_eq_pure (m := Id) fun _ => rfl

/-- Each operand moves within its own states. -/
theorem embeds_union (i : Fin n) :
    (A i).Embeds (WeightedAutomata.union A) (Tagged.mk i) (Tagged.mk i) where
  leaving _ := rfl
  cost _ := rfl
  target _ := rfl
  label _ := rfl

variable {A}

theorem mem_starts_union {s : Tagged S} :
    s ∈ (WeightedAutomata.union A).starts ↔ s.value ∈ (A s.operand).starts := by
  rw [starts_union, List.mem_flatMap]
  constructor
  · rintro ⟨i, -, hs⟩
    obtain ⟨q, hq, rfl⟩ := List.mem_map.1 hs
    exact hq
  · exact fun hs => ⟨s.operand, List.mem_finRange _, List.mem_map.2 ⟨s.value, hs, rfl⟩⟩

theorem Closed.union {R : (i : Fin n) → S i → Prop} (h : ∀ i, (A i).Closed (R i)) :
    (WeightedAutomata.union A).Closed fun s => R s.operand s.value := by
  intro s hs t ht
  obtain ⟨u, hu, rfl⟩ := List.mem_map.1 ht
  exact h s.operand s.value hs u hu

theorem Answers.union {B : (i : Fin n) → Automaton m L (S i) (T i) W} {R : (i : Fin n) → S i → Prop}
    (h : ∀ i, (B i).Answers (A i) (R i)) :
    (WeightedAutomata.union B).Answers (WeightedAutomata.union A)
      fun s => R s.operand s.value where
  closed := .union fun i => (h i).closed
  starts s hs := (h s.operand).starts _ (mem_starts_union.1 hs)
  initialStates := by
    change tagAll _ = _
    rw [tagAll_eq_pure fun i => (h i).initialStates, starts_union]
  outgoing s hs := by
    change (do return (← (B s.operand).outgoing s.value).map (Tagged.mk s.operand)) = _
    rw [(h s.operand).outgoing s.value hs, pure_bind]
    rfl
  initialWeight s hs := (h s.operand).initialWeight s.value hs
  finalWeight s hs := (h s.operand).finalWeight s.value hs
  weight s hs t ht := by
    obtain ⟨u, hu, rfl⟩ := List.mem_map.1 ht
    exact (h s.operand).weight s.value hs u hu
  source := by
    funext t
    exact congrArg (Tagged.mk t.operand) (congrFun (h t.operand).source t.value)
  target := by
    funext t
    exact congrArg (Tagged.mk t.operand) (congrFun (h t.operand).target t.value)
  label := by
    funext t
    exact congrFun (h t.operand).label t.value
  order := by
    have horder : (fun i => (B i).order) = fun i => (A i).order := funext fun i => (h i).order
    change (allSome? fun i => (B i).order).map _ = (allSome? fun i => (A i).order).map _
    rw [horder]

end Answers

variable {A : (i : Fin n) → Automaton Id L (S i) (T i) W}

theorem injective_tag (i : Fin n) : Function.Injective (Tagged.mk i : S i → Tagged S) :=
  fun a b h => by
    cases h
    rfl

theorem Reachable.operand {s : Tagged S} (h : (WeightedAutomata.union A).Reachable s) :
    (A s.operand).Reachable s.value := by
  induction h with
  | start hs => exact .start (mem_starts_union.1 hs)
  | step _ ht ih => exact Closed.union (fun i => (A i).closed_reachable) _ ih _ ht

theorem Reachable.union {i : Fin n} {s : S i} (h : (A i).Reachable s) :
    (WeightedAutomata.union A).Reachable ⟨i, s⟩ := by
  induction h with
  | start hs => exact .start (mem_starts_union.2 hs)
  | step _ ht ih => exact ih.step (List.mem_map_of_mem ht)

theorem finite_operands {R : (i : Fin n) → S i → Prop} (h : ∀ i, {s | R i s}.Finite) :
    {s : Tagged S | R s.operand s.value}.Finite := by
  refine (Set.finite_iUnion fun i => (h i).image (Tagged.mk i)).subset fun s hs => ?_
  exact Set.mem_iUnion.2 ⟨s.operand, s.value, hs, rfl⟩

theorem finite_union (h : ∀ i, {s | (A i).Reachable s}.Finite) :
    {s | (WeightedAutomata.union A).Reachable s}.Finite :=
  (finite_operands h).subset fun _ hs => hs.operand

theorem Lawful.union [Zero W] (h : ∀ i, (A i).Lawful) : (WeightedAutomata.union A).Lawful where
  starts_nodup := by
    rw [starts_union, List.nodup_flatMap]
    refine ⟨fun i _ => (h i).starts_nodup.map (injective_tag i), ?_⟩
    refine (List.nodup_finRange n).imp fun {i j} hne => List.disjoint_left.2 fun s hs hs' => hne ?_
    obtain ⟨_, -, rfl⟩ := List.mem_map.1 hs
    obtain ⟨_, -, heq⟩ := List.mem_map.1 hs'
    exact (congrArg Tagged.operand heq).symm
  mem_starts s := mem_starts_union.trans ((h s.operand).mem_starts s.value)
  source_eq s t ht := by
    obtain ⟨u, hu, rfl⟩ := List.mem_map.1 ht
    exact congrArg (Tagged.mk s.operand) ((h s.operand).source_eq s.value u hu)

theorem EpsilonAcyclic.union (h : ∀ i, (A i).EpsilonAcyclic) :
    (WeightedAutomata.union A).EpsilonAcyclic := by
  intro s hs us hne hpath hlabels hend
  obtain ⟨ts, hts, hpath, hend, hlabels'⟩ :=
    (embeds_union A s.operand).exists_cycle (injective_tag _) hne hpath hend
  exact h s.operand s.value hs.operand ts hts hpath (hlabels'.trans hlabels) hend

theorem Acyclic.union (h : ∀ i, (A i).Acyclic) : (WeightedAutomata.union A).Acyclic := by
  intro s hs us hne hpath hend
  obtain ⟨ts, hts, hpath, hend, -⟩ :=
    (embeds_union A s.operand).exists_cycle (injective_tag _) hne hpath hend
  exact h s.operand s.value hs.operand ts hts hpath hend

theorem sum_starts_union [AddCommMonoid W] (g : Tagged S → W) :
    ((WeightedAutomata.union A).starts.map g).sum =
      ∑ i, ((A i).starts.map fun s => g ⟨i, s⟩).sum := by
  rw [starts_union, sum_map_flatMap, Fin.sum_univ_def]
  simp only [List.map_map, Function.comp_def]

end WeightedAutomata.Automaton
