import Mathlib.Algebra.Ring.Defs
import Mathlib.Data.List.Nodup
import WeightedAutomata.Proofs.Explicit.Tables
import WeightedAutomata.Proofs.Nesting.Orders
import WeightedAutomata.Proofs.Product.Moves
import WeightedAutomata.View.Reversal
import WeightedAutomata.Primitive.SingleTransition

/-!
What an automaton promises of the states and transitions that it lists, as far as its queries are
answered; and that the views keep such promises.
-/
namespace WeightedAutomata

section Lists

variable {α β : Type} {l : List α}

/-- A query of each element of a list is answered if every single one is. -/
theorem mapM_eq_some {f : α → Option β} {bs : List β} :
    l.mapM f = some bs ↔ (∀ a ∈ l, (f a).isSome) ∧ l.filterMap f = bs := by
  induction l generalizing bs with
  | nil => simp
  | cons a l ih =>
    rw [List.mapM_cons, Option.bind_eq_bind, Option.bind_eq_some_iff, List.forall_mem_cons]
    constructor
    · rintro ⟨b, hb, hrest⟩
      obtain ⟨cs, hcs, heq⟩ := Option.bind_eq_some_iff.1 hrest
      obtain ⟨hall, hlist⟩ := ih.1 hcs
      rw [← Option.some.inj heq, ← hlist, hb]
      exact ⟨⟨rfl, hall⟩, by simp [hb]⟩
    · rintro ⟨⟨hb, hall⟩, heq⟩
      obtain ⟨b, hb⟩ := Option.isSome_iff_exists.1 hb
      refine ⟨b, hb, Option.bind_eq_some_iff.2 ⟨l.filterMap f, ih.2 ⟨hall, rfl⟩, ?_⟩⟩
      rw [← heq]
      simp [hb]

theorem filterMapM_eq_some {f : α → Option (Option β)} {bs : List β} :
    l.filterMapM f = some bs ↔ (∀ a ∈ l, (f a).isSome) ∧ (l.filterMap fun a => (f a).join) = bs := by
  induction l generalizing bs with
  | nil => simp
  | cons a l ih =>
    rw [List.filterMapM_cons, Option.bind_eq_bind, Option.bind_eq_some_iff, List.forall_mem_cons]
    constructor
    · rintro ⟨o, ho, hrest⟩
      cases o with
      | none =>
        obtain ⟨hall, hlist⟩ := ih.1 hrest
        exact ⟨⟨by simp [ho], hall⟩, by simp [ho, hlist]⟩
      | some b =>
        obtain ⟨cs, hcs, heq⟩ := Option.bind_eq_some_iff.1 hrest
        obtain ⟨hall, hlist⟩ := ih.1 hcs
        rw [← Option.some.inj heq, ← hlist]
        exact ⟨⟨by simp [ho], hall⟩, by simp [ho]⟩
    · rintro ⟨⟨ho, hall⟩, heq⟩
      obtain ⟨o, ho⟩ := Option.isSome_iff_exists.1 ho
      refine ⟨o, ho, ?_⟩
      cases o with
      | none => exact ih.2 ⟨hall, by simpa [ho] using heq⟩
      | some b =>
        refine Option.bind_eq_some_iff.2 ⟨_, ih.2 ⟨hall, rfl⟩, ?_⟩
        rw [← heq]
        simp [ho]

theorem flatten_filterMap (f : α → Option (List β)) :
    (l.filterMap f).flatten = l.flatMap fun a => (f a).getD [] := by
  induction l with
  | nil => rfl
  | cons a l ih => cases ha : f a <;> simp [ha, ih]

open scoped Classical in
theorem count_eq_count {l' : List α} (h : l.Nodup) (h' : l'.Nodup) {a : α} (hiff : a ∈ l ↔ a ∈ l') :
    l.count a = l'.count a := by
  simp only [h.count, h'.count, hiff]

open scoped Classical in
theorem count_map_of_injective {f : α → β} (hf : Function.Injective f) (a : α) :
    (l.map f).count (f a) = l.count a := List.count_map_of_injective l f hf a

end Lists

variable {L S T W : Type}

/-- In one direction: the states listed are those of non-zero weight, once each, and the transitions
listed at a state have their near end there. The states with the property `K` include the states
listed and go on along the transitions. Where one is zero, so is every weight. -/
structure Enumerates [Zero W] [One W] (states : Option (List S)) (weight : S → Option W)
    (moves : S → Option (List T)) (near far : T → S) (K : S → Prop) : Prop where
  nodup : ∀ ss ∈ states, ss.Nodup
  mem_iff : (1 : W) ≠ 0 → ∀ ss ∈ states, ∀ s, ∀ w ∈ weight s, (s ∈ ss ↔ w ≠ 0)
  known : ∀ ss ∈ states, ∀ s ∈ ss, K s
  near_eq : ∀ q, ∀ ts ∈ moves q, ∀ t ∈ ts, near t = q
  far_known : ∀ q, K q → ∀ ts ∈ moves q, ∀ t ∈ ts, K (far t)

open scoped Classical in
/-- The promises of an automaton, as far as its queries are answered. -/
structure Honours [Zero W] [One W] (A : Automaton Option L S T W) (K : S → Prop) : Prop where
  forward : Enumerates A.initialStates A.initialWeight A.outgoing A.source A.target K
  backward : ∀ back ∈ A.backward,
    Enumerates back.finalStates A.finalWeight back.incoming A.target A.source K
  /-- A transition is listed at its target as often as at its source. -/
  count_incoming : ∀ back ∈ A.backward, ∀ t, ∀ us ∈ back.incoming (A.target t),
    ∀ ts ∈ A.outgoing (A.source t), us.count t = ts.count t

namespace Enumerates

section Explicit

variable [Zero W] [One W] [BEq W] [LawfulBEq W] (E : Explicit L W)

theorem explicit (weight : Terminal W → W) (near far : Edge L W → ℕ)
    (hnear : ∀ e ∈ E.edges.toList, near e < E.states.size)
    (hfar : ∀ e ∈ E.edges.toList, far e < E.states.size) :
    Enumerates (some (E.statesWhere weight)) (fun s => some (E.states[s]?.elim 0 weight))
      (fun s => some ((E.edgesBy near).getD s [])) (fun t => E.edges[t]?.elim absentState near)
      (fun t => E.edges[t]?.elim absentState far) (· < E.states.size) where
  nodup := by
    rintro _ ⟨⟩
    exact List.nodup_range.filter _
  mem_iff := by
    rintro - _ ⟨⟩ s _ ⟨⟩
    rw [Graph.statesWhere, List.mem_filter, List.mem_range]
    cases hs : E.states[s]? with
    | none => simp
    | some terminal =>
      obtain ⟨hlt, -⟩ := Array.getElem?_eq_some_iff.1 hs
      simp [hlt]
  known := by
    rintro _ ⟨⟩ s hs
    exact List.mem_range.1 (List.mem_filter.1 hs).1
  near_eq := by
    rintro q _ ⟨⟩ t ht
    obtain ⟨e, he, rfl⟩ := (E.mem_edgesBy hnear).1 ht
    simp [he]
  far_known := by
    rintro q - _ ⟨⟩ t ht
    obtain ⟨e, he, rfl⟩ := (E.mem_edgesBy hnear).1 ht
    simp only [he, Option.elim_some]
    exact hfar e (List.mem_of_getElem? (i := t) (by simpa using he))

end Explicit

section Union

variable {n : ℕ} {S T : Fin n → Type} [Zero W] [One W] {states : (i : Fin n) → Option (List (S i))}
variable {weight : (i : Fin n) → S i → Option W} {moves : (i : Fin n) → S i → Option (List (T i))}
variable {near far : (i : Fin n) → T i → S i} {K : (i : Fin n) → S i → Prop}

theorem tagAll_eq_some {query : (i : Fin n) → Option (List (S i))} {ss : List (Tagged S)} :
    tagAll query = some ss ↔ (∀ i, (query i).isSome) ∧
      ss = (List.finRange n).flatMap fun i => ((query i).getD []).map (.mk i) := by
  have htag (i : Fin n) : (do return (← query i).map (.mk i) : Option (List (Tagged S))) =
      (query i).map fun ss => ss.map (.mk i) := by cases query i <;> rfl
  have hget (i : Fin n) : ((query i).map fun ss => ss.map (Tagged.mk i)).getD [] =
      ((query i).getD []).map (Tagged.mk i) := by cases query i <;> rfl
  unfold tagAll
  simp only [htag, Option.bind_eq_bind, Option.bind_eq_some_iff, mapM_eq_some, Option.isSome_map,
    List.mem_finRange, true_implies]
  constructor
  · rintro ⟨_, ⟨hall, rfl⟩, heq⟩
    refine ⟨hall, ?_⟩
    rw [← Option.some.inj heq, flatten_filterMap]
    simp only [hget]
  · rintro ⟨hall, rfl⟩
    refine ⟨_, ⟨hall, rfl⟩, ?_⟩
    rw [flatten_filterMap]
    simp only [hget]
    rfl

theorem union (h : ∀ i, Enumerates (states i) (weight i) (moves i) (near i) (far i) (K i)) :
    Enumerates (tagAll states) (fun s => weight s.operand s.value)
      (fun s => (moves s.operand s.value).map fun ts => ts.map (Tagged.mk s.operand))
      (fun t => (⟨t.operand, near t.operand t.value⟩ : Tagged S))
      (fun t => (⟨t.operand, far t.operand t.value⟩ : Tagged S))
      fun s => K s.operand s.value := by
  have hmem {ss : List (Tagged S)} (hss : tagAll states = some ss) (s : Tagged S) :
      ∃ qs ∈ states s.operand, (s ∈ ss ↔ s.value ∈ qs) := by
    obtain ⟨hall, rfl⟩ := tagAll_eq_some.1 hss
    obtain ⟨qs, hqs⟩ := Option.isSome_iff_exists.1 (hall s.operand)
    refine ⟨qs, hqs, ?_⟩
    rw [List.mem_flatMap]
    constructor
    · rintro ⟨i, -, hs⟩
      obtain ⟨q, hq, rfl⟩ := List.mem_map.1 hs
      rwa [hqs] at hq
    · intro hs
      exact ⟨s.operand, List.mem_finRange _, List.mem_map.2 ⟨s.value, by rwa [hqs], rfl⟩⟩
  refine ⟨fun ss hss => ?_, fun hone ss hss s w hw => ?_, fun ss hss s hs => ?_, ?_, ?_⟩
  · obtain ⟨hall, rfl⟩ := tagAll_eq_some.1 hss
    refine List.nodup_flatMap.2 ⟨fun i _ => ?_, ?_⟩
    · obtain ⟨qs, hqs⟩ := Option.isSome_iff_exists.1 (hall i)
      rw [hqs]
      exact ((h i).nodup qs hqs).map fun a b heq => eq_of_heq (Tagged.mk.inj heq).2
    · refine (List.nodup_finRange n).imp fun {i j} hne s hi hj => hne ?_
      obtain ⟨_, _, rfl⟩ := List.mem_map.1 hi
      obtain ⟨_, _, heq⟩ := List.mem_map.1 hj
      exact (congrArg Tagged.operand heq).symm
  · obtain ⟨qs, hqs, hiff⟩ := hmem hss s
    rw [hiff]
    exact (h s.operand).mem_iff hone qs hqs s.value w hw
  · obtain ⟨qs, hqs, hiff⟩ := hmem hss s
    exact (h s.operand).known qs hqs s.value (hiff.1 hs)
  · rintro ⟨i, q⟩ ts hts t ht
    obtain ⟨us, hus, rfl⟩ := Option.map_eq_some_iff.1 hts
    obtain ⟨u, hu, rfl⟩ := List.mem_map.1 ht
    exact congrArg (Tagged.mk i) ((h i).near_eq q us hus u hu)
  · rintro ⟨i, q⟩ hq ts hts t ht
    obtain ⟨us, hus, rfl⟩ := Option.map_eq_some_iff.1 hts
    obtain ⟨u, hu, rfl⟩ := List.mem_map.1 ht
    exact (h i).far_known q hq us hus u hu

end Union

end Enumerates

namespace Honours

open scoped Classical

theorem explicit [Zero W] [One W] [BEq W] [LawfulBEq W] (E : Explicit L W) :
    Honours (E.automaton : Automaton Option L ℕ ℕ W) (· < E.states.size) where
  forward := by
    have h := Enumerates.explicit E Terminal.initial Edge.source Edge.target
      (fun e he => E.source_lt he) fun e he => E.target_lt he
    rwa [← E.outgoing_eq] at h
  backward := by
    rintro _ ⟨⟩
    have h := Enumerates.explicit E Terminal.final Edge.target Edge.source
      (fun e he => E.target_lt he) fun e he => E.source_lt he
    rwa [← E.incoming_eq] at h
  count_incoming := by
    rintro _ ⟨⟩ t _ ⟨⟩ _ ⟨⟩
    refine count_eq_count ?_ ?_ ?_
    · rw [E.incoming_eq]
      exact E.nodup_edgesBy (fun e he => E.target_lt he) _
    · rw [E.outgoing_eq]
      exact E.nodup_edgesBy (fun e he => E.source_lt he) _
    · rw [E.incoming_eq, E.outgoing_eq, E.mem_edgesBy fun e he => E.target_lt he,
        E.mem_edgesBy fun e he => E.source_lt he]
      simp only [Explicit.automaton]
      cases E.edges[t]? <;> simp

theorem string [Zero W] [One W] (x : List L) :
    Honours (singleString x : Automaton Option L ℕ ℕ W) fun _ => True where
  forward :=
    { nodup := by
        rintro _ ⟨⟩
        exact List.nodup_singleton 0
      mem_iff := by
        rintro hone _ ⟨⟩ s _ ⟨⟩
        rw [List.mem_singleton]
        split <;> simp [*]
      known := fun _ _ _ _ => trivial
      near_eq := by
        rintro q _ ⟨⟩ t ht
        exact List.mem_singleton.1 (List.mem_ite_nil_right.1 ht).2
      far_known := fun _ _ _ _ _ _ => trivial }
  backward := by
    rintro _ ⟨⟩
    exact
      { nodup := by
          rintro _ ⟨⟩
          exact List.nodup_singleton x.length
        mem_iff := by
          rintro hone _ ⟨⟩ s _ ⟨⟩
          rw [List.mem_singleton]
          split <;> simp [*]
        known := fun _ _ _ _ => trivial
        near_eq := by
          rintro q _ ⟨⟩ t ht
          obtain ⟨⟨hq, -⟩, ht⟩ := List.mem_ite_nil_right.1 ht
          obtain rfl := List.mem_singleton.1 ht
          exact Nat.sub_add_cancel hq
        far_known := fun _ _ _ _ _ _ => trivial }
  count_incoming := by
    rintro _ ⟨⟩ t _ ⟨⟩ _ ⟨⟩
    have hnodup (c : Prop) [Decidable c] (n : ℕ) : (if c then [n] else []).Nodup := by
      split <;> simp
    refine count_eq_count (hnodup _ _) (hnodup _ _) ?_
    by_cases ht : t < x.length
    · have hle : t + 1 ≤ x.length := ht
      simp [singleString, ht, hle]
    · have hle : ¬ t + 1 ≤ x.length := ht
      simp [singleString, ht, hle]

theorem transition [Zero W] [One W] (label : Option L) (w : W) :
    Honours (singleTransition label w : Automaton Option L ℕ Unit W) fun _ => True where
  forward :=
    { nodup := by
        rintro _ ⟨⟩
        exact List.nodup_singleton 0
      mem_iff := by
        rintro hone _ ⟨⟩ s _ ⟨⟩
        rw [List.mem_singleton]
        split <;> simp [*]
      known := fun _ _ _ _ => trivial
      near_eq := by
        rintro q _ ⟨⟩ t ht
        exact (List.mem_ite_nil_right.1 ht).1.symm
      far_known := fun _ _ _ _ _ _ => trivial }
  backward := by
    rintro _ ⟨⟩
    exact
      { nodup := by
          rintro _ ⟨⟩
          exact List.nodup_singleton 1
        mem_iff := by
          rintro hone _ ⟨⟩ s _ ⟨⟩
          rw [List.mem_singleton]
          split <;> simp [*]
        known := fun _ _ _ _ => trivial
        near_eq := by
          rintro q _ ⟨⟩ t ht
          exact (List.mem_ite_nil_right.1 ht).1.symm
        far_known := fun _ _ _ _ _ _ => trivial }
  count_incoming := by
    rintro _ ⟨⟩ t _ ⟨⟩ _ ⟨⟩
    rfl

theorem union {n : ℕ} {S T : Fin n → Type} [Zero W] [One W]
    {A : (i : Fin n) → Automaton Option L (S i) (T i) W}
    {K : (i : Fin n) → S i → Prop} (h : ∀ i, Honours (A i) (K i)) :
    Honours (WeightedAutomata.union A) fun s => K s.operand s.value := by
  have hmap {i : Fin n} {α : Fin n → Type} (x : Option (List (α i))) :
      (do return (← x).map (Tagged.mk i) : Option (List (Tagged α))) =
        x.map fun ts => ts.map (Tagged.mk i) := by cases x <;> rfl
  have hback {back : Backward Option (Tagged S) (Tagged T)}
      (hback : back ∈ (WeightedAutomata.union A).backward) :
      ∃ backs : (i : Fin n) → Backward Option (S i) (T i), (∀ i, backs i ∈ (A i).backward) ∧
        back = { finalStates := tagAll fun i => (backs i).finalStates
                 incoming := fun s => ((backs s.operand).incoming s.value).map fun ts =>
                   ts.map (Tagged.mk s.operand) } := by
    obtain ⟨backs, hbacks, rfl⟩ := Option.map_eq_some_iff.1 hback
    simp only [hmap]
    exact ⟨backs, eq_some_of_allSome? hbacks, rfl⟩
  refine ⟨?_, fun back hmem => ?_, fun back hmem t us hus ts hts => ?_⟩
  · have hforward := Enumerates.union fun i => (h i).forward
    simp only [← hmap] at hforward
    exact hforward
  · obtain ⟨backs, hbacks, rfl⟩ := hback hmem
    exact Enumerates.union fun i => (h i).backward (backs i) (hbacks i)
  · obtain ⟨backs, hbacks, rfl⟩ := hback hmem
    obtain ⟨i, t⟩ := t
    simp only [WeightedAutomata.union, hmap] at hts
    change us ∈ ((backs i).incoming ((A i).target t)).map fun us => us.map (Tagged.mk i) at hus
    obtain ⟨us, hback, rfl⟩ := Option.map_eq_some_iff.1 hus
    obtain ⟨ts, hforth, rfl⟩ := Option.map_eq_some_iff.1 hts
    have hinj : Function.Injective (Tagged.mk i : T i → Tagged T) := fun a b heq =>
      eq_of_heq (Tagged.mk.inj heq).2
    rw [count_map_of_injective hinj, count_map_of_injective hinj]
    exact (h i).count_incoming (backs i) (hbacks i) t us hback ts hforth

theorem reversal [Zero W] [One W] {A : Automaton Option L S T W} {K : S → Prop} (h : Honours A K)
    {back : Backward Option S T} (hback : A.backward = some back) : Honours (A.reversal back) K where
  forward := h.backward back hback
  backward := by
    rintro _ ⟨⟩
    exact h.forward
  count_incoming := by
    rintro _ ⟨⟩ t us hus ts hts
    exact (h.count_incoming back hback t ts hts us hus).symm

theorem singleInitial [Zero W] [One W] [Add W] [Mul W] {A : Automaton Option L S T W}
    {K : S → Prop} (h : Honours A K) : Honours A.singleInitial fun s => ∀ q ∈ s, K q where
  forward :=
    { nodup := by
        rintro _ ⟨⟩
        exact List.nodup_singleton none
      mem_iff := by
        rintro hone _ ⟨⟩ s _ ⟨⟩
        cases s <;> simp [hone]
      known := by
        rintro _ ⟨⟩ s hs
        obtain rfl := List.mem_singleton.1 hs
        nofun
      near_eq := by
        intro q ts hts t ht
        cases q with
        | none =>
          obtain ⟨ss, -, hts⟩ := Option.bind_eq_some_iff.1 hts
          obtain ⟨rows, -, heq⟩ := Option.bind_eq_some_iff.1 hts
          rw [← Option.some.inj heq] at ht
          obtain ⟨u, -, rfl⟩ := List.mem_map.1 ht
          rfl
        | some q =>
          obtain ⟨us, hus, heq⟩ := Option.bind_eq_some_iff.1 hts
          rw [← Option.some.inj heq] at ht
          obtain ⟨u, hu, rfl⟩ := List.mem_map.1 ht
          exact congrArg some (h.forward.near_eq q us hus u hu)
      far_known := by
        rintro q hq ts hts t ht _ ⟨⟩
        cases q with
        | none =>
          obtain ⟨ss, hss, hts⟩ := Option.bind_eq_some_iff.1 hts
          obtain ⟨rows, hrows, heq⟩ := Option.bind_eq_some_iff.1 hts
          rw [← Option.some.inj heq] at ht
          obtain ⟨u, hu, rfl⟩ := List.mem_map.1 ht
          obtain ⟨-, rfl⟩ := mapM_eq_some.1 hrows
          obtain ⟨row, hrow, hmem⟩ := List.mem_flatten.1 hu
          obtain ⟨s, hs, hrow⟩ := List.mem_filterMap.1 hrow
          exact h.forward.far_known s (h.forward.known ss hss s hs) row hrow u hmem
        | some q =>
          obtain ⟨us, hus, heq⟩ := Option.bind_eq_some_iff.1 hts
          rw [← Option.some.inj heq] at ht
          obtain ⟨u, hu, rfl⟩ := List.mem_map.1 ht
          exact h.forward.far_known q (hq q rfl) us hus u hu }
  backward := nofun
  count_incoming := nofun

section Product

variable [MulZeroClass W] [BEq W] [LawfulBEq W] {L₁ L₂ S₁ S₂ T₁ T₂ : Type}
variable (pairing : Pairing L₁ L₂ L) {A : Automaton Option L₁ S₁ T₁ W}
variable {B : Automaton Option L₂ S₂ T₂ W}

/-- The initial states of a product with one left state. -/
def startRow (A : Automaton Option L₁ S₁ T₁ W) (B : Automaton Option L₂ S₂ T₂ W) (rights : List S₂)
    (l : S₁) : Option (List (PairState S₁ S₂)) := do
  let v ← A.initialWeight l
  rights.filterMapM fun r => do
    let w := v * (← B.initialWeight r)
    return if w == 0 then none else some ⟨l, r, .free⟩

omit [LawfulBEq W] in
theorem startRow_eq_some {rights : List S₂} {l : S₁} {ss : List (PairState S₁ S₂)}
    (h : startRow A B rights l = some ss) : ∃ v, A.initialWeight l = some v ∧
      ss = rights.filterMap fun r => (B.initialWeight r).bind fun w =>
        if v * w == 0 then none else some ⟨l, r, .free⟩ := by
  obtain ⟨v, hv, h⟩ := Option.bind_eq_some_iff.1 h
  obtain ⟨-, rfl⟩ := filterMapM_eq_some.1 h
  refine ⟨v, hv, List.filterMap_congr fun r _ => ?_⟩
  cases B.initialWeight r <;> rfl

theorem mem_startRow {rights : List S₂} {l : S₁} {ss : List (PairState S₁ S₂)}
    (h : startRow A B rights l = some ss) (s : PairState S₁ S₂) : s ∈ ss ↔
      s.left = l ∧ s.right ∈ rights ∧ s.filter = .free ∧
        ∃ v ∈ A.initialWeight s.left, ∃ w ∈ B.initialWeight s.right, v * w ≠ 0 := by
  obtain ⟨v, hv, rfl⟩ := startRow_eq_some h
  rw [List.mem_filterMap]
  constructor
  · rintro ⟨r, hr, hs⟩
    obtain ⟨w, hw, hs⟩ := Option.bind_eq_some_iff.1 hs
    obtain ⟨hne, hs⟩ := Option.ite_none_left_eq_some.1 hs
    obtain rfl := Option.some.inj hs
    exact ⟨rfl, hr, rfl, v, hv, w, hw, by simpa using hne⟩
  · rintro ⟨rfl, hr, hfree, v', hv', w, hw, hne⟩
    obtain rfl : v = v' := Option.some.inj (hv.symm.trans hv')
    refine ⟨s.right, hr, Option.bind_eq_some_iff.2 ⟨w, hw, ?_⟩⟩
    rw [if_neg (by simpa using hne), ← hfree]

omit [LawfulBEq W] in
theorem nodup_startRow {rights : List S₂} (hr : rights.Nodup) {l : S₁}
    {ss : List (PairState S₁ S₂)} (h : startRow A B rights l = some ss) : ss.Nodup := by
  obtain ⟨v, -, rfl⟩ := startRow_eq_some h
  refine hr.filterMap fun a b s ha hb => ?_
  obtain ⟨_, _, ha⟩ := Option.bind_eq_some_iff.1 ha
  obtain ⟨_, _, hb⟩ := Option.bind_eq_some_iff.1 hb
  have hra := congrArg PairState.right (Option.some.inj (Option.ite_none_left_eq_some.1 ha).2)
  have hrb := congrArg PairState.right (Option.some.inj (Option.ite_none_left_eq_some.1 hb).2)
  exact hra.trans hrb.symm

variable [One W]

/-- The initial states of a product are the pairs of initial states with a non-zero product. -/
theorem initialStates_product {ss : List (PairState S₁ S₂)}
    (h : (A.product pairing B).initialStates = some ss) : ∃ lefts rights,
      A.initialStates = some lefts ∧ B.initialStates = some rights ∧
      (lefts.Nodup → rights.Nodup → ss.Nodup) ∧
      ∀ s, s ∈ ss ↔ s.left ∈ lefts ∧ s.right ∈ rights ∧ s.filter = .free ∧
        ∃ v ∈ A.initialWeight s.left, ∃ w ∈ B.initialWeight s.right, v * w ≠ 0 := by
  obtain ⟨rights, hrights, h⟩ := Option.bind_eq_some_iff.1 h
  obtain ⟨lefts, hlefts, h⟩ := Option.bind_eq_some_iff.1 h
  obtain ⟨rows, hrows, heq⟩ := Option.bind_eq_some_iff.1 h
  change lefts.mapM (startRow A B rights) = some rows at hrows
  obtain ⟨hall, rfl⟩ := mapM_eq_some.1 hrows
  obtain rfl := (flatten_filterMap _).symm.trans (Option.some.inj heq)
  have hrow (l : S₁) (hl : l ∈ lefts) :
      ∃ ss, startRow A B rights l = some ss ∧ (startRow A B rights l).getD [] = ss := by
    obtain ⟨ss, hss⟩ := Option.isSome_iff_exists.1 (hall l hl)
    exact ⟨ss, hss, by rw [hss, Option.getD_some]⟩
  refine ⟨lefts, rights, hlefts, hrights, fun hl hr => List.nodup_flatMap.2 ⟨fun l hmem => ?_, ?_⟩,
    fun s => ?_⟩
  · obtain ⟨ss, hss, heq⟩ := hrow l hmem
    rw [heq]
    exact nodup_startRow hr hss
  · refine hl.imp_of_mem fun {a b} hmema hmemb hne s ha hb => hne ?_
    obtain ⟨as, has, heq⟩ := hrow a hmema
    obtain ⟨bs, hbs, heq'⟩ := hrow b hmemb
    dsimp only at ha hb
    rw [heq] at ha
    rw [heq'] at hb
    exact ((mem_startRow has s).1 ha).1.symm.trans ((mem_startRow hbs s).1 hb).1
  · rw [List.mem_flatMap]
    constructor
    · rintro ⟨l, hl, hs⟩
      obtain ⟨ss, hss, heq⟩ := hrow l hl
      rw [heq] at hs
      obtain ⟨rfl, hmem⟩ := (mem_startRow hss s).1 hs
      exact ⟨hl, hmem⟩
    · rintro ⟨hl, hmem⟩
      obtain ⟨ss, hss, heq⟩ := hrow s.left hl
      refine ⟨s.left, hl, ?_⟩
      rw [heq]
      exact (mem_startRow hss s).2 ⟨rfl, hmem⟩

theorem product {K₁ : S₁ → Prop} {K₂ : S₂ → Prop} (hA : Honours A K₁) (hB : Honours B K₂) :
    Honours (A.product pairing B) fun s => K₁ s.left ∧ K₂ s.right where
  forward :=
    { nodup := fun ss hss => by
        obtain ⟨lefts, rights, hlefts, hrights, hnodup, -⟩ := initialStates_product pairing hss
        exact hnodup (hA.forward.nodup lefts hlefts) (hB.forward.nodup rights hrights)
      mem_iff := fun hone ss hss s w hw => by
        obtain ⟨lefts, rights, hlefts, hrights, -, hmem⟩ := initialStates_product pairing hss
        rw [hmem]
        simp only [Automaton.product] at hw
        split at hw
        · next hfree =>
          obtain ⟨v₁, h₁, hw⟩ := Option.bind_eq_some_iff.1 hw
          obtain ⟨v₂, h₂, heq⟩ := Option.bind_eq_some_iff.1 hw
          obtain rfl := Option.some.inj heq
          constructor
          · rintro ⟨-, -, -, v₁', h₁', v₂', h₂', hne⟩
            obtain rfl : v₁ = v₁' := Option.some.inj (h₁.symm.trans h₁')
            obtain rfl : v₂ = v₂' := Option.some.inj (h₂.symm.trans h₂')
            exact hne
          · intro hne
            refine ⟨(hA.forward.mem_iff hone lefts hlefts _ _ h₁).2 (left_ne_zero_of_mul hne),
              (hB.forward.mem_iff hone rights hrights _ _ h₂).2 (right_ne_zero_of_mul hne), hfree,
              v₁, h₁, v₂, h₂, hne⟩
        · next hfilter =>
          obtain rfl := Option.some.inj hw
          exact ⟨fun h => absurd h.2.2.1 hfilter, fun h => absurd rfl h⟩
      known := fun ss hss s hs => by
        obtain ⟨lefts, rights, hlefts, hrights, -, hmem⟩ := initialStates_product pairing hss
        obtain ⟨hl, hr, -⟩ := (hmem s).1 hs
        exact ⟨hA.forward.known lefts hlefts _ hl, hB.forward.known rights hrights _ hr⟩
      near_eq := fun s us hus u hu => by
        obtain ⟨ls, -, hus⟩ := Option.bind_eq_some_iff.1 hus
        obtain ⟨rs, -, heq⟩ := Option.bind_eq_some_iff.1 hus
        obtain rfl := Option.some.inj heq
        obtain ⟨_, _, _, _, _, rfl⟩ | ⟨_, _, _, _, rfl⟩ | ⟨_, _, _, _, _, _, rfl⟩ :=
          Automaton.mem_pairMoves_cases hu <;> rfl
      far_known := fun s hs us hus u hu => by
        obtain ⟨ls, hls, hus⟩ := Option.bind_eq_some_iff.1 hus
        obtain ⟨rs, hrs, heq⟩ := Option.bind_eq_some_iff.1 hus
        obtain rfl := Option.some.inj heq
        have hleft := hA.forward.far_known s.left hs.1 ls hls
        have hright := hB.forward.far_known s.right hs.2 rs hrs
        obtain ⟨t, ht, _, _, _, rfl⟩ | ⟨t, ht, _, _, rfl⟩ | ⟨t, ht, t', ht', _, _, rfl⟩ :=
          Automaton.mem_pairMoves_cases hu
        · exact ⟨hleft t ht, hs.2⟩
        · exact ⟨hs.1, hright t ht⟩
        · exact ⟨hleft t ht, hright t' ht'⟩ }
  backward := nofun
  count_incoming := nofun

end Product

end Honours

end WeightedAutomata
