import Mathlib.Algebra.GroupWithZero.Nat
import WeightedAutomata.KBest.View
import WeightedAutomata.Proofs.Explicit.Tables
import WeightedAutomata.Proofs.Nesting.Ensures
import WeightedAutomata.Proofs.Nesting.Orders
import WeightedAutomata.Proofs.Product.Moves

/-!
Nested views. However automata are put together, a topological order that is offered is a total
order of the states in which every transition leads upwards.
-/
namespace WeightedAutomata

/-- Automata put together by views from explicit and primitive ones, with the property that their
states have. Copies are explicit automata. -/
inductive Nested : {m : Type → Type} → [Monad m] → {L S T W : Type} → Automaton m L S T W →
    (S → Prop) → Prop where
  | explicit {m : Type → Type} [Monad m] [LawfulMonad m] {L W : Type} [Zero W] [BEq W]
    (E : Explicit L W) : Nested (E.automaton : Automaton m L ℕ ℕ W) (· < E.states.size)
  | string {m : Type → Type} [Monad m] [LawfulMonad m] {L W : Type} [Zero W] [One W]
    (x : List L) : Nested (singleString x : Automaton m L ℕ ℕ W) fun _ => True
  | transition {m : Type → Type} [Monad m] [LawfulMonad m] {L W : Type} [Zero W] [One W]
    (label : Option L) (w : W) :
    Nested (singleTransition label w : Automaton m L ℕ Unit W) fun _ => True
  | union {m : Type → Type} [Monad m] [LawfulMonad m] {L W : Type} {n : ℕ} {S T : Fin n → Type}
    {A : (i : Fin n) → Automaton m L (S i) (T i) W} {K : (i : Fin n) → S i → Prop}
    (operands : ∀ i, Nested (A i) (K i)) :
    Nested (WeightedAutomata.union A) fun s => K s.operand s.value
  | product {m : Type → Type} [Monad m] [LawfulMonad m] {L₁ L₂ L S₁ S₂ T₁ T₂ W : Type} [Zero W]
    [One W] [Mul W] [BEq W] (pairing : Pairing L₁ L₂ L) {A : Automaton m L₁ S₁ T₁ W}
    {B : Automaton m L₂ S₂ T₂ W} {K₁ : S₁ → Prop} {K₂ : S₂ → Prop} (left : Nested A K₁)
    (right : Nested B K₂) :
    Nested (A.product pairing B) fun s => K₁ s.left ∧ K₂ s.right
  | singleInitial {m : Type → Type} [Monad m] [LawfulMonad m] {L S T W : Type} [Zero W] [One W]
    [Add W] [Mul W] {A : Automaton m L S T W} {K : S → Prop} (operand : Nested A K) :
    Nested A.singleInitial fun s => ∀ q ∈ s, K q
  | reversal {m : Type → Type} [Monad m] {L S T W : Type} {A : Automaton m L S T W}
    {back : Backward m S T} {K : S → Prop} (access : A.backward = some back)
    (operand : Nested A K) : Nested (A.reversal back) K
  | kBest {m : Type → Type} [Monad m] {L S T W : Type} [Zero W] [BEq W] (k : ℕ)
    {A : Automaton m L S T W} {K : S → Prop} (operand : Nested A K) : Nested (A.kBest k) K
  | determinize {m : Type → Type} [Monad m] [StepLimited m] {L S T W : Type} [BEq L] [BEq S]
    [Hashable S] [Zero W] [One W] [Add W] [Mul W] [BEq W] [PartialInverse W] (budget : ℕ)
    {A : Automaton m L S T W} {K : S → Prop} (operand : Nested A K) :
    Nested (A.determinize budget) fun _ => True
  /-- The same automaton with its memory kept elsewhere. -/
  | hoist {m n : Type → Type} [Monad m] [Monad n] [LawfulMonad m] [LawfulMonad n] [StepLimited m]
    [StepLimited n] {L S T W : Type} (φ : Translation m n) {A : Automaton m L S T W}
    {K : S → Prop} (operand : Nested A K) : Nested (A.hoist φ.map) K

variable {m n : Type → Type} [Monad m] {L S T W : Type}

/-- Every transition, met from either end, leads upwards between states with the property `K`, which
`order` orders. -/
structure Ascends (A : Automaton m L S T W) (K : S → Prop) (order : S → S → Ordering) : Prop where
  total : TotalOn K order
  initialStates : Ensures A.initialStates fun ss => ∀ s ∈ ss, K s
  outgoing : ∀ q, K q → Ensures (A.outgoing q) fun ts =>
    ∀ t ∈ ts, A.source t = q ∧ K (A.target t) ∧ order q (A.target t) = .lt
  finalStates : ∀ back ∈ A.backward, Ensures back.finalStates fun ss => ∀ s ∈ ss, K s
  incoming : ∀ back ∈ A.backward, ∀ q, K q → Ensures (back.incoming q) fun ts =>
    ∀ t ∈ ts, A.target t = q ∧ K (A.source t) ∧ order (A.source t) q = .lt

namespace Ascends

section Primitive

variable [LawfulMonad m]

theorem explicit [Zero W] [BEq W] (E : Explicit L W) {order : ℕ → ℕ → Ordering}
    (h : E.order? = some order) :
    Ascends (E.automaton : Automaton m L ℕ ℕ W) (· < E.states.size) order := by
  obtain ⟨ranks, hranks, rfl⟩ := Option.map_eq_some_iff.1 h
  obtain ⟨rank, hrank, hinj, hlt⟩ := E.ranks_spec hranks
  have hcompare : ∀ a b, a < E.states.size → b < E.states.size →
      compare ranks[a]? ranks[b]? = compare (rank a) (rank b) := fun a b ha hb => by
    rw [hrank a ha, hrank b hb]
    rfl
  have hedge {t : ℕ} {e : Edge L W} (he : E.edges[t]? = some e) :
      e.source < E.states.size ∧ e.target < E.states.size ∧
        compare ranks[e.source]? ranks[e.target]? = .lt := by
    have hmem : e ∈ E.edges.toList := List.mem_of_getElem? (i := t) (by simpa using he)
    have hs := E.source_lt hmem
    have ht := E.target_lt hmem
    exact ⟨hs, ht, by rw [hcompare _ _ hs ht, Nat.compare_eq_lt]; exact hlt e hmem⟩
  have hstates (weight : Terminal W → W) : ∀ s ∈ E.statesWhere weight, s < E.states.size :=
    fun s hs => List.mem_range.1 (List.mem_filter.1 hs).1
  refine ⟨(TotalOn.of_rank _ fun a b ha hb => hinj a ha b hb).congr hcompare,
    .pure (hstates Terminal.initial), fun q _ => .pure fun t ht => ?_, ?_, ?_⟩
  · rw [E.outgoing_eq, E.mem_edgesBy fun e he => E.source_lt he] at ht
    obtain ⟨e, he, rfl⟩ := ht
    simp only [Explicit.automaton, he, Option.elim_some]
    exact ⟨trivial, (hedge he).2⟩
  · rintro _ ⟨⟩
    exact .pure (hstates Terminal.final)
  · rintro _ ⟨⟩ q _
    refine .pure fun t ht => ?_
    rw [E.incoming_eq, E.mem_edgesBy fun e he => E.target_lt he] at ht
    obtain ⟨e, he, rfl⟩ := ht
    simp only [Explicit.automaton, he, Option.elim_some]
    exact ⟨trivial, (hedge he).1, (hedge he).2.2⟩

/-- Numbers in their own order. -/
theorem total_compare (K : ℕ → Prop) : TotalOn K compare :=
  TotalOn.of_rank id fun _ _ _ _ h => h

theorem string [Zero W] [One W] (x : List L) :
    Ascends (singleString x : Automaton m L ℕ ℕ W) (fun _ => True) compare where
  total := total_compare _
  initialStates := .pure fun _ _ => trivial
  outgoing q _ := .pure fun t ht => by
    obtain ⟨-, ht⟩ := List.mem_ite_nil_right.1 ht
    obtain rfl := List.mem_singleton.1 ht
    exact ⟨rfl, trivial, Nat.compare_eq_lt.2 (Nat.lt_succ_self t)⟩
  finalStates := by
    rintro _ ⟨⟩
    exact .pure fun _ _ => trivial
  incoming := by
    rintro _ ⟨⟩ q _
    refine .pure fun t ht => ?_
    obtain ⟨⟨hq, -⟩, ht⟩ := List.mem_ite_nil_right.1 ht
    obtain rfl := List.mem_singleton.1 ht
    exact ⟨Nat.sub_add_cancel hq, trivial, Nat.compare_eq_lt.2 (Nat.sub_lt hq Nat.one_pos)⟩

theorem transition [Zero W] [One W] (label : Option L) (w : W) :
    Ascends (singleTransition label w : Automaton m L ℕ Unit W) (fun _ => True) compare where
  total := total_compare _
  initialStates := .pure fun _ _ => trivial
  outgoing q _ := .pure fun t ht => by
    obtain ⟨rfl, -⟩ := List.mem_ite_nil_right.1 ht
    exact ⟨rfl, trivial, rfl⟩
  finalStates := by
    rintro _ ⟨⟩
    exact .pure fun _ _ => trivial
  incoming := by
    rintro _ ⟨⟩ q _
    refine .pure fun t ht => ?_
    obtain ⟨rfl, -⟩ := List.mem_ite_nil_right.1 ht
    exact ⟨rfl, trivial, rfl⟩

end Primitive

variable {A : Automaton m L S T W} {K : S → Prop} {order : S → S → Ordering}

theorem tagAll [LawfulMonad m] {n : ℕ} {S : Fin n → Type} {K : (i : Fin n) → S i → Prop}
    {query : (i : Fin n) → m (List (S i))}
    (h : ∀ i, Ensures (query i) fun ss => ∀ s ∈ ss, K i s) :
    Ensures (WeightedAutomata.tagAll query) fun ss => ∀ s ∈ ss, K s.operand s.value := by
  have hrows : Ensures ((List.finRange n).mapM fun i => (return (← query i).map (.mk i) :
      m (List (Tagged S)))) fun rows => ∀ row ∈ rows, ∀ s ∈ row, K s.operand s.value := by
    refine .mapM fun i _ => (h i).bind fun ss hss => .pure fun s hs => ?_
    obtain ⟨q, hq, rfl⟩ := List.mem_map.1 hs
    exact hss q hq
  refine hrows.bind fun rows hrows => .pure fun s hs => ?_
  obtain ⟨row, hrow, hs⟩ := List.mem_flatten.1 hs
  exact hrows row hrow s hs

theorem union [LawfulMonad m] {n : ℕ} {S T : Fin n → Type}
    {A : (i : Fin n) → Automaton m L (S i) (T i) W} {K : (i : Fin n) → S i → Prop}
    {order : (i : Fin n) → S i → S i → Ordering} (h : ∀ i, Ascends (A i) (K i) (order i)) :
    Ascends (WeightedAutomata.union A) (fun s => K s.operand s.value) (Tagged.compare order) := by
  have hback {back : Backward m (Tagged S) (Tagged T)}
      (hback : back ∈ (WeightedAutomata.union A).backward) :
      ∃ backs : (i : Fin n) → Backward m (S i) (T i), (∀ i, backs i ∈ (A i).backward) ∧
        back = { finalStates := WeightedAutomata.tagAll fun i => (backs i).finalStates
                 incoming := fun s =>
                   return (← (backs s.operand).incoming s.value).map (.mk s.operand) } := by
    obtain ⟨backs, hbacks, rfl⟩ := Option.map_eq_some_iff.1 hback
    exact ⟨backs, eq_some_of_allSome? hbacks, rfl⟩
  refine ⟨.tagged fun i => (h i).total, tagAll fun i => (h i).initialStates, ?_, ?_, ?_⟩
  · rintro ⟨i, q⟩ hq
    refine ((h i).outgoing q hq).bind fun ts hts => .pure fun t ht => ?_
    obtain ⟨u, hu, rfl⟩ := List.mem_map.1 ht
    obtain ⟨hsource, hK, hlt⟩ := hts u hu
    exact ⟨congrArg (Tagged.mk i) hsource, hK, (Tagged.compare_mk order i _ _).trans hlt⟩
  · intro back hmem
    obtain ⟨backs, hbacks, rfl⟩ := hback hmem
    exact tagAll fun i => (h i).finalStates (backs i) (hbacks i)
  · rintro back hmem ⟨i, q⟩ hq
    obtain ⟨backs, hbacks, rfl⟩ := hback hmem
    refine ((h i).incoming (backs i) (hbacks i) q hq).bind fun ts hts => .pure fun t ht => ?_
    obtain ⟨u, hu, rfl⟩ := List.mem_map.1 ht
    obtain ⟨htarget, hK, hlt⟩ := hts u hu
    exact ⟨congrArg (Tagged.mk i) htarget, hK, (Tagged.compare_mk order i _ _).trans hlt⟩

theorem product [LawfulMonad m] {L₁ L₂ S₁ S₂ T₁ T₂ : Type} [Zero W] [One W] [Mul W] [BEq W]
    (pairing : Pairing L₁ L₂ L) {A : Automaton m L₁ S₁ T₁ W} {B : Automaton m L₂ S₂ T₂ W}
    {K₁ : S₁ → Prop} {K₂ : S₂ → Prop} {left : S₁ → S₁ → Ordering} {right : S₂ → S₂ → Ordering}
    (h₁ : Ascends A K₁ left) (h₂ : Ascends B K₂ right) :
    Ascends (A.product pairing B) (fun s => K₁ s.left ∧ K₂ s.right) (comparePairs left right) where
  total := h₁.total.pairs h₂.total
  initialStates := by
    refine h₂.initialStates.bind fun rights hrights => h₁.initialStates.bind fun lefts hlefts => ?_
    refine Ensures.bind (.mapM fun l hl => ?_) fun rows
      (hrows : ∀ row ∈ rows, ∀ s ∈ row, K₁ s.left ∧ K₂ s.right) => .pure fun s hs => ?_
    · refine (Ensures.of_forall (A.initialWeight l) (p := fun _ => True) fun _ => trivial).bind
        fun w _ => .filterMapM fun r hr => ?_
      refine (Ensures.of_forall (B.initialWeight r) (p := fun _ => True) fun _ => trivial).bind
        fun v _ => .pure fun s hs => ?_
      split at hs
      · cases hs
      · obtain rfl := Option.some.inj hs
        exact ⟨hlefts l hl, hrights r hr⟩
    · obtain ⟨row, hrow, hs⟩ := List.mem_flatten.1 hs
      exact hrows row hrow s hs
  outgoing q hq := by
    refine (h₁.outgoing q.left hq.1).bind fun ls hls => ?_
    refine (h₂.outgoing q.right hq.2).bind fun rs hrs => .pure fun u hu => ?_
    have hleft := h₁.total.refl hq.1
    rcases Automaton.mem_pairMoves_cases hu with ⟨t, ht, label, -, -, rfl⟩ |
      ⟨t, ht, label, -, rfl⟩ | ⟨t, ht, t', ht', label, -, rfl⟩
    · obtain ⟨-, hK, hlt⟩ := hls t ht
      exact ⟨rfl, ⟨hK, hq.2⟩, by simp [comparePairs, Automaton.product, hlt]⟩
    · obtain ⟨-, hK, hlt⟩ := hrs t ht
      exact ⟨rfl, ⟨hq.1, hK⟩, by simp [comparePairs, Automaton.product, hlt, hleft]⟩
    · obtain ⟨-, hK, hlt⟩ := hls t ht
      obtain ⟨-, hK', -⟩ := hrs t' ht'
      exact ⟨rfl, ⟨hK, hK'⟩, by simp [comparePairs, Automaton.product, hlt]⟩
  finalStates := nofun
  incoming := nofun

theorem singleInitial [LawfulMonad m] [Zero W] [One W] [Add W] [Mul W] (h : Ascends A K order) :
    Ascends A.singleInitial (fun s => ∀ q ∈ s, K q) (compareRooted order) where
  total := h.total.rooted
  initialStates := .pure fun s hs => by
    obtain rfl := List.mem_singleton.1 hs
    nofun
  outgoing s hs := by
    cases s with
    | none =>
      refine h.initialStates.bind fun ss hss => ?_
      have hrows : Ensures (ss.mapM A.outgoing) fun rows => ∀ ts ∈ rows, ∀ t ∈ ts, K (A.target t) :=
        .mapM fun s hs => (h.outgoing s (hss s hs)).mono fun ts hts t ht => (hts t ht).2.1
      refine hrows.bind fun rows hrows => .pure fun u hu => ?_
      obtain ⟨t, ht, rfl⟩ := List.mem_map.1 hu
      obtain ⟨ts, hts, ht⟩ := List.mem_flatten.1 ht
      refine ⟨rfl, ?_, rfl⟩
      rintro _ ⟨⟩
      exact hrows ts hts t ht
    | some s =>
      refine (h.outgoing s (hs s rfl)).bind fun ts hts => .pure fun t ht => ?_
      obtain ⟨u, hu, rfl⟩ := List.mem_map.1 ht
      obtain ⟨hsource, hK, hlt⟩ := hts u hu
      refine ⟨congrArg some hsource, ?_, hlt⟩
      rintro _ ⟨⟩
      exact hK
  finalStates := nofun
  incoming := nofun

theorem reversal {back : Backward m S T} (hback : A.backward = some back)
    (h : Ascends A K order) : Ascends (A.reversal back) K fun a b => order b a where
  total := h.total.flip
  initialStates := h.finalStates back hback
  outgoing := h.incoming back hback
  finalStates := by
    rintro _ ⟨⟩
    exact h.initialStates
  incoming := by
    rintro _ ⟨⟩
    exact h.outgoing

theorem kBest [Zero W] [BEq W] (k : ℕ) (h : Ascends A K order) : Ascends (A.kBest k) K order where
  total := h.total
  initialStates := h.initialStates
  outgoing := h.outgoing
  finalStates := nofun
  incoming := nofun

theorem hoist [LawfulMonad m] [Monad n] [LawfulMonad n] [StepLimited m] [StepLimited n]
    (φ : Translation m n) (h : Ascends A K order) : Ascends (A.hoist φ.map) K order where
  total := h.total
  initialStates := h.initialStates.translate φ
  outgoing q hq := (h.outgoing q hq).translate φ
  finalStates := by
    intro back hmem
    obtain ⟨back, hback, rfl⟩ := Option.map_eq_some_iff.1 hmem
    exact (h.finalStates back hback).translate φ
  incoming := by
    intro back hmem q hq
    obtain ⟨back, hback, rfl⟩ := Option.map_eq_some_iff.1 hmem
    exact (h.incoming back hback q hq).translate φ

end Ascends

namespace Nested

theorem ascends {A : Automaton m L S T W} {K : S → Prop} (h : Nested A K)
    {order : S → S → Ordering} (horder : A.order = some order) : Ascends A K order := by
  induction h with
  | explicit E => exact .explicit E horder
  | string x =>
    cases horder
    exact .string x
  | transition label w =>
    cases horder
    exact .transition label w
  | union _ ih =>
    obtain ⟨orders, horders, rfl⟩ := Option.map_eq_some_iff.1 horder
    exact .union fun i => ih i (eq_some_of_allSome? horders i)
  | @product _ _ _ _ _ _ _ _ _ _ _ _ _ _ _ pairing A B _ _ _ _ ihleft ihright =>
    simp only [Automaton.product] at horder
    split at horder
    · next hleft hright =>
      cases horder
      exact (ihleft hleft).product pairing (ihright hright)
    · cases horder
  | singleInitial _ ih =>
    obtain ⟨_, hown, rfl⟩ := Option.map_eq_some_iff.1 horder
    exact (ih hown).singleInitial
  | reversal access _ ih =>
    obtain ⟨_, hown, rfl⟩ := Option.map_eq_some_iff.1 horder
    exact (ih hown).reversal access
  | kBest k _ ih => exact (ih horder).kBest k
  | determinize budget _ _ => cases horder
  | hoist φ _ ih => exact (ih horder).hoist φ

/-- Wherever an order is offered, it is total on the states, and in every answer the source of each
transition comes strictly before its target. -/
theorem order_ascends {σ : Type} {A : Automaton (StateT σ Option) L S T W} {K : S → Prop}
    (h : Nested A K) {order : S → S → Ordering} (horder : A.order = some order) :
    TotalOn K order ∧ (∀ μ ss ν, A.initialStates.run μ = some (ss, ν) → ∀ s ∈ ss, K s) ∧
      ∀ q, K q → ∀ μ ts ν, (A.outgoing q).run μ = some (ts, ν) → ∀ t ∈ ts,
        A.source t = q ∧ K (A.target t) ∧ order (A.source t) (A.target t) = .lt := by
  have hA := h.ascends horder
  refine ⟨hA.total, fun μ ss ν hrun => hA.initialStates.run hrun, fun q hq μ ts ν hrun t ht => ?_⟩
  obtain ⟨hsource, hK, hlt⟩ := (hA.outgoing q hq).run hrun t ht
  exact ⟨hsource, hK, hsource ▸ hlt⟩

end Nested

/-- Two ways from state 2 to state 1, one of them through state 0. -/
def detour : Explicit Bool ℕ := Graph.explicit
  { states := #[⟨0, 0⟩, ⟨0, 1⟩, ⟨1, 0⟩]
    edges := #[⟨2, 1, none, 1⟩, ⟨2, 0, some true, 2⟩, ⟨0, 1, some false, 3⟩]
    endpoints := by decide }

/-- The detour along a string that is read from its end, from one initial state. -/
def layered : Automaton (StateT Unit Option) Bool (Option (PairState ℕ ℕ))
    (Rooted (PairTransition ℕ ℕ ℕ ℕ Bool)) (KBest 2 (Option (PairState ℕ ℕ))
      (Rooted (PairTransition ℕ ℕ ℕ ℕ Bool)) ℕ) :=
  let string := singleString [false, true]
  ((detour.automaton.product .acceptor
    (string.reversal (string.backward.get rfl))).singleInitial).kBest 2

theorem nested_layered : Nested layered fun s => ∀ q ∈ s, q.left < 3 ∧ True :=
  .kBest 2 (.singleInitial (.product _ (.explicit detour) (.reversal rfl (.string [false, true]))))

theorem order_layered : layered.order = some (compareRooted (comparePairs
    (fun a b => compare (#[1, 2, 0] : Array ℕ)[a]? (#[1, 2, 0] : Array ℕ)[b]?)
    fun a b => compare b a)) := by
  have hranks : detour.ranks = some #[1, 2, 0] := by decide +kernel
  simp only [layered, Automaton.kBest, Automaton.singleInitial, Automaton.product,
    Automaton.reversal, Explicit.automaton, Explicit.order?, singleString, hranks, Option.map_some]

theorem order_ascends_layered : ∃ order, layered.order = some order ∧
    TotalOn (fun s => ∀ q ∈ s, q.left < 3 ∧ True) order ∧ ∃ t u,
      (layered.outgoing none).run () = some ([t, u], ()) ∧
        (∀ v ∈ [t, u], order none (layered.target v) = .lt) ∧
          order (layered.target u) (layered.target t) = .lt := by
  obtain ⟨htotal, -, hall⟩ := nested_layered.order_ascends order_layered
  refine ⟨_, order_layered, htotal, _, _, rfl, fun v hv => ?_, ?_⟩
  · obtain ⟨hsource, -, hlt⟩ := hall none nofun () _ () rfl v hv
    rwa [hsource] at hlt
  · decide

end WeightedAutomata
