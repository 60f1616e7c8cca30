import WeightedAutomata.Proofs.Nesting.Expressions
import WeightedAutomata.Proofs.Steady.Assembled

/-!
Nested views over one memory: however automata are put together, their queries have lasting answers
that honour the contract. Expressions build such views.
-/
namespace WeightedAutomata

variable {W : Type} [Semiring W] [BEq W]

/-- Automata put together by views from explicit and primitive ones, with the regime of the memory
that they share and the property that the states which have come up have. Copies are explicit
automata. -/
inductive Viewed : {σ : Type} → Regime σ → {L S T : Type} →
    Automaton (StateT σ Option) L S T W → (σ → S → Prop) → Prop where
  | explicit {σ : Type} {r : Regime σ} {L : Type} (E : Explicit L W) :
    Viewed r (E.automaton : Automaton (StateT σ Option) L ℕ ℕ W) fun _ s => s < E.states.size
  | string {σ : Type} {r : Regime σ} {L : Type} (x : List L) :
    Viewed r (singleString x : Automaton (StateT σ Option) L ℕ ℕ W) fun _ _ => True
  | transition {σ : Type} {r : Regime σ} {L : Type} (label : Option L) (w : W) :
    Viewed r (singleTransition label w : Automaton (StateT σ Option) L ℕ Unit W) fun _ _ => True
  | union {σ : Type} {r : Regime σ} {L : Type} {n : ℕ} {S T : Fin n → Type}
    {A : (i : Fin n) → Automaton (StateT σ Option) L (S i) (T i) W}
    {K : (i : Fin n) → σ → S i → Prop} (operands : ∀ i, Viewed r (A i) (K i)) :
    Viewed r (WeightedAutomata.union A) fun μ s => K s.operand μ s.value
  | product {σ : Type} {r : Regime σ} {L₁ L₂ L S₁ S₂ T₁ T₂ : Type} (pairing : Pairing L₁ L₂ L)
    {A : Automaton (StateT σ Option) L₁ S₁ T₁ W} {B : Automaton (StateT σ Option) L₂ S₂ T₂ W}
    {K₁ : σ → S₁ → Prop} {K₂ : σ → S₂ → Prop} (left : Viewed r A K₁) (right : Viewed r B K₂) :
    Viewed r (A.product pairing B) fun μ s => K₁ μ s.left ∧ K₂ μ s.right
  | singleInitial {σ : Type} {r : Regime σ} {L S T : Type} {A : Automaton (StateT σ Option) L S T W}
    {K : σ → S → Prop} (operand : Viewed r A K) :
    Viewed r A.singleInitial fun μ s => ∀ q ∈ s, K μ q
  | reversal {σ : Type} {r : Regime σ} {L S T : Type} {A : Automaton (StateT σ Option) L S T W}
    {back : Backward (StateT σ Option) S T} {K : σ → S → Prop} (access : A.backward = some back)
    (operand : Viewed r A K) : Viewed r (A.reversal back) K
  | determinize {σ : Type} {r : Regime σ} {L S T : Type} [BEq L] [BEq S] [LawfulBEq S] [Hashable S]
    [PartialInverse W] (budget : ℕ) {A : Automaton (StateT σ Option) L S T W} {K : σ → S → Prop}
    (operand : Viewed r A K) :
    Viewed (Automaton.subsetRegime r K) ((A.determinize budget).hoist onBoth) fun μ i =>
      i < μ.1.subsets.size
  /-- The same automaton with its memory kept as a part of another one. -/
  | within {σ τ : Type} {r : Regime σ} {r' : Regime τ} (p : Part r r') {L S T : Type}
    {A : Automaton (StateT σ Option) L S T W} {K : σ → S → Prop} (operand : Viewed r A K) :
    Viewed r' (A.hoist p.within) fun ν s => K (p.get ν) s

variable {σ L S T : Type} {r : Regime σ} {A : Automaton (StateT σ Option) L S T W} {K : σ → S → Prop}

namespace Viewed

theorem assembled [LawfulBEq W] (h : Viewed r A K) : Assembled r A K := by
  induction h with
  | explicit E => exact .explicit E
  | string x => exact .string x
  | transition label w => exact .transition label w
  | union _ ih => exact .union ih
  | product pairing _ _ ihleft ihright => exact .product pairing ihleft ihright
  | singleInitial _ ih => exact .singleInitial ih
  | reversal access _ ih => exact .reversal access ih
  | determinize budget _ ih => exact .determinize budget ih
  | within p _ ih => exact .within p ih

theorem exists_steadies [LawfulBEq W] (h : Viewed r A K) : ∃ V, A.Steadies (r := r) K V :=
  h.assembled.exists_steadies

end Viewed

/-- Nothing is remembered. -/
def Regime.stateless : Regime Unit where
  start := ()
  Sound _ := True
  Later _ _ := True
  sound_start := trivial
  refl _ := trivial
  trans _ _ := trivial

namespace AnyAutomaton

/-- The memories of several automata side by side. -/
def regimes : (as : List (AnyAutomaton L W)) → ((i : Fin as.length) → Regime (as.get i).Memory) →
    Regime (Memories as)
  | [], _ => .stateless
  | _ :: as, r => (r 0).pair (regimes as fun i => r i.succ)

omit [Semiring W] [BEq W] in
theorem start_regimes : (as : List (AnyAutomaton L W)) →
    (r : (i : Fin as.length) → Regime (as.get i).Memory) →
    (∀ i, (r i).start = (as.get i).memory) → (regimes as r).start = .start as
  | [], _, _ => rfl
  | _ :: as, r, h =>
    Prod.ext (h 0) (start_regimes as (fun i => r i.succ) fun i => h i.succ)

/-- The memory of one of several automata. -/
def partOf : (as : List (AnyAutomaton L W)) → (r : (i : Fin as.length) → Regime (as.get i).Memory) →
    (i : Fin as.length) → Part (r i) (regimes as r)
  | _ :: _, _, ⟨0, _⟩ => .first
  | _ :: as, r, ⟨i + 1, h⟩ =>
    .comp (partOf as (fun j => r j.succ) ⟨i, Nat.lt_of_succ_lt_succ h⟩) .second

omit [Semiring W] [BEq W] in
theorem within_partOf : (as : List (AnyAutomaton L W)) →
    (r : (i : Fin as.length) → Regime (as.get i).Memory) → (i : Fin as.length) → {α : Type} →
    (x : StateT (as.get i).Memory Option α) → (partOf as r i).within x = onMember as i x
  | _ :: _, _, ⟨0, _⟩, _, _ => rfl
  | _ :: as, r, ⟨i + 1, h⟩, _, x =>
    ((partOf as (fun j => r j.succ) ⟨i, Nat.lt_of_succ_lt_succ h⟩).within_comp .second x).trans
      (congrArg onSecond (within_partOf as (fun j => r j.succ) ⟨i, Nat.lt_of_succ_lt_succ h⟩ x))

/-- An automaton is put together by views, and starts with the first content of its memory. -/
def IsViewed (a : AnyAutomaton L W) : Prop :=
  ∃ (r : Regime a.Memory) (K : a.Memory → a.State → Prop),
    r.start = a.memory ∧ Viewed r a.automaton K

theorem isViewed_union? {as : List (AnyAutomaton L W)} (h : ∀ a ∈ as, a.IsViewed)
    {b : AnyAutomaton L W} (hb : AnyAutomaton.union? as = .ok b) : b.IsViewed := by
  choose r K hstart hviewed using fun i => h _ (as.get_mem i)
  have hmember (i : Fin as.length) : Viewed (regimes as r)
      ((as.get i).automaton.hoist (onMember as i)) fun ν s => K i ((partOf as r i).get ν) s := by
    have hwithin : (as.get i).automaton.hoist (partOf as r i).within =
        (as.get i).automaton.hoist (onMember as i) := by
      congr 1
      funext α x
      exact within_partOf as r i x
    rw [← hwithin]
    exact (hviewed i).within (partOf as r i)
  unfold union? WeightedAutomata.union? at hb
  split at hb
  · cases hb
  · next hunion =>
    cases hb
    split at hunion
    · cases hunion
    · cases hunion
      exact ⟨_, _, start_regimes as r hstart, .union hmember⟩

variable [BEq L] [PartialInverse W] {budget : ℕ}

/-- What a query answers that has no memory. -/
def dropUnit : Translation (StateT Unit Option) Option where
  map x := (x.run ()).map (·.1)
  pure _ := rfl
  bind x f := by
    change ((x ()).bind fun p => f p.1 p.2).map _ = ((x ()).map _).bind _
    cases x () <;> rfl
  outOfSteps := rfl

/-- A memory with nothing in it may as well be left out. -/
theorem moved_determinize [BEq S] [Hashable S] (A : Automaton (StateT Unit Option) L S T W)
    {r : Regime (SubsetMemory L S W × Unit)} :
    ((A.determinize budget).hoist onBoth).hoist (Part.moved (r := r) (Equiv.prodPUnit _)).within =
      (A.hoist dropUnit.map).determinize budget := by
  rw [Automaton.hoist_determinize, Automaton.hoist_hoist]
  congr 1
  funext α x μ
  change ((x μ ()).map _).map _ = (x μ ()).map _
  rw [Option.map_map]
  rfl

/-- The acceptor of several strings is a determinized union. -/
theorem isViewed_strings? {members : List (List L)} {b : AnyAutomaton L W}
    (hb : AnyAutomaton.strings? budget members = .ok b) : b.IsViewed := by
  have hviewed : Viewed .stateless (union fun i : Fin members.length =>
      (singleString (members.get i) : Automaton (StateT Unit Option) L ℕ ℕ W)) _ :=
    .union fun i => .string (members.get i)
  have hmoved := (hviewed.determinize budget).within (.moved (Equiv.prodPUnit _))
  have hdrop : (union fun i : Fin members.length =>
      (singleString (members.get i) : Automaton (StateT Unit Option) L ℕ ℕ W)).hoist dropUnit.map =
        union fun i => singleString (members.get i) := by
    rw [hoist_union]
    exact congrArg union
      (funext fun i => (Automaton.hoist_singleString dropUnit (members.get i)).symm)
  rw [moved_determinize, hdrop] at hmoved
  unfold AnyAutomaton.strings? multipleStrings WeightedAutomata.union? at hb
  split at hb
  · cases hb
  · next hunion =>
    cases hb
    split at hunion
    · cases hunion
    · cases hunion
      exact ⟨_, _, rfl, hmoved⟩

end AnyAutomaton

namespace Expression

open AnyAutomaton

variable [BEq L] [PartialInverse W] {budget : ℕ}

mutual

/-- What an expression builds is put together by views. -/
theorem isViewed_of_build : (e : Expression L W) → {a : AnyAutomaton L W} →
    e.build budget = .ok a → a.IsViewed
  | .explicit outcome, a, h => by
    cases outcome with
    | error e => cases h
    | ok E =>
      cases h
      exact ⟨.stateless, _, rfl, .explicit E⟩
  | .string labels, a, h => by
    cases h
    exact ⟨.stateless, _, rfl, .string labels⟩
  | .transition label weight, a, h => by
    cases h
    exact ⟨.stateless, _, rfl, .transition label weight⟩
  | .strings members, a, h => isViewed_strings? h
  | .union operands, a, h => by
    obtain ⟨as, hall, h⟩ := bind_eq_ok h
    exact isViewed_union? (isViewed_of_buildAll operands hall) h
  | .product pairing left right, a, h => by
    obtain ⟨b, hleft, h⟩ := bind_eq_ok h
    obtain ⟨c, hright, h⟩ := bind_eq_ok h
    cases h
    obtain ⟨r, K, hstart, hviewed⟩ := isViewed_of_build left hleft
    obtain ⟨r', K', hstart', hviewed'⟩ := isViewed_of_build right hright
    exact ⟨r.pair r', _, Prod.ext hstart hstart',
      .product pairing (hviewed.within .first) (hviewed'.within .second)⟩
  | .determinize operand, a, h => by
    obtain ⟨b, hoperand, rfl⟩ := map_eq_ok h
    obtain ⟨r, K, hstart, hviewed⟩ := isViewed_of_build operand hoperand
    exact ⟨_, _, Prod.ext rfl hstart, hviewed.determinize budget⟩
  | .singleInitial operand, a, h => by
    obtain ⟨b, hoperand, rfl⟩ := map_eq_ok h
    obtain ⟨r, K, hstart, hviewed⟩ := isViewed_of_build operand hoperand
    exact ⟨r, _, hstart, hviewed.singleInitial⟩
  | .materialize operand, a, h => by
    obtain ⟨b, -, h⟩ := bind_eq_ok h
    unfold AnyAutomaton.materialize? at h
    split at h
    · cases h
    · cases h
    · cases h
      exact ⟨.stateless, _, rfl, .explicit _⟩
  | .reverse operand, a, h => by
    obtain ⟨b, hoperand, h⟩ := bind_eq_ok h
    cases hreverse : b.reverse? with
    | none =>
      rw [hreverse] at h
      cases h
    | some c =>
      rw [hreverse] at h
      cases h
      obtain ⟨_, hown, rfl⟩ := Option.map_eq_some_iff.1 hreverse
      obtain ⟨back, hback, rfl⟩ := Option.map_eq_some_iff.1 hown
      obtain ⟨r, K, hstart, hviewed⟩ := isViewed_of_build operand hoperand
      exact ⟨r, _, hstart, .reversal hback hviewed⟩

theorem isViewed_of_buildAll : (es : List (Expression L W)) → {as : List (AnyAutomaton L W)} →
    buildAll budget es = .ok as → ∀ a ∈ as, a.IsViewed
  | [], as, h => by
    cases h
    nofun
  | e :: es, as, h => by
    obtain ⟨b, hfirst, h⟩ := bind_eq_ok h
    obtain ⟨bs, hrest, h⟩ := bind_eq_ok h
    cases h
    exact List.forall_mem_cons.2 ⟨isViewed_of_build e hfirst, isViewed_of_buildAll es hrest⟩

end

end Expression

end WeightedAutomata
