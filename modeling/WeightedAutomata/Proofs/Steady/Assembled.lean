import WeightedAutomata.Proofs.KBest.Followed
import WeightedAutomata.Proofs.Nesting.Ascending
import WeightedAutomata.Proofs.Steady.Determinization

/-!
Nested views with all kinds of weights. Some views let the weights remember the best paths; such
weights obey few laws, but the queries of views over them have lasting answers all the same.
-/
namespace WeightedAutomata

namespace KBest

variable {k : ℕ} {S T W : Type} [Zero W] [BEq W] [Ord W] [BEq S] [BEq T]

instance [Mul W] : MulZeroClass (KBest k S T W) where
  zero_mul := zero_mul_eq
  mul_zero := mul_zero_eq

omit [Ord W] [BEq S] [BEq T] in
theorem single_eq_zero_iff [LawfulBEq W] {entry : PathWeight S T W} :
    (single entry : KBest k S T W) = 0 ↔ entry.weight = 0 := by
  unfold single
  split
  · next h => exact iff_of_true rfl (eq_of_beq h)
  · next h => exact iff_of_false (fun heq => nomatch KBest.mk.inj heq) fun heq => h (beq_iff_eq.2 heq)

end KBest

section KBest

variable {σ L S T W : Type} [Zero W] [One W] [BEq W] [LawfulBEq W] (k : ℕ)

/-- Where one is not zero, weights that remember their paths are zero where the others are. -/
theorem Honours.kBest (hone : (1 : W) ≠ 0) {A : Automaton Option L S T W} {K : S → Prop}
    (h : Honours A K) : Honours (A.kBest k) K where
  forward :=
    { nodup := h.forward.nodup
      mem_iff := by
        rintro - ss hss s w hw
        obtain ⟨v, hv, heq⟩ := Option.bind_eq_some_iff.1 hw
        rw [← Option.some.inj heq]
        have hzero : (KBest.liftInitial v s : KBest k S T W) = 0 ↔ v = 0 := KBest.single_eq_zero_iff
        exact (h.forward.mem_iff hone ss hss s v hv).trans (not_congr hzero).symm
      known := h.forward.known
      near_eq := h.forward.near_eq
      far_known := h.forward.far_known }
  backward := nofun
  count_incoming := nofun

theorem Automaton.Steadies.kBest (hone : (1 : W) ≠ 0) {r : Regime σ}
    {A : Automaton (StateT σ Option) L S T W} {K : σ → S → Prop} {V : Automaton (Steady r) L S T W}
    (h : Steadies A K V) : Steadies (A.kBest k) K (V.kBest k) where
  eq_asked := by
    obtain ⟨f, rfl⟩ := h.exists_final
    unfold asked
    rw [← hoist_kBest]
    rfl
  later := h.later
  finalWeight_run μ s hμ hs := Steady.run_bind_eq (h.finalWeight_run μ s hμ hs) fun _ _ _ => rfl
  finalWeight_keeps s := (h.finalWeight_keeps s).bind fun _ => Regime.keeps_pure _
  reversible := nofun
  honours ξ hξ := by
    rw [← hoist_kBest]
    exact (h.honours ξ hξ).kBest k hone

end KBest

/-- Automata put together by views from explicit and primitive ones over whatever weights, with the
regime of the memory that they share and the property that the states which have come up have. -/
inductive Assembled : {σ : Type} → Regime σ → {L S T W : Type} → [MulZeroClass W] → [One W] →
    [Add W] → [BEq W] → [LawfulBEq W] → Automaton (StateT σ Option) L S T W → (σ → S → Prop) →
    Prop where
  | explicit {σ : Type} {r : Regime σ} {L W : Type} [MulZeroClass W] [One W] [Add W] [BEq W]
    [LawfulBEq W] (E : Explicit L W) :
    Assembled r (E.automaton : Automaton (StateT σ Option) L ℕ ℕ W) fun _ s => s < E.states.size
  | string {σ : Type} {r : Regime σ} {L W : Type} [MulZeroClass W] [One W] [Add W] [BEq W]
    [LawfulBEq W] (x : List L) :
    Assembled r (singleString x : Automaton (StateT σ Option) L ℕ ℕ W) fun _ _ => True
  | transition {σ : Type} {r : Regime σ} {L W : Type} [MulZeroClass W] [One W] [Add W] [BEq W]
    [LawfulBEq W] (label : Option L) (w : W) :
    Assembled r (singleTransition label w : Automaton (StateT σ Option) L ℕ Unit W) fun _ _ => True
  | union {σ : Type} {r : Regime σ} {L W : Type} [MulZeroClass W] [One W] [Add W] [BEq W]
    [LawfulBEq W] {n : ℕ} {S T : Fin n → Type}
    {A : (i : Fin n) → Automaton (StateT σ Option) L (S i) (T i) W}
    {K : (i : Fin n) → σ → S i → Prop} (operands : ∀ i, Assembled r (A i) (K i)) :
    Assembled r (WeightedAutomata.union A) fun μ s => K s.operand μ s.value
  | product {σ : Type} {r : Regime σ} {L₁ L₂ L S₁ S₂ T₁ T₂ W : Type} [MulZeroClass W] [One W]
    [Add W] [BEq W] [LawfulBEq W] (pairing : Pairing L₁ L₂ L)
    {A : Automaton (StateT σ Option) L₁ S₁ T₁ W} {B : Automaton (StateT σ Option) L₂ S₂ T₂ W}
    {K₁ : σ → S₁ → Prop} {K₂ : σ → S₂ → Prop} (left : Assembled r A K₁)
    (right : Assembled r B K₂) :
    Assembled r (A.product pairing B) fun μ s => K₁ μ s.left ∧ K₂ μ s.right
  | singleInitial {σ : Type} {r : Regime σ} {L S T W : Type} [MulZeroClass W] [One W] [Add W]
    [BEq W] [LawfulBEq W] {A : Automaton (StateT σ Option) L S T W} {K : σ → S → Prop}
    (operand : Assembled r A K) : Assembled r A.singleInitial fun μ s => ∀ q ∈ s, K μ q
  | reversal {σ : Type} {r : Regime σ} {L S T W : Type} [MulZeroClass W] [One W] [Add W] [BEq W]
    [LawfulBEq W] {A : Automaton (StateT σ Option) L S T W} {back : Backward (StateT σ Option) S T}
    {K : σ → S → Prop} (access : A.backward = some back) (operand : Assembled r A K) :
    Assembled r (A.reversal back) K
  | kBest {σ : Type} {r : Regime σ} {L S T W : Type} [MulZeroClass W] [One W] [Add W] [BEq W]
    [LawfulBEq W] [Ord W] [BEq S] [LawfulBEq S] [BEq T] [LawfulBEq T] (k : ℕ)
    (one_ne_zero : (1 : W) ≠ 0) {A : Automaton (StateT σ Option) L S T W} {K : σ → S → Prop}
    (operand : Assembled r A K) : Assembled r (A.kBest k) K
  | determinize {σ : Type} {r : Regime σ} {L S T W : Type} [BEq L] [BEq S] [LawfulBEq S]
    [Hashable S] [Semiring W] [BEq W] [LawfulBEq W] [PartialInverse W] (budget : ℕ)
    {A : Automaton (StateT σ Option) L S T W} {K : σ → S → Prop} (operand : Assembled r A K) :
    Assembled (Automaton.subsetRegime r K) ((A.determinize budget).hoist onBoth) fun μ i =>
      i < μ.1.subsets.size
  /-- The same automaton with its memory kept as a part of another one. -/
  | within {σ τ : Type} {r : Regime σ} {r' : Regime τ} (p : Part r r') {L S T W : Type}
    [MulZeroClass W] [One W] [Add W] [BEq W] [LawfulBEq W]
    {A : Automaton (StateT σ Option) L S T W} {K : σ → S → Prop} (operand : Assembled r A K) :
    Assembled r' (A.hoist p.within) fun ν s => K (p.get ν) s

namespace Assembled

variable {σ L S T W : Type} [MulZeroClass W] [One W] [Add W] [BEq W] [LawfulBEq W] {r : Regime σ}
variable {A : Automaton (StateT σ Option) L S T W} {K : σ → S → Prop}

theorem exists_steadies (h : Assembled r A K) :
    ∃ V, A.Steadies (r := r) K V := by
  induction h with
  | explicit E => exact ⟨_, .lift E.automaton (.explicit E)⟩
  | string x => exact ⟨_, .lift (singleString x) (.string x)⟩
  | transition label w => exact ⟨_, .lift (singleTransition label w) (.transition label w)⟩
  | union _ ih =>
    choose V hV using ih
    exact ⟨_, .union hV⟩
  | product pairing _ _ ihleft ihright =>
    obtain ⟨V₁, h₁⟩ := ihleft
    obtain ⟨V₂, h₂⟩ := ihright
    exact ⟨_, .product pairing h₁ h₂⟩
  | singleInitial _ ih =>
    obtain ⟨V, hV⟩ := ih
    exact ⟨_, .singleInitial hV⟩
  | reversal access _ ih =>
    obtain ⟨V, hV⟩ := ih
    exact hV.reversal access
  | kBest k hone _ ih =>
    obtain ⟨V, hV⟩ := ih
    exact ⟨_, hV.kBest k hone⟩
  | determinize budget _ ih =>
    obtain ⟨V, hV⟩ := ih
    exact ⟨_, hV.determinize budget⟩
  | within p _ ih =>
    obtain ⟨V, hV⟩ := ih
    exact ⟨_, hV.within p⟩

/-- Leaving the memory out of account, these are nested views. -/
theorem exists_nested (h : Assembled r A K) : ∃ K', Nested A K' := by
  induction h with
  | explicit E => exact ⟨_, .explicit E⟩
  | string x => exact ⟨_, .string x⟩
  | transition label w => exact ⟨_, .transition label w⟩
  | union _ ih =>
    choose K' hK' using ih
    exact ⟨_, .union hK'⟩
  | product pairing _ _ ihleft ihright =>
    obtain ⟨K₁, h₁⟩ := ihleft
    obtain ⟨K₂, h₂⟩ := ihright
    exact ⟨_, .product pairing h₁ h₂⟩
  | singleInitial _ ih =>
    obtain ⟨K', hK'⟩ := ih
    exact ⟨_, hK'.singleInitial⟩
  | reversal access _ ih =>
    obtain ⟨K', hK'⟩ := ih
    exact ⟨_, .reversal access hK'⟩
  | kBest k _ _ ih =>
    obtain ⟨K', hK'⟩ := ih
    exact ⟨_, hK'.kBest k⟩
  | determinize budget _ ih =>
    obtain ⟨K', hK'⟩ := ih
    exact ⟨_, .hoist .both (hK'.determinize budget)⟩
  | within p _ ih =>
    obtain ⟨K', hK'⟩ := ih
    exact ⟨_, hK'.hoist p.translation⟩

end Assembled

end WeightedAutomata
