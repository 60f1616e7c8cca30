import WeightedAutomata.Proofs.Contract
import WeightedAutomata.Proofs.Steady.Basic

/-!
Views of automata with lasting answers. Final weights are apart from the other queries: what a
determinization answers for a subset that it has not found yet does not last.
-/
namespace WeightedAutomata

section Hoist

variable {m n : Type → Type} [Monad m] [Monad n] [StepLimited m] [StepLimited n]
variable (φ : Translation m n) {L S T W : Type}

namespace Automaton

omit [Monad m] [Monad n] [StepLimited m] [StepLimited n] in
theorem hoist_hoist {k : Type → Type} (A : Automaton k L S T W) (f : {α : Type} → k α → m α)
    (g : {α : Type} → m α → n α) : (A.hoist f).hoist g = A.hoist fun x => g (f x) := by
  unfold hoist
  congr 1
  rw [Option.map_map]
  rfl

theorem hoist_lift (A : Automaton Id L S T W) :
    (A.lift : Automaton m L S T W).hoist φ.map = A.lift := by
  rw [lift, hoist_hoist, lift]
  simp only [φ.pure]

end Automaton

theorem allSome?_map {n : ℕ} {α β : Fin n → Type} (f : (i : Fin n) → Option (α i))
    (g : (i : Fin n) → α i → β i) :
    (allSome? fun i => (f i).map (g i)) = (allSome? f).map fun h i => g i (h i) := by
  unfold allSome?
  by_cases h : ∀ i, (f i).isSome
  · rw [dif_pos h, dif_pos fun i => by rw [Option.isSome_map]; exact h i]
    simp
  · rw [dif_neg h, dif_neg fun h' => h fun i => by simpa using h' i]
    rfl

theorem hoist_tagAll {k : ℕ} {S : Fin k → Type} (query : (i : Fin k) → m (List (S i))) :
    φ.map (tagAll query) = tagAll fun i => φ.map (query i) := by
  simp only [tagAll, φ.bind, φ.mapM, φ.pure]

theorem hoist_union {k : ℕ} {S T : Fin k → Type}
    (A : (i : Fin k) → Automaton m L (S i) (T i) W) :
    (union A).hoist φ.map = union fun i => (A i).hoist φ.map := by
  unfold union Automaton.hoist
  simp only [hoist_tagAll, φ.bind, φ.pure, allSome?_map, Option.map_map]
  congr 2
  funext back
  simp only [Function.comp_apply, Backward.hoist, hoist_tagAll, φ.bind, φ.pure]

end Hoist

variable {σ τ L S T W : Type}

namespace Automaton

variable {r : Regime σ} {r' : Regime τ}

/-- The queries of `V` with other final weights. -/
def asked (V : Automaton (Steady r) L S T W) (final : S → StateT σ Option W) :
    Automaton (StateT σ Option) L S T W :=
  { V.hoist Steady.asking.map with finalWeight := final }

/-- The queries of `A` have lasting answers: they are those of `V`, at least for final weights of
states that have come up, which satisfy `K`; and the answers honour the contract. -/
structure Steadies [Zero W] [One W] (A : Automaton (StateT σ Option) L S T W) (K : σ → S → Prop)
    (V : Automaton (Steady r) L S T W) : Prop where
  eq_asked : A = V.asked A.finalWeight
  later : ∀ {μ ν}, r.Later μ ν → ∀ {s}, K μ s → K ν s
  finalWeight_run : ∀ μ s, r.Sound μ → K μ s →
    (A.finalWeight s).run μ = (V.finalWeight s).ask.run μ
  finalWeight_keeps : ∀ s, r.Keeps (A.finalWeight s)
  reversible : A.backward.isSome → ∀ s, A.finalWeight s = (V.finalWeight s).ask
  honours : ∀ ξ (hξ : r.Sound ξ), Honours (V.hoist (Steady.recalling ξ hξ).map) (K ξ)

namespace Steadies

theorem exists_final [Zero W] [One W] {A : Automaton (StateT σ Option) L S T W} {K : σ → S → Prop}
    {V : Automaton (Steady r) L S T W} (h : Steadies A K V) : ∃ final, A = V.asked final :=
  ⟨_, h.eq_asked⟩

/-- Answers without effect last. -/
theorem lift [Zero W] [One W] (A : Automaton Id L S T W) {K : S → Prop}
    (h : Honours (A.lift : Automaton Option L S T W) K) :
    Steadies (A.lift : Automaton (StateT σ Option) L S T W) (fun _ => K)
      (A.lift : Automaton (Steady r) L S T W) where
  eq_asked := by
    unfold asked
    rw [hoist_lift]
  later _ _ hs := hs
  finalWeight_run _ _ _ _ := rfl
  finalWeight_keeps _ := Regime.keeps_pure _
  reversible _ _ := rfl
  honours ξ hξ := by rwa [hoist_lift]

theorem union [Zero W] [One W] {n : ℕ} {S T : Fin n → Type}
    {A : (i : Fin n) → Automaton (StateT σ Option) L (S i) (T i) W}
    {K : (i : Fin n) → σ → S i → Prop} {V : (i : Fin n) → Automaton (Steady r) L (S i) (T i) W}
    (h : ∀ i, Steadies (A i) (K i) (V i)) :
    Steadies (WeightedAutomata.union A) (fun μ s => K s.operand μ s.value)
      (WeightedAutomata.union V) where
  eq_asked := by
    choose f hf using fun i => (h i).exists_final
    obtain rfl : A = fun i => (V i).asked (f i) := funext hf
    unfold asked
    rw [hoist_union]
    rfl
  later hlater s hs := (h s.operand).later hlater hs
  finalWeight_run μ s hμ hs := (h s.operand).finalWeight_run μ s.value hμ hs
  finalWeight_keeps s := (h s.operand).finalWeight_keeps s.value
  reversible hsome s := by
    obtain ⟨backs, hbacks, -⟩ :=
      Option.map_eq_some_iff.1 (Option.eq_some_of_isSome hsome)
    refine (h s.operand).reversible ?_ s.value
    rw [eq_some_of_allSome? hbacks s.operand]
    rfl
  honours ξ hξ := by
    rw [hoist_union]
    exact .union fun i => (h i).honours ξ hξ

theorem product [MulZeroClass W] [One W] [BEq W] [LawfulBEq W] {L₁ L₂ S₁ S₂ T₁ T₂ : Type}
    (pairing : Pairing L₁ L₂ L) {A : Automaton (StateT σ Option) L₁ S₁ T₁ W}
    {B : Automaton (StateT σ Option) L₂ S₂ T₂ W} {K₁ : σ → S₁ → Prop} {K₂ : σ → S₂ → Prop}
    {V₁ : Automaton (Steady r) L₁ S₁ T₁ W} {V₂ : Automaton (Steady r) L₂ S₂ T₂ W}
    (hA : Steadies A K₁ V₁) (hB : Steadies B K₂ V₂) :
    Steadies (A.product pairing B) (fun μ s => K₁ μ s.left ∧ K₂ μ s.right)
      (V₁.product pairing V₂) where
  eq_asked := by
    obtain ⟨f, rfl⟩ := hA.exists_final
    obtain ⟨g, rfl⟩ := hB.exists_final
    unfold asked
    rw [← hoist_product]
    rfl
  later hlater _ hs := ⟨hA.later hlater hs.1, hB.later hlater hs.2⟩
  finalWeight_run μ s hμ hs := by
    change (A.finalWeight s.left >>= fun v => B.finalWeight s.right >>= fun w => pure (v * w)).run μ =
      ((V₁.finalWeight s.left).ask >>= fun v => (V₂.finalWeight s.right).ask >>= fun w =>
        pure (v * w)).run μ
    refine Steady.run_bind_eq (hA.finalWeight_run μ s.left hμ hs.1) fun v ν hrun => ?_
    obtain ⟨hν, hlater⟩ := (V₁.finalWeight s.left).keeps μ v ν hμ hrun
    exact Steady.run_bind_eq (hB.finalWeight_run ν s.right hν (hB.later hlater hs.2)) fun _ _ _ => rfl
  finalWeight_keeps s := (hA.finalWeight_keeps s.left).bind fun _ =>
    (hB.finalWeight_keeps s.right).bind fun _ => Regime.keeps_pure _
  reversible := nofun
  honours ξ hξ := by
    rw [← hoist_product]
    exact .product pairing (hA.honours ξ hξ) (hB.honours ξ hξ)

theorem reversal [Zero W] [One W] {A : Automaton (StateT σ Option) L S T W} {K : σ → S → Prop}
    {V : Automaton (Steady r) L S T W} (h : Steadies A K V) {back : Backward (StateT σ Option) S T}
    (hback : A.backward = some back) : ∃ V', Steadies (A.reversal back) K (r := r) V' := by
  have hfinal := h.reversible (by rw [hback]; rfl)
  have hinitial : ∀ s, A.initialWeight s = (V.initialWeight s).ask := by
    obtain ⟨f, rfl⟩ := h.exists_final
    exact fun _ => rfl
  obtain ⟨back', hback', rfl⟩ : ∃ back', V.backward = some back' ∧
      back'.hoist Steady.asking.map = back := by
    obtain ⟨f, rfl⟩ := h.exists_final
    exact Option.map_eq_some_iff.1 hback
  refine ⟨V.reversal back', ?_, h.later, fun μ s _ _ => ?_, fun s => ?_, fun _ s => hinitial s,
    fun ξ hξ => ?_⟩
  · obtain ⟨f, rfl⟩ := h.exists_final
    obtain rfl : f = fun s => (V.finalWeight s).ask := funext hfinal
    rfl
  · exact congrArg (StateT.run · μ) (hinitial s)
  · change r.Keeps (A.initialWeight s)
    rw [hinitial s]
    exact (V.initialWeight s).keeps
  · have hrecalled : (V.hoist (Steady.recalling ξ hξ).map).backward =
        some (back'.hoist (Steady.recalling ξ hξ).map) := by
      change V.backward.map _ = _
      rw [hback']
      rfl
    exact (h.honours ξ hξ).reversal hrecalled

theorem within [Zero W] [One W] (p : Part r r') {A : Automaton (StateT σ Option) L S T W}
    {K : σ → S → Prop}
    {V : Automaton (Steady r) L S T W} (h : Steadies A K V) :
    Steadies (A.hoist p.within) (fun ν s => K (p.get ν) s) (V.hoist (Steady.within p).map) where
  eq_asked := by
    obtain ⟨f, rfl⟩ := h.exists_final
    unfold asked
    rw [hoist_hoist]
    unfold hoist
    simp only [Option.map_map]
    rfl
  later hlater _ hs := h.later (p.later_get hlater) hs
  finalWeight_run ν s hν hs :=
    congrArg (Option.map _) (h.finalWeight_run (p.get ν) s (p.sound_get ν hν) hs)
  finalWeight_keeps s := p.keeps_within (h.finalWeight_keeps s)
  reversible hsome s := by
    rw [hoist, Option.isSome_map] at hsome
    exact congrArg p.within (h.reversible hsome s)
  honours ξ hξ := by
    have heq : (V.hoist (Steady.within p).map).hoist (Steady.recalling ξ hξ).map =
        V.hoist (Steady.recalling (p.get ξ) (p.sound_get ξ hξ)).map := by
      rw [hoist_hoist]
      congr 1
      funext α x
      exact p.recollect_within x.ask ξ
    rw [heq]
    exact h.honours (p.get ξ) (p.sound_get ξ hξ)

/-- The initial states that have been answered have come up. -/
theorem known_initial [Zero W] [One W] {A : Automaton (StateT σ Option) L S T W} {K : σ → S → Prop}
    {V : Automaton (Steady r) L S T W} (h : Steadies A K V) {μ ν : σ} {ss : List S}
    (hμ : r.Sound μ) (hrun : V.initialStates.ask.run μ = some (ss, ν)) : ∀ s ∈ ss, K ν s := by
  obtain ⟨hν, -⟩ := V.initialStates.keeps μ ss ν hμ hrun
  exact (h.honours ν hν).forward.known ss (V.initialStates.recollect_of_run hμ hrun (r.refl ν))

theorem singleInitial [Zero W] [One W] [Add W] [Mul W] {A : Automaton (StateT σ Option) L S T W}
    {K : σ → S → Prop} {V : Automaton (Steady r) L S T W} (h : Steadies A K V) :
    Steadies A.singleInitial (fun μ s => ∀ q ∈ s, K μ q) V.singleInitial where
  eq_asked := by
    obtain ⟨f, rfl⟩ := h.exists_final
    unfold asked
    rw [← hoist_singleInitial]
    rfl
  later hlater _ hs q hq := h.later hlater (hs q hq)
  finalWeight_run μ s hμ hs := by
    cases s with
    | some s => exact h.finalWeight_run μ s hμ (hs s rfl)
    | none =>
      have hinitial : A.initialStates = V.initialStates.ask ∧
          ∀ s, A.initialWeight s = (V.initialWeight s).ask := by
        obtain ⟨f, rfl⟩ := h.exists_final
        exact ⟨rfl, fun _ => rfl⟩
      change (A.initialStates >>= fun ss => ss.foldlM (fun total s => A.initialWeight s >>= fun v =>
        A.finalWeight s >>= fun w => pure (total + v * w)) 0).run μ =
          (V.initialStates.ask >>= fun ss => (ss.foldlM (fun total s => V.initialWeight s >>= fun v =>
            V.finalWeight s >>= fun w => pure (total + v * w)) 0).ask).run μ
      refine Steady.run_bind_eq (congrArg (StateT.run · μ) hinitial.1) fun ss ν hrun => ?_
      obtain ⟨hν, -⟩ := V.initialStates.keeps μ ss ν hμ hrun
      refine Steady.run_foldlM_eq h.later (fun total s ξ hξ hs => ?_) hν
        (h.known_initial hμ hrun) 0
      refine Steady.run_bind_eq (congrArg (StateT.run · ξ) (hinitial.2 s)) fun v ω hrun => ?_
      obtain ⟨hω, hlater⟩ := (V.initialWeight s).keeps ξ v ω hξ hrun
      exact Steady.run_bind_eq (h.finalWeight_run ω s hω (h.later hlater hs)) fun _ _ _ => rfl
  finalWeight_keeps s := by
    cases s with
    | some s => exact h.finalWeight_keeps s
    | none =>
      obtain ⟨f, hf⟩ := h.exists_final
      have hkeeps := h.finalWeight_keeps
      subst hf
      exact V.initialStates.keeps.bind fun ss => Regime.keeps_foldlM (fun total s _ =>
        (V.initialWeight s).keeps.bind fun _ => (hkeeps s).bind fun _ => Regime.keeps_pure _) 0
  reversible := nofun
  honours ξ hξ := by
    rw [← hoist_singleInitial]
    exact .singleInitial (h.honours ξ hξ)

end Steadies

end Automaton

end WeightedAutomata
