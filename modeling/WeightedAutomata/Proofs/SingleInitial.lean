import WeightedAutomata.Proofs.Answers
import WeightedAutomata.Proofs.Paths.Sums
import WeightedAutomata.View.SingleInitial

/-!
The single-initial view: what it answers, and the sums over its paths.
-/
namespace WeightedAutomata.Automaton

variable {m : Type → Type} [Monad m] {L S T W : Type}

section Views

variable [Zero W] [One W] [Add W] [Mul W] (Q : Automaton Id L S T W)

theorem starts_singleInitial : Q.singleInitial.starts = [none] := rfl

theorem leaving_singleInitial_none :
    Q.singleInitial.leaving none = (Q.starts.flatMap Q.leaving).map .fused := by
  have h : Q.starts.mapM Q.outgoing = pure (Q.starts.map Q.leaving) :=
    mapM_eq_pure (m := Id) fun _ _ => rfl
  exact congrArg (fun out => (out.run.flatten).map Rooted.fused) h

theorem exit_singleInitial_none : Q.singleInitial.exit none =
    Q.starts.foldl (fun total s => total + Q.entry s * Q.exit s) 0 :=
  foldlM_eq_pure (m := Id) (fun _ _ _ => rfl) 0

@[simp] theorem leaving_singleInitial_some (s : S) :
    Q.singleInitial.leaving (some s) = (Q.leaving s).map .plain := rfl

@[simp] theorem cost_singleInitial_plain (t : T) :
    Q.singleInitial.cost (.plain t) = Q.cost t := rfl

@[simp] theorem cost_singleInitial_fused (t : T) :
    Q.singleInitial.cost (.fused t) = Q.entry (Q.source t) * Q.cost t := rfl

@[simp] theorem target_singleInitial (t : Rooted T) :
    Q.singleInitial.target t = some (Q.target t.transition) := rfl

variable {Q} {R : S → Prop}

theorem Closed.singleInitial (hc : Q.Closed R) (hs : ∀ s ∈ Q.starts, R s) :
    Q.singleInitial.Closed fun s => ∀ q ∈ s, R q := by
  intro s hR t ht
  cases s with
  | none =>
    rw [leaving_singleInitial_none] at ht
    obtain ⟨u, hu, rfl⟩ := List.mem_map.1 ht
    obtain ⟨s, hs', hu⟩ := List.mem_flatMap.1 hu
    simpa [Rooted.transition] using hc s (hs s hs') u hu
  | some s =>
    obtain ⟨u, hu, rfl⟩ := List.mem_map.1 ht
    simpa [Rooted.transition] using hc s (hR s rfl) u hu

theorem Answers.singleInitial [LawfulMonad m] {A : Automaton m L S T W} (h : A.Answers Q R)
    (hQ : Q.Lawful) : A.singleInitial.Answers Q.singleInitial fun s => ∀ q ∈ s, R q where
  closed := h.closed.singleInitial h.starts
  starts s hs := by simp [starts_singleInitial] at hs; simp [hs]
  initialStates := rfl
  outgoing s hs := by
    cases s with
    | none =>
      rw [leaving_singleInitial_none]
      change (do return ((← (← A.initialStates).mapM A.outgoing).flatten).map Rooted.fused) = _
      simp only [h.initialStates, pure_bind,
        mapM_eq_pure fun s hs => h.outgoing s (h.starts s hs), List.flatMap]
    | some s =>
      change (do return (← A.outgoing s).map Rooted.plain) = _
      simp [h.outgoing s (hs s rfl)]
  initialWeight _ _ := rfl
  finalWeight s hs := by
    cases s with
    | none =>
      rw [exit_singleInitial_none]
      change (do (← A.initialStates).foldlM (fun total s =>
        return total + (← A.initialWeight s) * (← A.finalWeight s)) 0) = _
      rw [h.initialStates, pure_bind]
      exact foldlM_eq_pure (fun s hs _ => by
        rw [h.initialWeight s (h.starts s hs), h.finalWeight s (h.starts s hs), pure_bind,
          pure_bind]) 0
    | some s => exact h.finalWeight s (hs s rfl)
  weight s hs t ht := by
    cases s with
    | none =>
      rw [leaving_singleInitial_none] at ht
      obtain ⟨u, hu, rfl⟩ := List.mem_map.1 ht
      obtain ⟨s, hs, hu⟩ := List.mem_flatMap.1 hu
      have hsrc : A.source u = s := by rw [h.source, hQ.source_eq s u hu]
      rw [cost_singleInitial_fused, hQ.source_eq s u hu]
      change (do return (← A.initialWeight (A.source u)) * (← A.weight u)) = _
      rw [hsrc, h.initialWeight s (h.starts s hs), h.weight s (h.starts s hs) u hu, pure_bind,
        pure_bind]
    | some s =>
      obtain ⟨u, hu, rfl⟩ := List.mem_map.1 ht
      exact h.weight s (hs s rfl) u hu
  source := by
    funext t
    cases t <;> simp [Automaton.singleInitial, h.source]
  target := by
    funext t
    simp [Automaton.singleInitial, h.target]
  label := by
    funext t
    simp [Automaton.singleInitial, h.label]
  order := by simp [Automaton.singleInitial, h.order]

end Views

section Sums

variable [Semiring W] {Q : Automaton Id L S T W}

/-- The values of a function at the operand's states, zero at the added one. -/
def atOwn (g : S → W) : Option S → W
  | none => 0
  | some s => g s

theorem pathSum_singleInitial_some (g : S → W) (n : ℕ) (s : S) :
    Q.singleInitial.pathSum n (atOwn g) (some s) = Q.pathSum n g s := by
  induction n generalizing s with
  | zero => simp
  | succ n ih =>
    rw [pathSum_succ, pathSum_succ]
    congr 1
    simp only [onward, leaving_singleInitial_some, List.map_map, Function.comp_def,
      cost_singleInitial_plain, target_singleInitial, Rooted.transition, ih]

/-- The transitions of the added state, sorted by the initial states that they have left. -/
theorem sum_leaving_singleInitial_none (hQ : Q.Lawful) {f : Rooted T → W} {g : T → W}
    (hf : ∀ t, f (.fused t) = Q.entry (Q.source t) * g t) :
    ((Q.singleInitial.leaving none).map f).sum =
      (Q.starts.map fun s => Q.entry s * ((Q.leaving s).map g).sum).sum := by
  rw [leaving_singleInitial_none, List.map_map]
  simp only [Function.comp_def, hf]
  induction Q.starts with
  | nil => rfl
  | cons s ss ih =>
    have hone : ((Q.leaving s).map fun t => Q.entry (Q.source t) * g t) =
        (Q.leaving s).map fun t => Q.entry s * g t :=
      List.map_congr_left fun t ht => by rw [hQ.source_eq s t ht]
    rw [List.flatMap_cons, List.map_append, List.sum_append, ih, hone, List.sum_map_mul_left,
      List.map_cons, List.sum_cons]

theorem onward_singleInitial_none (hQ : Q.Lawful) (g : Option S → W) :
    Q.singleInitial.onward g none =
      (Q.starts.map fun s => Q.entry s * Q.onward (fun q => g (some q)) s).sum :=
  sum_leaving_singleInitial_none hQ fun _ => mul_assoc _ _ _

theorem pathSum_singleInitial_none (hQ : Q.Lawful) (g : S → W) (n : ℕ) :
    Q.singleInitial.pathSum (n + 1) (atOwn g) none =
      (Q.starts.map fun s => Q.entry s * Q.onward (Q.pathSum n g) s).sum := by
  rw [pathSum_succ, atOwn, zero_add, onward_singleInitial_none hQ]
  simp only [pathSum_singleInitial_some]

end Sums

section Bounded

variable [Zero W] [One W] [Add W] [Mul W] {Q : Automaton Id L S T W} {R : S → Prop} {size : S → ℕ}

/-- The sizes of the single-initial view. -/
def rootedSize (Q : Automaton Id L S T W) (size : S → ℕ) : Option S → ℕ
  | none => (Q.starts.map size).sum + 1
  | some s => size s

theorem Bounded.singleInitial (hb : Q.Bounded R size) (hs : ∀ s ∈ Q.starts, R s) :
    Q.singleInitial.Bounded (fun s => ∀ q ∈ s, R q) (Q.rootedSize size) where
  closed := hb.closed.singleInitial hs
  sum_lt s hR := by
    cases s with
    | none =>
      rw [leaving_singleInitial_none, List.map_map]
      apply Nat.lt_succ_of_le
      simp only [Function.comp_def, target_singleInitial, Rooted.transition, rootedSize]
      generalize Q.starts = ss at hs
      induction ss with
      | nil => exact Nat.le_refl _
      | cons s ss ih =>
        have hlt := hb.sum_lt s (hs s List.mem_cons_self)
        have hrest := ih fun q hq => hs q (List.mem_cons_of_mem s hq)
        rw [List.flatMap_cons, List.map_append, List.sum_append, List.map_cons, List.sum_cons]
        omega
    | some s =>
      rw [leaving_singleInitial_some, List.map_map]
      exact hb.sum_lt s (hR s rfl)

end Bounded

end WeightedAutomata.Automaton
