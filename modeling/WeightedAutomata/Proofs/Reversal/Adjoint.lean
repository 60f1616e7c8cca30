import WeightedAutomata.Proofs.Reversal.TwoWay
import WeightedAutomata.Proofs.Totals

/-!
Reversal turns the operators that sum over transitions and paths into their adjoints: in a sum over
the states of one function times what the operator makes of another, the operator may be moved to
the first function when it is replaced by that of the reversal.
-/
namespace WeightedAutomata.Automaton

open scoped BigOperators

variable {L S T W : Type} [CommSemiring W]

/-- The sum over the states of `F` of the products of the values. -/
def pairing (F : Finset S) (f g : S → W) : W := ∑ s ∈ F, f s * g s

section Pairing

variable {F : Finset S}

theorem pairing_comm (f g : S → W) : pairing F f g = pairing F g f :=
  Finset.sum_congr rfl fun _ _ => mul_comm _ _

theorem pairing_congr {f f' g g' : S → W} (hf : ∀ s ∈ F, f s = f' s) (hg : ∀ s ∈ F, g s = g' s) :
    pairing F f g = pairing F f' g' :=
  Finset.sum_congr rfl fun s hs => by rw [hf s hs, hg s hs]

/-- In a pairing, `P` on the second function does what `Q` does on the first. -/
def Adjoint (F : Finset S) (P Q : (S → W) → S → W) : Prop :=
  ∀ f g, pairing F f (P g) = pairing F (Q f) g

theorem Adjoint.iterate {P Q : (S → W) → S → W} (h : Adjoint F P Q) (n : ℕ) :
    Adjoint F P^[n] Q^[n] := by
  induction n with
  | zero => exact fun _ _ => rfl
  | succ n ih =>
    intro f g
    rw [Function.iterate_succ_apply', Function.iterate_succ_apply, h, ih]

theorem Adjoint.sum {ι : Type} {P Q : ι → (S → W) → S → W} (I : Finset ι)
    (h : ∀ i ∈ I, Adjoint F (P i) (Q i)) :
    Adjoint F (fun g s => ∑ i ∈ I, P i g s) fun f s => ∑ i ∈ I, Q i f s := by
  intro f g
  unfold pairing
  simp only [Finset.mul_sum, Finset.sum_mul]
  rw [Finset.sum_comm, Finset.sum_comm (s := F)]
  exact Finset.sum_congr rfl fun i hi => h i hi f g

/-- Sums over paths are adjoint where those over transitions are. -/
theorem Adjoint.pathSum {A B : Automaton Id L S T W} (h : Adjoint F A.onward B.onward)
    {size size' : S → ℕ} (hb : A.Bounded (· ∈ F) size) (hb' : B.Bounded (· ∈ F) size') :
    Adjoint F (fun g s => A.pathSum (size s) g s) fun f s => B.pathSum (size' s) f s := by
  intro f g
  let n := ∑ s ∈ F, (size s + size' s)
  have hle {s : S} (hs : s ∈ F) : size s + size' s ≤ n :=
    Finset.single_le_sum (f := fun s => size s + size' s) (fun _ _ => Nat.zero_le _) hs
  calc pairing F f (fun s => A.pathSum (size s) g s)
      = pairing F f (A.pathSum n g) :=
        pairing_congr (fun _ _ => rfl) fun s hs =>
          (hb.pathSum_eq g hs (by have := hle hs; omega)).symm
    _ = pairing F (B.pathSum n f) g := Adjoint.sum _ (fun i _ => h.iterate i) f g
    _ = pairing F (fun s => B.pathSum (size' s) f s) g :=
        pairing_congr (fun s hs => hb'.pathSum_eq f hs (by have := hle hs; omega)) fun _ _ => rfl

end Pairing

section Reversal

variable {A : Automaton Id L S T W} {back : Backward Id S T} {F : Finset S}
variable (h : A.TwoWay back) (hF : Encloses F A back)
include h hF

/-- From the states of `F` the reversal has the same transitions in another order. -/
theorem perm_leaving_reversal :
    (F.toList.flatMap (A.reversal back).leaving).Perm (F.toList.flatMap A.leaving) := by
  have hnodup {B : Automaton Id L S T W} (hB : B.Lawful) (hleaving : ∀ s, (B.leaving s).Nodup) :
      (F.toList.flatMap B.leaving).Nodup := by
    refine List.nodup_flatMap.2 ⟨fun s _ => hleaving s, F.nodup_toList.imp ?_⟩
    intro s q hne
    refine List.disjoint_left.2 fun t hs hq => hne ?_
    exact (hB.source_eq s t hs).symm.trans (hB.source_eq q t hq)
  refine (List.perm_ext_iff_of_nodup (hnodup (lawful_reversal h.retraces) h.retraces.incoming_nodup)
    (hnodup h.lawful h.leaving_nodup)).2 fun t => ?_
  simp only [List.mem_flatMap, Finset.mem_toList]
  constructor
  · rintro ⟨s, hs, ht⟩
    exact ⟨A.source t, hF.closed_back s hs t ht, ((h.retraces.mem_incoming s t).1 ht).1⟩
  · rintro ⟨s, hs, ht⟩
    refine ⟨A.target t, hF.closed s hs t ht, (h.retraces.mem_incoming _ t).2 ⟨?_, rfl⟩⟩
    rwa [h.lawful.source_eq s t ht]

/-- Sums over transitions, with a coefficient for each. -/
theorem adjoint_reversal (c : T → W) :
    Adjoint F (fun g s => ((A.leaving s).map fun t => c t * g (A.target t)).sum)
      fun f s => (((A.reversal back).leaving s).map fun t => c t * f (A.source t)).sum := by
  intro f g
  let φ (t : T) : W := f (A.source t) * (c t * g (A.target t))
  have hleft (s : S) : f s * ((A.leaving s).map fun t => c t * g (A.target t)).sum =
      ((A.leaving s).map φ).sum := by
    rw [← List.sum_map_mul_left]
    congr 1
    refine List.map_congr_left fun t ht => ?_
    rw [← h.lawful.source_eq s t ht]
  have hright (s : S) :
      (((A.reversal back).leaving s).map fun t => c t * f (A.source t)).sum * g s =
        (((A.reversal back).leaving s).map φ).sum := by
    rw [← List.sum_map_mul_right]
    congr 1
    refine List.map_congr_left fun t ht => ?_
    rw [← ((h.retraces.mem_incoming s t).1 ht).2]
    ring
  have hsum (B : Automaton Id L S T W) : ∑ s ∈ F, ((B.leaving s).map φ).sum =
      ((F.toList.flatMap B.leaving).map φ).sum := by
    rw [sum_map_flatMap, Finset.sum_map_toList]
  unfold pairing
  simp only [hleft, hright]
  rw [hsum, hsum, ((perm_leaving_reversal h hF).map φ).sum_eq]

theorem adjoint_onward : Adjoint F A.onward (A.reversal back).onward :=
  adjoint_reversal h hF A.cost

theorem adjoint_onLabel [BEq L] (l : Option L) :
    Adjoint F (A.onLabel l) ((A.reversal back).onLabel l) := by
  have hcoef := adjoint_reversal h hF fun t => if A.label t == l then A.cost t else 0
  simp only [ite_mul, zero_mul] at hcoef
  exact hcoef

variable [BEq L] [BEq S] [BEq W] {closure closure' : S → ℕ}
variable (hc : (A.epsilonPart []).Bounded (· ∈ F) closure)
variable (hc' : ((A.reversal back).epsilonPart []).Bounded (· ∈ F) closure')
include hc hc'

theorem adjoint_closing :
    Adjoint F (A.closing closure) ((A.reversal back).closing closure') := by
  have hnone (B : Automaton Id L S T W) : (B.epsilonPart []).onward = B.onLabel none :=
    funext fun g => funext fun s => onward_epsilonPart [] g s
  refine Adjoint.pathSum ?_ hc hc'
  rw [hnone, hnone]
  exact adjoint_onLabel h hF none

/-- To read a string is adjoint to reading it from its end on the reversal. -/
theorem adjoint_after (x : List L) :
    Adjoint F (fun g => A.closing closure (A.after closure g x))
      fun f => (A.reversal back).closing closure' ((A.reversal back).after closure' f x.reverse) := by
  induction x with
  | nil => exact adjoint_closing h hF hc hc'
  | cons a x ih =>
    intro f g
    simp only [List.reverse_cons, after_append]
    rw [← ih]
    exact (adjoint_closing h hF hc hc' _ _).trans (adjoint_onLabel h hF (some a) _ _)

omit hc hc'

end Reversal

section Totals

variable {A : Automaton Id L S T W} {F : Finset S}

theorem fromStarts_eq_pairing (hA : A.Lawful) (hF : ∀ s ∈ A.starts, s ∈ F) (g : S → W) :
    A.fromStarts g = pairing F A.entry g := by
  classical
  have hsub : A.starts.toFinset ⊆ F := fun s hs => hF s (List.mem_toFinset.1 hs)
  unfold fromStarts pairing
  rw [← List.sum_toFinset _ hA.starts_nodup]
  refine Finset.sum_subset hsub fun s _ hs => ?_
  rw [List.mem_toFinset, hA.mem_starts, not_not] at hs
  rw [hs, zero_mul]

variable {back : Backward Id S T} (h : A.TwoWay back) (hF : Encloses F A back)
include h hF

/-- Summed from the initial states of the one and to those of the other. -/
theorem fromStarts_reversal {P Q : (S → W) → S → W} (hadjoint : Adjoint F P Q) :
    A.fromStarts (P A.exit) =
      (A.reversal back).fromStarts (Q (A.reversal back).exit) := by
  rw [fromStarts_eq_pairing h.lawful hF.starts,
    fromStarts_eq_pairing (lawful_reversal h.retraces) hF.finals, hadjoint, pairing_comm]
  rfl

theorem total_reversal {size size' : S → ℕ} (hb : A.Bounded (· ∈ F) size)
    (hb' : (A.reversal back).Bounded (· ∈ F) size') :
    A.total size = (A.reversal back).total size' :=
  fromStarts_reversal h hF (.pathSum (adjoint_onward h hF) hb hb')

theorem stringTotal_reversal [BEq L] [BEq S] [BEq W] {closure closure' : S → ℕ}
    (hc : (A.epsilonPart []).Bounded (· ∈ F) closure)
    (hc' : ((A.reversal back).epsilonPart []).Bounded (· ∈ F) closure') (x : List L) :
    A.stringTotal closure x = (A.reversal back).stringTotal closure' x.reverse :=
  fromStarts_reversal h hF (adjoint_after h hF hc hc' x)

end Totals

end WeightedAutomata.Automaton
