import Mathlib.Algebra.BigOperators.Ring.List
import Mathlib.Algebra.Order.BigOperators.Group.List
import Mathlib.Algebra.Order.Ring.Nat
import Mathlib.Algebra.BigOperators.Ring.Finset
import Mathlib.Data.Finset.Dedup
import Mathlib.Data.Fintype.EquivFin
import Mathlib.Order.WellFounded
import WeightedAutomata.Proofs.Paths.Basic

/-!
Sums over paths, as operators on functions of the state: one operator adds up what follows a
transition, and its iterates what follows a path. Weighted states are summed against such functions.
-/
namespace WeightedAutomata

open scoped BigOperators

variable {L S T W : Type}

section Weigh

variable [Semiring W]

/-- The sum of the weights in a list, each times the value of its state. -/
def weigh (ws : List (S × W)) (g : S → W) : W := (ws.map fun e => e.2 * g e.1).sum

/-- The function that is one at `s` and zero elsewhere. -/
noncomputable def indicator (s : S) : S → W :=
  open scoped Classical in fun q => if q = s then 1 else 0

variable (g h : S → W) (e : S × W) (ws vs : List (S × W))

@[simp] theorem weigh_nil : weigh [] g = 0 := rfl

@[simp] theorem weigh_cons : weigh (e :: ws) g = e.2 * g e.1 + weigh ws g := rfl

@[simp] theorem weigh_append : weigh (ws ++ vs) g = weigh ws g + weigh vs g := by
  simp [weigh]

theorem weigh_congr {g h : S → W} {ws : List (S × W)} (hg : ∀ e ∈ ws, g e.1 = h e.1) :
    weigh ws g = weigh ws h := by
  unfold weigh
  congr 1
  exact List.map_congr_left fun e he => by rw [hg e he]

theorem weigh_perm {ws vs : List (S × W)} (hp : ws.Perm vs) : weigh ws g = weigh vs g :=
  (hp.map _).sum_eq

theorem weigh_map_mul (c : W) :
    weigh (ws.map fun e => (e.1, c * e.2)) g = c * weigh ws g := by
  induction ws with
  | nil => simp
  | cons e ws ih => simp [ih, mul_add, mul_assoc]

theorem weigh_zero {ws : List (S × W)} (hz : ∀ e ∈ ws, g e.1 = 0) : weigh ws g = 0 := by
  rw [weigh_congr (h := fun _ => 0) hz]
  induction ws with
  | nil => rfl
  | cons e ws ih => simpa using ih fun e he => hz e (List.mem_cons_of_mem _ he)

/-- A sum is zero only if every summand is. -/
def ZeroSumFree (W : Type) [Semiring W] : Prop := ∀ a b : W, a + b = 0 → a = 0 ∧ b = 0

theorem eq_zero_of_weigh (hzero : ZeroSumFree W) {g : S → W} {ws : List (S × W)}
    (h : weigh ws g = 0) : ∀ e ∈ ws, e.2 * g e.1 = 0 := by
  induction ws with
  | nil => nofun
  | cons e ws ih =>
    obtain ⟨he, hws⟩ := hzero _ _ h
    exact List.forall_mem_cons.2 ⟨he, ih hws⟩

theorem weigh_eq_zero (hzero : ZeroSumFree W) {ws : List (S × W)}
    (h : weigh ws (fun _ => 1) = 0) (g : S → W) : weigh ws g = 0 := by
  refine List.sum_eq_zero fun w hw => ?_
  obtain ⟨e, he, rfl⟩ := List.mem_map.1 hw
  rw [← mul_one e.2, eq_zero_of_weigh hzero h e he, zero_mul]

@[simp] theorem indicator_self (s : S) : (indicator s s : W) = 1 := if_pos rfl

theorem indicator_of_ne {s q : S} (hne : q ≠ s) : (indicator s q : W) = 0 := if_neg hne

/-- A sum over weighted states, state by state. -/
theorem weigh_eq_sum_indicator {F : Finset S} (hF : ∀ e ∈ ws, e.1 ∈ F) :
    weigh ws g = ∑ s ∈ F, weigh ws (indicator s) * g s := by
  induction ws with
  | nil => simp
  | cons e ws ih =>
    have hs : ∑ s ∈ F, e.2 * indicator s e.1 * g s = e.2 * g e.1 := by
      rw [Finset.sum_eq_single_of_mem e.1 (hF e List.mem_cons_self)]
      · simp
      · intro s _ hne
        simp [indicator_of_ne hne.symm]
    simp only [weigh_cons, add_mul, Finset.sum_add_distrib, hs]
    rw [ih fun e he => hF e (List.mem_cons_of_mem _ he)]

/-- Weighted states with the same total at every state have the same sums. -/
theorem weigh_eq_of_indicator {ws vs : List (S × W)}
    (heq : ∀ s, weigh ws (indicator s) = weigh vs (indicator s)) : weigh ws g = weigh vs g := by
  classical
  have hw : ∀ e ∈ ws, e.1 ∈ ((ws ++ vs).map Prod.fst).toFinset := fun e he => by
    simpa using .inl ⟨e.2, he⟩
  have hv : ∀ e ∈ vs, e.1 ∈ ((ws ++ vs).map Prod.fst).toFinset := fun e he => by
    simpa using .inr ⟨e.2, he⟩
  rw [weigh_eq_sum_indicator g ws hw, weigh_eq_sum_indicator g vs hv]
  simp only [heq]

end Weigh

namespace Automaton

section Operators

variable [Semiring W] (A : Automaton Id L S T W)

/-- The sum over the transitions that leave a state of their weights times the values of `g` at
their targets. -/
def onward (g : S → W) (s : S) : W :=
  ((A.leaving s).map fun t => A.cost t * g (A.target t)).sum

/-- The sum over the paths of fewer than `n` transitions from a state of their weights times the
values of `g` at their ends. -/
def pathSum (n : ℕ) (g : S → W) (s : S) : W := ∑ i ∈ Finset.range n, A.onward^[i] g s

theorem onward_congr {g h : S → W} {s : S}
    (hg : ∀ t ∈ A.leaving s, g (A.target t) = h (A.target t)) :
    A.onward g s = A.onward h s := by
  unfold onward
  congr 1
  exact List.map_congr_left fun t ht => by rw [hg t ht]

theorem onward_sum {ι : Type} (F : Finset ι) (f : ι → S → W) (s : S) :
    A.onward (fun q => ∑ i ∈ F, f i q) s = ∑ i ∈ F, A.onward (f i) s := by
  simp only [onward, Finset.mul_sum]
  induction A.leaving s with
  | nil => simp
  | cons t ts ih => simp [ih, Finset.sum_add_distrib]

/-- Carrying weighted states along their transitions. -/
theorem weigh_flatMap_leaving (ws : List (S × W)) (g : S → W) :
    weigh (ws.flatMap fun e => (A.leaving e.1).map fun t => (A.target t, e.2 * A.cost t)) g =
      weigh ws (A.onward g) := by
  have hone (w : W) (ts : List T) : weigh (ts.map fun t => (A.target t, w * A.cost t)) g =
      w * (ts.map fun t => A.cost t * g (A.target t)).sum := by
    induction ts with
    | nil => simp
    | cons t ts ih => simp [ih, mul_add, mul_assoc]
  induction ws with
  | nil => rfl
  | cons e ws ih => rw [List.flatMap_cons, weigh_append, ih, hone, weigh_cons, onward]

/-- What is left after `n` rounds of replacing a sum by what its states have received. -/
theorem weigh_eq_pathSum_add {ws : List (S × W)} {w : W} {s : S}
    (h : ∀ g, weigh ws g = w * g s + weigh ws (A.onward g)) (n : ℕ) (g : S → W) :
    weigh ws g = w * A.pathSum n g s + weigh ws (A.onward^[n] g) := by
  induction n with
  | zero => simp [pathSum]
  | succ n ih =>
    rw [ih, h, ← add_assoc, ← mul_add, Function.iterate_succ_apply', pathSum, pathSum,
      Finset.sum_range_succ]

@[simp] theorem pathSum_zero (g : S → W) (s : S) : A.pathSum 0 g s = 0 := by simp [pathSum]

theorem pathSum_succ (n : ℕ) (g : S → W) (s : S) :
    A.pathSum (n + 1) g s = g s + A.onward (A.pathSum n g) s := by
  have h : A.onward (A.pathSum n g) s = ∑ i ∈ Finset.range n, A.onward^[i + 1] g s := by
    simp only [Function.iterate_succ_apply']
    exact A.onward_sum (Finset.range n) (fun i => A.onward^[i] g) s
  rw [pathSum, Finset.sum_range_succ', add_comm, h]
  rfl

end Operators

/-- `size s` is more than the sizes of the targets of the transitions from `s` together, for the
states of the closed set `R`: it bounds both the number and the lengths of the paths. -/
structure Bounded (A : Automaton Id L S T W) (R : S → Prop) (size : S → ℕ) : Prop where
  closed : A.Closed R
  sum_lt : ∀ s, R s → ((A.leaving s).map fun t => size (A.target t)).sum < size s

namespace Bounded

variable {A : Automaton Id L S T W} {R : S → Prop} {size : S → ℕ} (hb : A.Bounded R size)
include hb

theorem target_lt {s : S} (hs : R s) {t : T} (ht : t ∈ A.leaving s) :
    size (A.target t) < size s :=
  lt_of_le_of_lt (List.le_sum_of_mem (List.mem_map.2 ⟨t, ht, rfl⟩)) (hb.sum_lt s hs)

theorem length_lt {s : S} (hs : R s) {ts : List T} (hts : A.IsPath s ts) :
    ts.length < size s := by
  induction ts generalizing s with
  | nil => exact lt_of_le_of_lt (Nat.zero_le _) (hb.sum_lt s hs)
  | cons t ts ih =>
    have h := ih (hb.closed s hs t hts.1) hts.2
    exact lt_of_le_of_lt (Nat.succ_le_of_lt h) (hb.target_lt hs hts.1)

theorem endpoint_le {s : S} (hs : R s) {ts : List T} (hts : A.IsPath s ts) :
    size (A.endpoint s ts) ≤ size s := by
  induction ts generalizing s with
  | nil => exact le_rfl
  | cons t ts ih => exact (ih (hb.closed s hs t hts.1) hts.2).trans (hb.target_lt hs hts.1).le

theorem endpoint_ne {s : S} (hs : R s) {ts : List T} (hne : ts ≠ []) (hts : A.IsPath s ts) :
    A.endpoint s ts ≠ s := by
  obtain ⟨t, ts, rfl⟩ := List.exists_cons_of_ne_nil hne
  intro heq
  have hle := hb.endpoint_le (hb.closed s hs t hts.1) hts.2
  rw [endpoint_cons] at heq
  rw [heq] at hle
  exact absurd (hb.target_lt hs hts.1) (Nat.not_lt_of_le hle)

theorem restrict {R' : S → Prop} (hclosed : A.Closed R') (hR : ∀ s, R' s → R s) :
    A.Bounded R' size where
  closed := hclosed
  sum_lt s hs := hb.sum_lt s (hR s hs)

variable [Semiring W]

theorem onward_iterate_eq_zero (g : S → W) {n : ℕ} {s : S} (hs : R s) (hn : size s ≤ n) :
    A.onward^[n] g s = 0 := by
  induction n generalizing s with
  | zero => exact absurd (lt_of_lt_of_le (hb.sum_lt s hs) hn) (Nat.not_lt_zero _)
  | succ n ih =>
    rw [Function.iterate_succ_apply']
    apply List.sum_eq_zero
    intro w hw
    obtain ⟨t, ht, rfl⟩ := List.mem_map.1 hw
    have hlt := hb.target_lt hs ht
    rw [ih (hb.closed s hs t ht) (by omega), mul_zero]

theorem pathSum_eq (g : S → W) {n : ℕ} {s : S} (hs : R s) (hn : size s ≤ n) :
    A.pathSum n g s = A.pathSum (size s) g s := by
  induction n, hn using Nat.le_induction with
  | base => rfl
  | succ n hn ih =>
    rw [← ih, pathSum, Finset.sum_range_succ, hb.onward_iterate_eq_zero g hs hn, add_zero]
    rfl

/-- Sizes do not matter, as long as they bound. -/
theorem pathSum_congr {R' : S → Prop} {size' : S → ℕ} (hb' : A.Bounded R' size') (g : S → W)
    {s : S} (hs : R s) (hs' : R' s) : A.pathSum (size s) g s = A.pathSum (size' s) g s := by
  rw [← hb.pathSum_eq g hs (le_max_left _ (size' s)),
    ← hb'.pathSum_eq g hs' (le_max_right (size s) _)]

/-- A sum over paths, where `size` bounds them, by the first step. -/
theorem pathSum_eq_add (g : S → W) {s : S} (hs : R s) :
    A.pathSum (size s) g s = g s + A.onward (fun q => A.pathSum (size q) g q) s := by
  obtain ⟨n, hn⟩ : ∃ n, size s = n + 1 :=
    ⟨size s - 1, (Nat.succ_pred_eq_of_pos (Nat.zero_lt_of_lt (hb.sum_lt s hs))).symm⟩
  rw [hn, pathSum_succ]
  congr 1
  refine A.onward_congr fun t ht => hb.pathSum_eq g (hb.closed s hs t ht) ?_
  have hlt := hb.target_lt hs ht
  omega

end Bounded

/-- A finite closed set of states without cycles is bounded. -/
theorem exists_bounded {A : Automaton Id L S T W} {R : S → Prop} (hc : A.Closed R)
    (hf : {s | R s}.Finite)
    (ha : ∀ s, R s → ∀ ts, ts ≠ [] → A.IsPath s ts → A.endpoint s ts ≠ s) :
    ∃ size, A.Bounded R size := by
  classical
  let P := {s // R s}
  have : Finite P := hf
  let below : P → P → Prop := fun q s => ∃ ts, ts ≠ [] ∧ A.IsPath s.1 ts ∧ A.endpoint s.1 ts = q.1
  have htrans : IsTrans P below := ⟨by
    rintro a b c ⟨ts, hts, hp, he⟩ ⟨us, hus, hq, hf⟩
    exact ⟨us ++ ts, by simp [hus], isPath_append.2 ⟨hq, by rwa [hf]⟩,
      by rw [endpoint_append, hf, he]⟩⟩
  have hirrefl : Std.Irrefl below := ⟨fun s ⟨ts, hts, hp, he⟩ => ha s.1 s.2 ts hts hp he⟩
  have hwf : WellFounded below := Finite.wellFounded_of_trans_of_irrefl below
  have hbelow (s : P) {t : T} (ht : t ∈ A.leaving s.1) : below ⟨A.target t, hc s.1 s.2 t ht⟩ s :=
    ⟨[t], by simp, ⟨ht, trivial⟩, rfl⟩
  let size : P → ℕ := hwf.fix fun s rec =>
    ((A.leaving s.1).attach.map fun t => rec ⟨A.target t.1, hc s.1 s.2 t.1 t.2⟩ (hbelow s t.2)).sum + 1
  have hsize (s : P) : size s =
      ((A.leaving s.1).attach.map fun t => size ⟨A.target t.1, hc s.1 s.2 t.1 t.2⟩).sum + 1 :=
    hwf.fix_eq _ s
  refine ⟨fun s => if h : R s then size ⟨s, h⟩ else 0, hc, fun s hs => ?_⟩
  have hmap : ((A.leaving s).map fun t => if h : R (A.target t) then size ⟨A.target t, h⟩ else 0) =
      (A.leaving s).attach.map fun t => size ⟨A.target t.1, hc s hs t.1 t.2⟩ := by
    rw [← List.attach_map_val]
    exact List.map_congr_left fun t _ => dif_pos (hc s hs t.1 t.2)
  rw [hmap, dif_pos hs, hsize]
  exact Nat.lt_succ_self _

end Automaton

end WeightedAutomata
