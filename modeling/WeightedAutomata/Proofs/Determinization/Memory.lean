import Mathlib.Data.List.Perm.Subperm
import WeightedAutomata.Proofs.Determinization.Readings
import WeightedAutomata.View.Determinization

/-!
What the memory of a determinization means. Every subset stands for a sum over the paths of the
operand, and what has been remembered stays as the memory grows.
-/
namespace WeightedAutomata

variable {L S T W : Type}

namespace SubsetMemory

/-- Nothing remembered is lost or changed. -/
structure Extends (μ ν : SubsetMemory L S W) : Prop where
  size_le : μ.subsets.size ≤ ν.subsets.size
  subset_eq : ∀ i < μ.subsets.size, ν.subset i = μ.subset i
  explored : ∀ (i : ℕ) ts, μ.explored[i]? = some ts → ν.explored[i]? = some ts
  start : ∀ r, μ.start = some r → ν.start = some r
  failure : ∀ e, μ.failure = some e → ν.failure = some e

theorem Extends.refl (μ : SubsetMemory L S W) : μ.Extends μ :=
  ⟨le_rfl, fun _ _ => rfl, fun _ _ h => h, fun _ h => h, fun _ h => h⟩

theorem Extends.isSome_failure {μ ν : SubsetMemory L S W} (h : μ.Extends ν)
    (hf : μ.failure.isSome) : ν.failure.isSome := by
  obtain ⟨e, he⟩ := Option.isSome_iff_exists.1 hf
  rw [h.failure e he]
  rfl

theorem Extends.trans {μ ν ξ : SubsetMemory L S W} (h : μ.Extends ν) (h' : ν.Extends ξ) :
    μ.Extends ξ where
  size_le := h.size_le.trans h'.size_le
  subset_eq i hi := by rw [h'.subset_eq i (lt_of_lt_of_le hi h.size_le), h.subset_eq i hi]
  explored i ts hi := h'.explored i ts (h.explored i ts hi)
  start r hr := h'.start r (h.start r hr)
  failure e he := h'.failure e (h.failure e he)

theorem extends_recordFailure (μ : SubsetMemory L S W) (e : InverseError) :
    μ.Extends (μ.recordFailure e) := by
  refine ⟨le_rfl, fun _ _ => rfl, fun _ _ h => h, fun _ h => h, fun f hf => ?_⟩
  rw [recordFailure, hf]
  rfl

theorem extends_insert_explored (μ : SubsetMemory L S W) {i : ℕ}
    (hi : μ.explored[i]? = none) (ts : List (SubsetTransition L W)) :
    μ.Extends { μ with explored := μ.explored.insert i ts } := by
  refine ⟨le_rfl, fun _ _ => rfl, fun j us hj => ?_, fun _ h => h, fun _ h => h⟩
  have hne : i ≠ j := by
    rintro rfl
    rw [hi] at hj
    cases hj
  simpa [Std.HashMap.getElem?_insert, hne] using hj

theorem extends_set_start (μ : SubsetMemory L S W) (h : μ.start = none) (r : Option (ℕ × W)) :
    μ.Extends { μ with start := some r } :=
  ⟨le_rfl, fun _ _ => rfl, fun _ _ h => h, fun q hq => by simp [h] at hq, fun _ h => h⟩

section Intern

variable [Semiring W] [BEq S] [LawfulBEq S] [BEq W] [LawfulBEq W]

omit [Semiring W] in
theorem perm_of_sameSubset {a b : WeightedStates S W} (ha : a.Nodup) (h : sameSubset a b) :
    a.Perm b := by
  obtain ⟨hlength, hall⟩ := Bool.and_eq_true_iff.1 h
  have hsubset : a ⊆ b := fun e he => List.contains_iff_mem.1 (List.all_eq_true.1 hall e he)
  exact (List.subperm_of_subset ha hsubset).perm_of_length_le (eq_of_beq hlength).ge

omit [Semiring W] [LawfulBEq S] [LawfulBEq W] in
theorem extends_intern (μ : SubsetMemory L S W) (subset : WeightedStates S W) :
    μ.Extends (μ.intern subset).2 ∧ (μ.intern subset).1 < (μ.intern subset).2.subsets.size ∧
      ((μ.intern subset).2 = μ ∨
        (μ.intern subset).2 = { μ with subsets := μ.subsets.push subset }) := by
  unfold intern
  cases hfind : μ.subsets.findIdx? (sameSubset subset) with
  | some i =>
    obtain ⟨hi, -, -⟩ := Array.findIdx?_eq_some_iff_getElem.1 hfind
    exact ⟨.refl μ, hi, .inl rfl⟩
  | none =>
    refine ⟨⟨by simp, fun i hi => ?_, fun _ _ h => h, fun _ h => h, fun _ h => h⟩, by simp, .inr rfl⟩
    simp [SubsetMemory.subset, Array.getD_eq_getD_getElem?, Array.getElem?_push_lt hi,
      Array.getElem?_eq_getElem hi]

/-- An interned subset has the sums of the one asked for. -/
theorem weigh_intern (μ : SubsetMemory L S W) {subset : WeightedStates S W} (hnodup : subset.Nodup)
    (g : S → W) :
    weigh ((μ.intern subset).2.subset (μ.intern subset).1) g = weigh subset g := by
  unfold intern
  cases hfind : μ.subsets.findIdx? (sameSubset subset) with
  | some i =>
    obtain ⟨hi, hsame, -⟩ := Array.findIdx?_eq_some_iff_getElem.1 hfind
    have hget : μ.subset i = μ.subsets[i] := by simp [SubsetMemory.subset, hi]
    change weigh (μ.subset i) g = _
    rw [hget]
    exact (weigh_perm g (perm_of_sameSubset hnodup hsame)).symm
  | none => simp [SubsetMemory.subset, Array.getD_eq_getD_getElem?]

end Intern

end SubsetMemory

namespace Automaton

variable [Semiring W] [BEq L] [BEq S] [BEq W] [PartialInverse W]

/-- What settling weighted states with the sums `value` has led to: nothing for sums that vanish, a
failure for a total without an inverse, else an interned subset and the total divided out. -/
inductive Settles (μ : SubsetMemory L S W) (value : (S → W) → W) : Option (ℕ × W) → Prop where
  | vanished : (∀ g, value g = 0) → Settles μ value none
  | stuck {e : InverseError} : value (fun _ => 1) ≠ 0 →
      PartialInverse.inverse (value fun _ => 1) = .error e → μ.failure.isSome →
      Settles μ value none
  | placed {b : W} {i : ℕ} : value (fun _ => 1) ≠ 0 →
      PartialInverse.inverse (value fun _ => 1) = .ok b → i < μ.subsets.size →
      (∀ g, weigh (μ.subset i) g = b * value g) → Settles μ value (some (i, value fun _ => 1))

variable (A : Automaton Id L S T W) (closure : S → ℕ)

/-- The sums over the paths that the start of the determinization stands for. -/
def startValue (g : S → W) : W := A.fromStarts (A.closing closure g)

/-- The sums over the paths that a step of the determinization from a subset stands for. -/
def stepValue (subset : WeightedStates S W) (a : L) (g : S → W) : W :=
  weigh subset (A.onLabel (some a) (A.closing closure g))

/-- The transitions of a state are what its subset settles to, label by label. -/
def Expanded (μ : SubsetMemory L S W) (i : ℕ) (ts : List (SubsetTransition L W)) : Prop :=
  ∀ a, ∃ r, Settles μ (A.stepValue closure (μ.subset i) a) r ∧
    (ts.filter fun t => t.label == a) = (r.map fun p => ⟨i, p.1, a, p.2⟩).toList

/-- The memories that come up in a determinization. -/
structure Remembers (μ : SubsetMemory L S W) : Prop where
  reachable : ∀ i, ∀ e ∈ μ.subset i, A.Reachable e.1
  explored : ∀ (i : ℕ) ts, μ.explored[i]? = some ts → i < μ.subsets.size ∧ A.Expanded closure μ i ts
  start : ∀ r, μ.start = some r → Settles μ (A.startValue closure) r

/-- A memory from which another one has grown without new answers about states. -/
structure Grows (A : Automaton Id L S T W) (closure : S → ℕ) (μ ν : SubsetMemory L S W) : Prop where
  remembers : A.Remembers closure ν
  extends_to : μ.Extends ν
  explored : ν.explored = μ.explored
  start : ν.start = μ.start

variable {A closure} {μ ν ξ : SubsetMemory L S W}

omit [BEq L] [BEq S] [BEq W] in
theorem Settles.mono {value : (S → W) → W} {r : Option (ℕ × W)} (h : Settles μ value r)
    (hext : μ.Extends ν) : Settles ν value r := by
  cases h with
  | vanished hz => exact .vanished hz
  | stuck hne hinv hf => exact .stuck hne hinv (hext.isSome_failure hf)
  | placed hne hinv hi hg =>
    refine .placed hne hinv (lt_of_lt_of_le hi hext.size_le) fun g => ?_
    rw [hext.subset_eq _ hi]
    exact hg g

omit [BEq L] [BEq S] [BEq W] in
theorem Settles.eq_none {value : (S → W) → W} {r : Option (ℕ × W)} (h : Settles μ value r)
    (hvalue : ∀ g, value g = 0) : r = none := by
  cases h with
  | vanished _ => rfl
  | stuck _ _ _ => rfl
  | placed hne _ _ _ => exact absurd (hvalue _) hne

theorem Expanded.mono {i : ℕ} {ts : List (SubsetTransition L W)} (h : A.Expanded closure μ i ts)
    (hi : i < μ.subsets.size) (hext : μ.Extends ν) : A.Expanded closure ν i ts := by
  intro a
  obtain ⟨r, hr, hts⟩ := h a
  refine ⟨r, ?_, hts⟩
  rw [hext.subset_eq i hi]
  exact hr.mono hext

theorem remembers_empty : A.Remembers closure (.empty : SubsetMemory L S W) where
  reachable i e he := by simp [SubsetMemory.subset, SubsetMemory.empty] at he
  explored i ts h := by simp [SubsetMemory.empty] at h
  start r h := by simp [SubsetMemory.empty] at h

/-- A memory that only gains subsets keeps its meaning. -/
theorem Remembers.grow (h : A.Remembers closure μ) (hext : μ.Extends ν)
    (hexplored : ν.explored = μ.explored) (hstart : ν.start = μ.start)
    (hreach : ∀ i, ∀ e ∈ ν.subset i, A.Reachable e.1) : A.Remembers closure ν where
  reachable := hreach
  explored i ts hi := by
    rw [hexplored] at hi
    obtain ⟨hlt, hexp⟩ := h.explored i ts hi
    exact ⟨lt_of_lt_of_le hlt hext.size_le, hexp.mono hlt hext⟩
  start r hr := by
    rw [hstart] at hr
    exact (h.start r hr).mono hext

theorem Remembers.insert_explored (h : A.Remembers closure μ) {i : ℕ} (hi : i < μ.subsets.size)
    (hnew : μ.explored[i]? = none) {ts : List (SubsetTransition L W)}
    (hts : A.Expanded closure μ i ts) :
    A.Remembers closure { μ with explored := μ.explored.insert i ts } where
  reachable := h.reachable
  explored j us hj := by
    have hext := μ.extends_insert_explored hnew ts
    rw [Std.HashMap.getElem?_insert] at hj
    split at hj
    · next heq =>
      rw [← eq_of_beq heq, ← Option.some.inj hj]
      exact ⟨hi, hts.mono hi hext⟩
    · obtain ⟨hlt, hexp⟩ := h.explored j us hj
      exact ⟨hlt, hexp.mono hlt hext⟩
  start r hr := (h.start r hr).mono (μ.extends_insert_explored hnew ts)

theorem Remembers.set_start (h : A.Remembers closure μ) (hnew : μ.start = none)
    {r : Option (ℕ × W)} (hr : Settles μ (A.startValue closure) r) :
    A.Remembers closure { μ with start := some r } where
  reachable := h.reachable
  explored i ts hi := by
    obtain ⟨hlt, hexp⟩ := h.explored i ts hi
    exact ⟨hlt, hexp.mono hlt (μ.extends_set_start hnew r)⟩
  start q hq := Option.some.inj hq ▸ hr.mono (μ.extends_set_start hnew r)

theorem Grows.trans (h : A.Grows closure μ ν) (h' : A.Grows closure ν ξ) : A.Grows closure μ ξ where
  remembers := h'.remembers
  extends_to := h.extends_to.trans h'.extends_to
  explored := h'.explored.trans h.explored
  start := h'.start.trans h.start

theorem Remembers.grows_recordFailure (h : A.Remembers closure μ) (e : InverseError) :
    A.Grows closure μ (μ.recordFailure e) where
  remembers := h.grow (μ.extends_recordFailure e) rfl rfl h.reachable
  extends_to := μ.extends_recordFailure e
  explored := rfl
  start := rfl

theorem Remembers.grows_intern (h : A.Remembers closure μ)
    {subset : WeightedStates S W} (hreach : ∀ e ∈ subset, A.Reachable e.1) :
    A.Grows closure μ (μ.intern subset).2 := by
  obtain ⟨hext, -, heq⟩ := μ.extends_intern subset
  rcases heq with heq | heq
  · rw [heq]
    exact ⟨h, .refl μ, rfl, rfl⟩
  · have hmem : ∀ i, ∀ e ∈ (μ.intern subset).2.subset i, A.Reachable e.1 := by
      intro i e he
      simp only [heq, SubsetMemory.subset, Array.getD_eq_getD_getElem?, Array.getElem?_push] at he
      split at he
      · exact hreach e he
      · apply h.reachable i e
        rwa [SubsetMemory.subset, Array.getD_eq_getD_getElem?]
    exact ⟨h.grow hext (by rw [heq]) (by rw [heq]) hmem, hext, by rw [heq], by rw [heq]⟩

end Automaton

end WeightedAutomata
