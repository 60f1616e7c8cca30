import WeightedAutomata.Proofs.Determinization.Carried
import WeightedAutomata.Proofs.Determinization.Closing
import WeightedAutomata.Proofs.Determinization.Memory

/-!
What the memory of a determinization keeps to, whatever it is asked: normalized subsets, each stored
once, and transitions to what their seeds have settled to.
-/
namespace WeightedAutomata

variable {L S T W : Type}

namespace SubsetMemory

theorem subset_push (μ : SubsetMemory L S W) (subset : WeightedStates S W) (i : ℕ) :
    ({ μ with subsets := μ.subsets.push subset } : SubsetMemory L S W).subset i =
      if i = μ.subsets.size then subset else μ.subset i := by
  simp only [SubsetMemory.subset, Array.getD_eq_getD_getElem?, Array.getElem?_push]
  split <;> rfl

variable [BEq S] [LawfulBEq S] [BEq W] [LawfulBEq W] {subset : WeightedStates S W}

theorem sameSubset_of_perm {a b : WeightedStates S W} (h : a.Perm b) : sameSubset a b := by
  rw [sameSubset, Bool.and_eq_true_iff]
  exact ⟨beq_iff_eq.2 h.length_eq,
    List.all_eq_true.2 fun e he => List.contains_iff_mem.2 (h.mem_iff.1 he)⟩

/-- An equal subset that is known is found; else the subset is stored as it stands. -/
theorem intern_cases (μ : SubsetMemory L S W) (hnodup : subset.Nodup) :
    ((μ.intern subset).1 < μ.subsets.size ∧ (μ.intern subset).2 = μ ∧
      (μ.subset (μ.intern subset).1).Perm subset) ∨
    ((μ.intern subset).1 = μ.subsets.size ∧
      (μ.intern subset).2 = { μ with subsets := μ.subsets.push subset } ∧
        ∀ i < μ.subsets.size, ¬(μ.subset i).Perm subset) := by
  unfold intern
  cases hfind : μ.subsets.findIdx? (sameSubset subset) with
  | some i =>
    obtain ⟨hi, hsame, -⟩ := Array.findIdx?_eq_some_iff_getElem.1 hfind
    have hget : μ.subset i = μ.subsets[i] := by simp [SubsetMemory.subset, hi]
    refine .inl ⟨hi, rfl, ?_⟩
    rw [hget]
    exact (perm_of_sameSubset hnodup hsame).symm
  | none =>
    refine .inr ⟨rfl, rfl, fun i hi hperm => ?_⟩
    have hget : μ.subset i = μ.subsets[i] := by simp [SubsetMemory.subset, hi]
    rw [hget] at hperm
    have hnone := Array.findIdx?_eq_none_iff.1 hfind μ.subsets[i] (Array.getElem_mem hi)
    rw [sameSubset_of_perm hperm.symm] at hnone
    cases hnone

end SubsetMemory

/-- Each element of a list is asked in turn, and what it answers goes in front of the rest. -/
theorem run_filterMapM_cons {σ α β : Type} (f : α → StateT σ Option (Option β)) (a : α) (l : List α)
    (μ : σ) : ((a :: l).filterMapM f).run μ = do
      let first ← (f a).run μ
      let rest ← (l.filterMapM f).run first.2
      return (first.1.toList ++ rest.1, rest.2) := by
  rw [List.filterMapM_cons, StateT.run_bind]
  refine bind_congr fun first => ?_
  obtain ⟨_ | b, ν⟩ := first
  · exact (bind_pure _).symm
  · rfl

variable [Semiring W]

/-- Inverses undo factors on both sides. -/
def LawfulInverse (W : Type) [Semiring W] [PartialInverse W] : Prop :=
  ∀ a b : W, PartialInverse.inverse a = .ok b → a * b = 1 ∧ b * a = 1

/-- Where every weight but zero has a right inverse, right inverses are inverses. -/
theorem lawfulInverse_of_semifield [PartialInverse W] (hfield : ∀ a : W, a ≠ 0 → ∃ b, a * b = 1)
    (hinverse : ∀ a b : W, PartialInverse.inverse a = .ok b → a * b = 1) : LawfulInverse W := by
  intro a b h
  have hab := hinverse a b h
  refine ⟨hab, ?_⟩
  by_cases hb : b = 0
  · have hone : (1 : W) = 0 := by rw [← hab, hb, mul_zero]
    rw [← mul_one (b * a), hone, mul_zero]
  · obtain ⟨c, hbc⟩ := hfield b hb
    have hac : a = c := by
      calc a = a * (b * c) := by rw [hbc, mul_one]
        _ = c := by rw [← mul_assoc, hab, one_mul]
    rw [hac, hbc]

theorem total_eq (ws : WeightedStates S W) :
    Weight.sum (ws.map Prod.snd) = weigh ws fun _ => 1 := by
  rw [weigh, Weight.sum, ← List.sum_eq_foldl]
  simp

namespace Automaton

section Definitions

variable (A : Automaton Id L S T W)

/-- Different reachable states with non-zero weights that add up to one. -/
structure Normal (ws : WeightedStates S W) : Prop where
  nodup : (ws.map Prod.fst).Nodup
  nonzero : ∀ e ∈ ws, e.2 ≠ 0
  total : weigh ws (fun _ => 1) = 1
  reachable : ∀ e ∈ ws, A.Reachable e.1

variable [BEq S] [BEq W] [Hashable S] [PartialInverse W]

/-- What seeds have settled to: nothing where there are none or where the total weight of their
closure is zero or has no inverse, else the index of the closure with the total divided out, and the
total. -/
inductive SettledTo (μ : SubsetMemory L S W) (seeds : WeightedStates S W) : Option (ℕ × W) → Prop
  | empty : seeds = [] → SettledTo μ seeds none
  | vanished {closed : WeightedStates S W} : A.ClosesTo seeds closed →
      weigh closed (fun _ => 1) = 0 → SettledTo μ seeds none
  | stuck {closed : WeightedStates S W} {e : InverseError} : A.ClosesTo seeds closed →
      weigh closed (fun _ => 1) ≠ 0 →
      PartialInverse.inverse (weigh closed fun _ => 1) = .error e → SettledTo μ seeds none
  | placed {closed : WeightedStates S W} {b : W} {i : ℕ} : A.ClosesTo seeds closed →
      weigh closed (fun _ => 1) ≠ 0 → PartialInverse.inverse (weigh closed fun _ => 1) = .ok b →
      i < μ.subsets.size → (μ.subset i).Perm (closed.map fun e => (e.1, b * e.2)) →
      SettledTo μ seeds (some (i, weigh closed fun _ => 1))

variable [BEq L]

/-- The transitions of a state are what its seeds have settled to, label by label. -/
def SettledAt (μ : SubsetMemory L S W) (i : ℕ) (ts : List (SubsetTransition L W)) : Prop :=
  ∀ a, ∃ r, A.SettledTo μ (A.carried (μ.subset i) a) r ∧
    (ts.filter fun t => t.label == a) = (r.map fun p => ⟨i, p.1, a, p.2⟩).toList

/-- The memories that come up in a determinization, at any time. -/
structure Consistent (μ : SubsetMemory L S W) : Prop where
  normal : ∀ i < μ.subsets.size, A.Normal (μ.subset i)
  distinct : ∀ i < μ.subsets.size, ∀ j < μ.subsets.size, (μ.subset i).Perm (μ.subset j) → i = j
  explored : ∀ (i : ℕ) ts, μ.explored[i]? = some ts → i < μ.subsets.size ∧ A.SettledAt μ i ts
  start : ∀ r, μ.start = some r → A.SettledTo μ A.startSeeds r

/-- A memory from which another one has come about without new answers about states. -/
structure GrowsTo (μ ν : SubsetMemory L S W) : Prop where
  consistent : A.Consistent ν
  extends_to : μ.Extends ν
  explored : ν.explored = μ.explored
  start : ν.start = μ.start

end Definitions

variable [BEq S] [BEq W] [Hashable S] [PartialInverse W] {A : Automaton Id L S T W}
variable {μ ν ξ : SubsetMemory L S W} {seeds : WeightedStates S W} {r : Option (ℕ × W)}

theorem SettledTo.mono (h : A.SettledTo μ seeds r) (hext : μ.Extends ν) :
    A.SettledTo ν seeds r := by
  cases h with
  | empty hnil => exact .empty hnil
  | vanished hclosed hz => exact .vanished hclosed hz
  | stuck hclosed hne hinv => exact .stuck hclosed hne hinv
  | placed hclosed hne hinv hi hperm =>
    refine .placed hclosed hne hinv (lt_of_lt_of_le hi hext.size_le) ?_
    rwa [hext.subset_eq _ hi]

/-- Without seeds nothing is settled. -/
theorem SettledTo.eq_none_of_nil [LawfulBEq S] [LawfulBEq W] (h : A.SettledTo μ seeds r)
    (hnil : seeds = []) : r = none := by
  cases h with
  | empty _ => rfl
  | vanished _ _ => rfl
  | stuck _ _ _ => rfl
  | @placed closed b i hclosed hne _ _ _ =>
    subst hnil
    have hnone (s : S) : ¬(A.epsilonPart (WeightedStates.collect [])).Reachable s := by
      intro hs
      induction hs with
      | start hs => cases hs
      | step _ _ ih => exact ih
    have hempty : closed = [] :=
      List.eq_nil_iff_forall_not_mem.2 fun e he => hnone e.1 (hclosed.spec.2.1 e he).1
    rw [hempty] at hne
    exact absurd (weigh_nil _) hne

/-- Seeds with a total weight are settled somewhere, if every weight but zero has its inverse. -/
theorem SettledTo.exists_place [LawfulBEq S] [LawfulBEq W] [BEq L] (h : A.SettledTo μ seeds r)
    (hA : A.Lawful) (hepsilon : A.EpsilonAcyclic) (hseeds : ∀ e ∈ seeds, A.Reachable e.1)
    (hzero : ZeroSumFree W) (hinvert : ∀ a : W, a ≠ 0 → ∃ b, PartialInverse.inverse a = .ok b)
    (hne : weigh seeds (fun _ => 1) ≠ 0) : ∃ p, r = some p := by
  cases h with
  | empty hnil =>
    rw [hnil] at hne
    exact absurd (weigh_nil _) hne
  | vanished hclosed hz =>
    exact absurd hz (hclosed.total_ne_zero hA hepsilon hseeds hzero hne)
  | stuck _ hne' herror =>
    obtain ⟨b, hb⟩ := hinvert _ hne'
    rw [hb] at herror
    cases herror
  | placed _ _ _ _ _ => exact ⟨_, rfl⟩

theorem SettledTo.target_lt_size {i : ℕ} {w : W} (h : A.SettledTo μ seeds (some (i, w))) :
    i < μ.subsets.size := by
  cases h with
  | placed _ _ _ hi _ => exact hi

variable [BEq L]

theorem SettledAt.mono {i : ℕ} {ts : List (SubsetTransition L W)} (h : A.SettledAt μ i ts)
    (hi : i < μ.subsets.size) (hext : μ.Extends ν) : A.SettledAt ν i ts := by
  intro a
  obtain ⟨r, hr, hts⟩ := h a
  refine ⟨r, ?_, hts⟩
  rw [hext.subset_eq i hi]
  exact hr.mono hext

namespace SettledAt

variable [LawfulBEq L] {i : ℕ} {ts : List (SubsetTransition L W)} (h : A.SettledAt μ i ts)
include h

/-- A transition is what its subset has settled to under its label. -/
theorem settled_of_mem {t : SubsetTransition L W} (ht : t ∈ ts) : t.source = i ∧
    A.SettledTo μ (A.carried (μ.subset i) t.label) (some (t.target, t.weight)) := by
  obtain ⟨r, hr, hts⟩ := h t.label
  have hmem : t ∈ (r.map fun p => (⟨i, p.1, t.label, p.2⟩ : SubsetTransition L W)).toList := by
    rw [← hts]
    simpa using ht
  obtain ⟨p, rfl, heq⟩ := Option.map_eq_some_iff.1 (Option.mem_toList.1 hmem)
  rw [← heq] at hr ⊢
  exact ⟨rfl, hr⟩

/-- No label is on two transitions. -/
theorem nodup_labels : (ts.map SubsetTransition.label).Nodup := by
  refine List.nodup_iff_count_le_one.2 fun a => ?_
  obtain ⟨r, -, hts⟩ := h a
  rw [List.count, List.countP_map, List.countP_eq_length_filter]
  change (ts.filter fun t => t.label == a).length ≤ 1
  rw [hts]
  cases r <;> simp

end SettledAt

theorem consistent_empty : A.Consistent (.empty : SubsetMemory L S W) where
  normal i hi := absurd hi (Nat.not_lt_zero i)
  distinct i hi := absurd hi (Nat.not_lt_zero i)
  explored i ts h := by simp [SubsetMemory.empty] at h
  start r h := by simp [SubsetMemory.empty] at h

theorem GrowsTo.refl (h : A.Consistent μ) : A.GrowsTo μ μ := ⟨h, .refl μ, rfl, rfl⟩

theorem GrowsTo.trans (h : A.GrowsTo μ ν) (h' : A.GrowsTo ν ξ) : A.GrowsTo μ ξ where
  consistent := h'.consistent
  extends_to := h.extends_to.trans h'.extends_to
  explored := h'.explored.trans h.explored
  start := h'.start.trans h.start

namespace Consistent

/-- A memory that only gains subsets, and stores each once, stays consistent. -/
theorem grow (h : A.Consistent μ) (hext : μ.Extends ν) (hexplored : ν.explored = μ.explored)
    (hstart : ν.start = μ.start) (hnormal : ∀ i < ν.subsets.size, A.Normal (ν.subset i))
    (hdistinct : ∀ i < ν.subsets.size, ∀ j < ν.subsets.size,
      (ν.subset i).Perm (ν.subset j) → i = j) : A.GrowsTo μ ν where
  consistent :=
    { normal := hnormal
      distinct := hdistinct
      explored := fun i ts hi => by
        rw [hexplored] at hi
        obtain ⟨hlt, hts⟩ := h.explored i ts hi
        exact ⟨lt_of_lt_of_le hlt hext.size_le, hts.mono hlt hext⟩
      start := fun r hr => by
        rw [hstart] at hr
        exact (h.start r hr).mono hext }
  extends_to := hext
  explored := hexplored
  start := hstart

theorem growsTo_recordFailure (h : A.Consistent μ) (e : InverseError) :
    A.GrowsTo μ (μ.recordFailure e) :=
  h.grow (μ.extends_recordFailure e) rfl rfl h.normal h.distinct

theorem set_start (h : A.Consistent μ) (hnew : μ.start = none) (hr : A.SettledTo μ A.startSeeds r) :
    A.Consistent { μ with start := some r } where
  normal := h.normal
  distinct := h.distinct
  explored i ts hi := by
    obtain ⟨hlt, hts⟩ := h.explored i ts hi
    exact ⟨hlt, hts.mono hlt (μ.extends_set_start hnew r)⟩
  start q hq := Option.some.inj hq ▸ hr.mono (μ.extends_set_start hnew r)

theorem insert_explored (h : A.Consistent μ) {i : ℕ} (hi : i < μ.subsets.size)
    (hnew : μ.explored[i]? = none) {ts : List (SubsetTransition L W)} (hts : A.SettledAt μ i ts) :
    A.Consistent { μ with explored := μ.explored.insert i ts } where
  normal := h.normal
  distinct := h.distinct
  explored j us hj := by
    have hext := μ.extends_insert_explored hnew ts
    rw [Std.HashMap.getElem?_insert] at hj
    split at hj
    · next heq =>
      rw [← eq_of_beq heq, ← Option.some.inj hj]
      exact ⟨hi, hts.mono hi hext⟩
    · obtain ⟨hlt, hus⟩ := h.explored j us hj
      exact ⟨hlt, hus.mono hlt hext⟩
  start r hr := (h.start r hr).mono (μ.extends_insert_explored hnew ts)

variable [LawfulBEq S] [LawfulBEq W]

theorem growsTo_intern (h : A.Consistent μ) {subset : WeightedStates S W} (hn : A.Normal subset) :
    A.GrowsTo μ (μ.intern subset).2 ∧ (μ.intern subset).1 < (μ.intern subset).2.subsets.size ∧
      ((μ.intern subset).2.subset (μ.intern subset).1).Perm subset := by
  have hnodup : subset.Nodup := List.Nodup.of_map _ hn.nodup
  obtain ⟨hext, hlt, -⟩ := μ.extends_intern subset
  rcases μ.intern_cases hnodup with ⟨-, heq, hperm⟩ | ⟨hnew, heq, hother⟩
  · refine ⟨h.grow hext (by rw [heq]) (by rw [heq]) ?_ ?_, hlt, ?_⟩
    · rw [heq]
      exact h.normal
    · rw [heq]
      exact h.distinct
    · rwa [heq]
  · have hold {i : ℕ} (hi : i ≠ μ.subsets.size) :
        (μ.intern subset).2.subset i = μ.subset i := by rw [heq, μ.subset_push, if_neg hi]
    have hown : (μ.intern subset).2.subset μ.subsets.size = subset := by
      rw [heq, μ.subset_push, if_pos rfl]
    have hsize : (μ.intern subset).2.subsets.size = μ.subsets.size + 1 := by
      rw [heq, Array.size_push]
    refine ⟨h.grow hext (by rw [heq]) (by rw [heq]) ?_ ?_, hlt, by rw [hnew, hown]⟩
    · intro i hi
      by_cases hlast : i = μ.subsets.size
      · rwa [hlast, hown]
      · rw [hold hlast]
        exact h.normal i (by omega)
    · intro i hi j hj hperm
      by_cases hilast : i = μ.subsets.size
      · by_cases hjlast : j = μ.subsets.size
        · rw [hilast, hjlast]
        · rw [hilast, hown, hold hjlast] at hperm
          exact absurd hperm.symm (hother j (by omega))
      · by_cases hjlast : j = μ.subsets.size
        · rw [hjlast, hown, hold hilast] at hperm
          exact absurd hperm (hother i (by omega))
        · rw [hold hilast, hold hjlast] at hperm
          exact h.distinct i (by omega) j (by omega) hperm

end Consistent

section Settle

variable {budget : ℕ} {closed : WeightedStates S W}

omit [BEq L] in
theorem settle_of_none
    (h : (A.lift : Automaton Option L S T W).epsilonClosure budget seeds = none) :
    ((A.lift : Automaton Option L S T W).settle budget seeds).run μ = none := by
  simp [settle, h]

variable (h : (A.lift : Automaton Option L S T W).epsilonClosure budget seeds = some closed)
include h

omit [BEq L] in
theorem settle_of_zero [LawfulBEq W] (hz : weigh closed (fun _ => 1) = 0) :
    ((A.lift : Automaton Option L S T W).settle budget seeds).run μ = some (none, μ) := by
  simp [settle, h, total_eq, hz]

variable [LawfulBEq W] (hz : weigh closed (fun _ => 1) ≠ 0)
include hz

omit [BEq L] in
theorem settle_of_error {e : InverseError}
    (hinv : PartialInverse.inverse (weigh closed fun _ => 1) = .error e) :
    ((A.lift : Automaton Option L S T W).settle budget seeds).run μ =
      some (none, μ.recordFailure e) := by
  simp [settle, h, total_eq, hz, hinv]

omit [BEq L] in
theorem settle_of_ok {b : W} (hinv : PartialInverse.inverse (weigh closed fun _ => 1) = .ok b) :
    ((A.lift : Automaton Option L S T W).settle budget seeds).run μ =
      some (some ((μ.intern (closed.map fun e => (e.1, b * e.2))).1, weigh closed fun _ => 1),
        (μ.intern (closed.map fun e => (e.1, b * e.2))).2) := by
  simp [settle, h, total_eq, hz, hinv]

end Settle

section Questions

variable {budget : ℕ}

omit [BEq L] in
/-- The start is settled when it is first asked for. -/
theorem startSubset_run
    (h : ((A.lift : Automaton Option L S T W).startSubset budget).run μ = some (r, ν)) :
    (μ.start = some r ∧ ν = μ) ∨ (μ.start = none ∧ ∃ ξ,
      ((A.lift : Automaton Option L S T W).settle budget A.startSeeds).run μ = some (r, ξ) ∧
        ν = { ξ with start := some r }) := by
  cases hstart : μ.start with
  | some q =>
    have hknown : ((A.lift : Automaton Option L S T W).startSubset budget).run μ = some (q, μ) := by
      simp [startSubset, hstart]
    rw [hknown] at h
    cases h
    exact .inl ⟨rfl, rfl⟩
  | none =>
    simp only [startSubset, StateT.run_bind, StateT.run_get, StateT.run_lift, StateT.run_modify,
      StateT.run_pure, pure_bind, hstart, lift_startSeeds] at h
    obtain ⟨⟨q, ξ⟩, hsettle, h⟩ := Option.bind_eq_some_iff.1 h
    cases h
    exact .inr ⟨rfl, ξ, hsettle, rfl⟩

/-- The groups of a subset are settled when its transitions are first asked for. -/
theorem outgoing_run {i : ℕ} {ts : List (SubsetTransition L W)}
    (h : (((A.lift : Automaton Option L S T W).determinize budget).outgoing i).run μ =
      some (ts, ν)) : (μ.explored[i]? = some ts ∧ ν = μ) ∨ (μ.explored[i]? = none ∧ ∃ ξ,
        ((A.grouped (μ.subset i)).filterMapM fun (label, seeds) => do
          return (← (A.lift : Automaton Option L S T W).settle budget seeds).map
            fun (target, weight) => (⟨i, target, label, weight⟩ : SubsetTransition L W)).run μ =
              some (ts, ξ) ∧ ν = { ξ with explored := ξ.explored.insert i ts }) := by
  cases hexplored : μ.explored[i]? with
  | some us =>
    have hknown : (((A.lift : Automaton Option L S T W).determinize budget).outgoing i).run μ =
        some (us, μ) := by simp [determinize, hexplored]
    rw [hknown] at h
    cases h
    exact .inl ⟨rfl, rfl⟩
  | none =>
    simp only [determinize, expand, StateT.run_bind, StateT.run_get, StateT.run_lift,
      StateT.run_modify, StateT.run_pure, pure_bind, hexplored, lift_successors] at h
    obtain ⟨⟨us, ξ⟩, hsettle, h⟩ := Option.bind_eq_some_iff.1 h
    cases h
    exact .inr ⟨rfl, ξ, hsettle, rfl⟩

end Questions

section Runs

variable [LawfulBEq S] [LawfulBEq W] (hinverse : LawfulInverse W) {budget : ℕ}
include hinverse

omit [BEq L] in
/-- Dividing a closure by its total weight makes it normal. -/
theorem ClosesTo.normal {closed : WeightedStates S W} (h : A.ClosesTo seeds closed)
    (hseeds : ∀ e ∈ seeds, A.Reachable e.1) {b : W}
    (hb : PartialInverse.inverse (weigh closed fun _ => 1) = .ok b) :
    A.Normal (closed.map fun e => (e.1, b * e.2)) := by
  obtain ⟨hright, hleft⟩ := hinverse _ b hb
  obtain ⟨hnodup, hkept, -⟩ := h.spec
  refine ⟨?_, fun e he => ?_, ?_, fun e he => ?_⟩
  · rwa [List.map_map]
  · obtain ⟨p, hp, rfl⟩ := List.mem_map.1 he
    intro hz
    change b * p.2 = 0 at hz
    apply (hkept p hp).2
    rw [← one_mul p.2, ← hright, mul_assoc, hz, mul_zero]
  · rw [weigh_map_mul, hleft]
  · obtain ⟨p, hp, rfl⟩ := List.mem_map.1 he
    exact h.reachable hseeds p hp

theorem Consistent.settle_run (h : A.Consistent μ) (hseeds : ∀ e ∈ seeds, A.Reachable e.1)
    (hrun : ((A.lift : Automaton Option L S T W).settle budget seeds).run μ = some (r, ν)) :
    A.GrowsTo μ ν ∧ A.SettledTo ν seeds r := by
  cases hclosed : (A.lift : Automaton Option L S T W).epsilonClosure budget seeds with
  | none =>
    rw [settle_of_none hclosed] at hrun
    cases hrun
  | some closed =>
    have hcloses : A.ClosesTo seeds closed := ⟨budget, hclosed⟩
    by_cases hz : weigh closed (fun _ => 1) = 0
    · rw [settle_of_zero hclosed hz] at hrun
      cases hrun
      exact ⟨.refl h, .vanished hcloses hz⟩
    · cases hinv : PartialInverse.inverse (weigh closed fun _ => 1) with
      | error e =>
        rw [settle_of_error hclosed hz hinv] at hrun
        cases hrun
        exact ⟨h.growsTo_recordFailure e, .stuck hcloses hz hinv⟩
      | ok b =>
        rw [settle_of_ok hclosed hz hinv] at hrun
        cases hrun
        obtain ⟨hgrows, hlt, hperm⟩ := h.growsTo_intern (hcloses.normal hinverse hseeds hinv)
        exact ⟨hgrows, .placed hcloses hz hinv hlt hperm⟩

theorem Consistent.settle_groups [LawfulBEq L] (h : A.Consistent μ) (i : ℕ)
    {groups : List (L × WeightedStates S W)} (hnodup : (groups.map Prod.fst).Nodup)
    (hreach : ∀ a, ∀ e ∈ seedsOf groups a, A.Reachable e.1) {ts : List (SubsetTransition L W)}
    (hrun : (groups.filterMapM fun (label, seeds) => do
      return (← (A.lift : Automaton Option L S T W).settle budget seeds).map
        fun (target, weight) => (⟨i, target, label, weight⟩ : SubsetTransition L W)).run μ =
          some (ts, ν)) :
    A.GrowsTo μ ν ∧ ∀ a, ∃ r, A.SettledTo ν (seedsOf groups a) r ∧
      (ts.filter fun t => t.label == a) =
        (r.map fun p => (⟨i, p.1, a, p.2⟩ : SubsetTransition L W)).toList := by
  induction groups generalizing μ ts with
  | nil =>
    cases hrun
    exact ⟨.refl h, fun a => ⟨none, .empty rfl, rfl⟩⟩
  | cons p groups ih =>
    obtain ⟨l, seeds⟩ := p
    rw [List.map_cons, List.nodup_cons] at hnodup
    obtain ⟨hl, hnodup⟩ := hnodup
    have hgroup (a : L) (hne : l ≠ a) : seedsOf ((l, seeds) :: groups) a = seedsOf groups a := by
      rw [seedsOf_cons, if_neg (by simpa using hne)]
    have hown : seedsOf ((l, seeds) :: groups) l = seeds := by
      rw [seedsOf_cons, if_pos (by simp)]
    have hseeds : ∀ e ∈ seeds, A.Reachable e.1 := hown ▸ hreach l
    have hrest : ∀ a, ∀ e ∈ seedsOf groups a, A.Reachable e.1 := fun a e he => by
      by_cases ha : l = a
      · rw [← ha, seedsOf_of_notMem hl] at he
        cases he
      · rw [← hgroup a ha] at he
        exact hreach a e he
    rw [run_filterMapM_cons] at hrun
    obtain ⟨⟨o, ξ⟩, hfirst, hrun⟩ := Option.bind_eq_some_iff.1 hrun
    obtain ⟨⟨us, ν'⟩, hus, hrun⟩ := Option.bind_eq_some_iff.1 hrun
    cases hrun
    rw [StateT.run_bind] at hfirst
    obtain ⟨⟨r, ξ'⟩, hsettle, hfirst⟩ := Option.bind_eq_some_iff.1 hfirst
    cases hfirst
    obtain ⟨hgrows, hr⟩ := h.settle_run hinverse hseeds hsettle
    obtain ⟨hgrows', hts⟩ := ih hgrows.consistent hnodup hrest hus
    refine ⟨hgrows.trans hgrows', fun a => ?_⟩
    obtain ⟨r', hr', hts'⟩ := hts a
    rw [List.filter_append, hts']
    by_cases ha : l = a
    · subst ha
      refine ⟨r, hown.symm ▸ hr.mono hgrows'.extends_to, ?_⟩
      have hnone : r' = none := hr'.eq_none_of_nil (seedsOf_of_notMem hl)
      cases r <;> simp [hnone]
    · refine ⟨r', hgroup a ha ▸ hr', ?_⟩
      cases r <;> simp [ha]

end Runs

end Automaton

end WeightedAutomata
