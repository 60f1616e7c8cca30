import Mathlib.Data.Set.Card
import WeightedAutomata.Proofs.Determinization.Lasting
import WeightedAutomata.Proofs.Determinization.Strings

/-!
The strings that are read on the way to a subset. Every stored subset has one of its own, so there
are no more subsets than strings that the operand reads.
-/
namespace WeightedAutomata.Automaton

variable {L S T W : Type}

section Traces

variable (A : Automaton Id L S T W)

/-- Some path from an initial state to `q` reads the string. -/
def ReadsTo (u : List L) (q : S) : Prop :=
  ∃ s ∈ A.starts, ∃ ts, A.IsPath s ts ∧ A.labels ts = u ∧ A.endpoint s ts = q

/-- The strings that are read along paths from the initial states. -/
def traces : Set (List L) :=
  {u | ∃ s ∈ A.starts, ∃ ts, A.IsPath s ts ∧ A.labels ts = u}

variable {A}

theorem ReadsTo.append {u : List L} {q : S} (h : A.ReadsTo u q) {ts : List T}
    (hts : A.IsPath q ts) : A.ReadsTo (u ++ A.labels ts) (A.endpoint q ts) := by
  obtain ⟨s, hs, us, hus, rfl, rfl⟩ := h
  exact ⟨s, hs, us ++ ts, isPath_append.2 ⟨hus, hts⟩, labels_append _ _ _, endpoint_append _ _ _ _⟩

theorem ReadsTo.mem_traces {u : List L} {q : S} (h : A.ReadsTo u q) : u ∈ A.traces := by
  obtain ⟨s, hs, ts, hts, hlabels, -⟩ := h
  exact ⟨s, hs, ts, hts, hlabels⟩

theorem finite_traces (hfinite : {s | A.Reachable s}.Finite) (hacyclic : A.Acyclic) :
    A.traces.Finite := by
  obtain ⟨size, hb⟩ := exists_bounded A.closed_reachable hfinite hacyclic
  refine (List.finite_toSet (A.readable size)).subset ?_
  rintro u ⟨s, hs, ts, hts, rfl⟩
  refine List.mem_flatMap.2 ⟨s, hs, List.mem_map.2 ⟨ts, mem_paths.2 ⟨hts, ?_⟩, rfl⟩⟩
  exact hb.length_lt (.start hs) hts

end Traces

variable [Semiring W] [BEq L] [BEq S] [BEq W] [PartialInverse W] {A : Automaton Id L S T W}
variable {μ ν : SubsetMemory L S W}

section Reading

variable {u : List L}

omit [PartialInverse W] [BEq S] in
theorem readsTo_carried [LawfulBEq L] {subset : WeightedStates S W}
    (h : ∀ e ∈ subset, A.ReadsTo u e.1) (a : L) :
    ∀ e ∈ A.carried subset a, A.ReadsTo (u ++ [a]) e.1 := by
  intro e he
  obtain ⟨p, hp, he⟩ := List.mem_flatMap.1 he
  obtain ⟨t, ht, he⟩ := List.mem_filterMap.1 he
  split at he
  · next hlabel =>
    cases he
    have hlabels : A.labels [t] = [a] := by
      rw [labels_cons, eq_of_beq (Bool.and_eq_true_iff.1 hlabel).1]
      rfl
    rw [← hlabels]
    exact (h p hp).append ⟨ht, trivial⟩
  · cases he

variable [LawfulBEq S] [Hashable S] [LawfulBEq W]

omit [BEq L] in
/-- Closing reads nothing: a string that leads to every seed leads to what they have settled to. -/
theorem SettledTo.readsTo {seeds : WeightedStates S W} {i : ℕ} {w : W}
    (h : A.SettledTo μ seeds (some (i, w))) (hseeds : ∀ e ∈ seeds, A.ReadsTo u e.1) :
    μ.subset i ≠ [] ∧ ∀ e ∈ μ.subset i, A.ReadsTo u e.1 := by
  cases h with
  | @placed closed b i hclosed hne _ _ hperm =>
    refine ⟨fun hnil => hne ?_, fun e he => ?_⟩
    · rw [hnil, List.nil_perm, List.map_eq_nil_iff] at hperm
      rw [hperm, weigh_nil]
    · obtain ⟨p, hp, rfl⟩ := List.mem_map.1 (hperm.mem_iff.1 he)
      obtain ⟨s, hs, ts, hts, hend⟩ := (hclosed.spec.2.1 p hp).1.exists_path
      obtain ⟨q, hq, rfl⟩ := List.mem_map.1 (mem_starts_epsilonPart_collect hs)
      obtain ⟨hpath, hlabels⟩ := isPath_of_epsilonPart hts
      have hreads := (hseeds q hq).append hpath
      rw [hlabels, List.append_nil] at hreads
      exact hend ▸ hreads

end Reading

namespace Consistent

variable [Hashable S] (h : A.Consistent μ)
include h

theorem deterministic_table : (A.table μ).Deterministic := by
  refine deterministic_table_of_explored fun i ts hi a => ?_
  obtain ⟨r, -, hts⟩ := (h.explored i ts hi).2 a
  rw [hts]
  cases r <;> simp

variable [LawfulBEq L]

theorem settledTo_of_mem_leaving {i : ℕ} {t : SubsetTransition L W}
    (ht : t ∈ (A.table μ).leaving i) : i < μ.subsets.size ∧
      A.SettledTo μ (A.carried (μ.subset i) t.label) (some (t.target, t.weight)) := by
  rw [leaving_table, Std.HashMap.getD_eq_getD_getElem?] at ht
  cases hi : μ.explored[i]? with
  | none =>
    rw [hi] at ht
    cases ht
  | some ts =>
    rw [hi] at ht
    obtain ⟨hlt, hsettled⟩ := h.explored i ts hi
    exact ⟨hlt, (hsettled.settled_of_mem ht).2⟩

variable [LawfulBEq S] [LawfulBEq W]

/-- A string that the table reads to a subset, the operand reads to every state of the subset. -/
theorem readsTo_of_isPath {i : ℕ} (hi : i ∈ (A.table μ).starts) {ts : List (SubsetTransition L W)}
    (hts : (A.table μ).IsPath i ts) : μ.subset ((A.table μ).endpoint i ts) ≠ [] ∧
      ∀ e ∈ μ.subset ((A.table μ).endpoint i ts), A.ReadsTo ((A.table μ).labels ts) e.1 := by
  induction ts using List.reverseRecOn with
  | nil =>
    obtain ⟨w, hw⟩ := mem_starts_table.1 hi
    refine (h.start _ hw).readsTo fun e he => ?_
    obtain ⟨s, hs, rfl⟩ := List.mem_map.1 he
    exact ⟨s, hs, [], trivial, rfl, rfl⟩
  | append_singleton ts t ih =>
    obtain ⟨hpath, ht, -⟩ := isPath_append.1 hts
    obtain ⟨-, hsettled⟩ := h.settledTo_of_mem_leaving ht
    rw [endpoint_append, labels_append]
    exact hsettled.readsTo (readsTo_carried (ih hpath).2 t.label)

theorem labels_mem_traces {i : ℕ} (hi : i ∈ (A.table μ).starts) {ts : List (SubsetTransition L W)}
    (hts : (A.table μ).IsPath i ts) : (A.table μ).labels ts ∈ A.traces := by
  obtain ⟨hne, hreads⟩ := h.readsTo_of_isPath hi hts
  obtain ⟨e, he⟩ := List.exists_mem_of_ne_nil _ hne
  exact (hreads e he).mem_traces

/-- Where the operand reads finitely many strings, the transitions of the table go downwards. -/
theorem exists_bounded_table (hfinite : A.traces.Finite) :
    ∃ size, (A.table μ).Bounded (A.table μ).Reachable size := by
  have hone : (A.table μ).starts.length ≤ 1 := by
    rw [starts_table]
    cases μ.start.join <;> simp
  have hread : ∀ i ∈ (A.table μ).starts, ∀ ts, (A.table μ).IsPath i ts →
      (A.table μ).labels ts ∈ hfinite.toFinset.toList := fun i hi ts hts =>
    Finset.mem_toList.2 (hfinite.mem_toFinset.2 (h.labels_mem_traces hi hts))
  obtain ⟨size, hb, -⟩ := h.deterministic_table.exists_bounded hone hread
  exact ⟨size, hb⟩

/-- The subsets that are reached have different strings that lead to them. -/
theorem size_le_ncard_traces (hfinite : A.traces.Finite)
    (hgrounded : ∀ i < μ.subsets.size, (A.table μ).Reachable i) :
    μ.subsets.size ≤ A.traces.ncard := by
  have hpath (i : Fin μ.subsets.size) : ∃ ts, ∃ s ∈ (A.table μ).starts,
      (A.table μ).IsPath s ts ∧ (A.table μ).endpoint s ts = i := by
    obtain ⟨s, hs, ts, hts, hend⟩ := (hgrounded i i.2).exists_path
    exact ⟨ts, s, hs, hts, hend⟩
  choose path hpath using hpath
  have hinjective : Function.Injective fun i => (A.table μ).labels (path i) := by
    intro i j hlabels
    obtain ⟨s, hs, hi, hendi⟩ := hpath i
    obtain ⟨q, hq, hj, hendj⟩ := hpath j
    obtain ⟨v, hv⟩ := mem_starts_table.1 hs
    obtain ⟨w, hw⟩ := mem_starts_table.1 hq
    rw [hv] at hw
    cases hw
    rw [h.deterministic_table.eq_of_labels hi hj hlabels, hendj] at hendi
    exact Fin.ext hendi.symm
  have hle := Set.ncard_le_ncard_of_injOn (s := Set.univ) (fun i => (A.table μ).labels (path i))
    (fun i _ => by
      obtain ⟨s, hs, hts, -⟩ := hpath i
      exact h.labels_mem_traces hs hts) hinjective.injOn hfinite
  rwa [Set.ncard_univ, Nat.card_fin] at hle

end Consistent

end WeightedAutomata.Automaton
