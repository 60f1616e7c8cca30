import Mathlib.Data.List.Infix
import WeightedAutomata.Proofs.Paths.Complete

/-!
The states along a path. A path is cycle-free if it visits no state twice; there are finitely many
of these through finitely many states.
-/
namespace WeightedAutomata.Automaton

variable {m : Type → Type} {L S T W : Type}

/-- The states along a path, its first and its last one included. -/
def visits (A : Automaton m L S T W) (s : S) (ts : List T) : List S := ts.inits.map (A.endpoint s)

/-- A path that visits no state twice. -/
def CycleFree (A : Automaton m L S T W) (s : S) (ts : List T) : Prop := (A.visits s ts).Nodup

section Visits

variable {A : Automaton m L S T W} {s q : S} {t : T} {ts us : List T}

theorem visits_append_singleton (ts : List T) (t : T) :
    A.visits s (ts ++ [t]) = A.visits s ts ++ [A.target t] := by
  simp [visits, List.inits_append]

theorem mem_visits : q ∈ A.visits s ts ↔ ∃ us, us <+: ts ∧ A.endpoint s us = q := by
  simp [visits, List.mem_inits]

theorem length_visits (ts : List T) : (A.visits s ts).length = ts.length + 1 := by
  rw [visits, List.length_map, List.length_inits]

theorem cycleFree_nil (s : S) : A.CycleFree s [] := by simp [CycleFree, visits]

theorem CycleFree.append_singleton (h : A.CycleFree s ts) (ht : A.target t ∉ A.visits s ts) :
    A.CycleFree s (ts ++ [t]) := by
  rw [CycleFree, visits_append_singleton]
  exact List.nodup_append.2 ⟨h, List.nodup_singleton _, fun q hq _ hmem heq =>
    ht (List.mem_singleton.1 hmem ▸ heq ▸ hq)⟩

theorem CycleFree.of_prefix (h : A.CycleFree s ts) (hus : us <+: ts) : A.CycleFree s us := by
  obtain ⟨vs, rfl⟩ := hus
  rw [CycleFree, visits, List.inits_append, List.map_append] at h
  exact h.of_append_left

end Visits

variable {A : Automaton Id L S T W}

theorem mem_of_mem_visits {R : S → Prop} (hc : A.Closed R) {s q : S} (hs : R s) {ts : List T}
    (hts : A.IsPath s ts) (hq : q ∈ A.visits s ts) : R q := by
  obtain ⟨us, ⟨vs, rfl⟩, rfl⟩ := mem_visits.1 hq
  exact hc.endpoint hs (isPath_append.1 hts).1

theorem CycleFree.length_lt {F : Finset S} (hc : A.Closed (· ∈ F)) {s : S} (hs : s ∈ F)
    {ts : List T} (hts : A.IsPath s ts) (h : A.CycleFree s ts) : ts.length < F.card := by
  classical
  have hcard := Finset.card_le_card (show (A.visits s ts).toFinset ⊆ F from fun q hq =>
    mem_of_mem_visits hc hs hts (List.mem_toFinset.1 hq))
  rwa [List.toFinset_card_of_nodup h, length_visits] at hcard

/-- The states to which a path leads. -/
def reach (A : Automaton Id L S T W) (s : S) : Set S :=
  {q | ∃ ts, A.IsPath s ts ∧ A.endpoint s ts = q}

theorem closed_reach (A : Automaton Id L S T W) (s : S) : A.Closed (· ∈ A.reach s) := by
  rintro _ ⟨ts, hts, rfl⟩ t ht
  exact ⟨ts ++ [t], isPath_append.2 ⟨hts, ht, trivial⟩, endpoint_append A s ts [t]⟩

/-- The cycle-free paths from `s` to `q`. -/
def cycleFreePaths (A : Automaton Id L S T W) (s q : S) : Set (List T) :=
  {ts | A.IsPath s ts ∧ A.endpoint s ts = q ∧ A.CycleFree s ts}

theorem finite_cycleFreePaths {F : Finset S} (hc : A.Closed (· ∈ F)) {s : S} (hs : s ∈ F) (q : S) :
    (A.cycleFreePaths s q).Finite := by
  refine (List.finite_toSet (A.paths F.card s)).subset ?_
  rintro ts ⟨hts, -, hfree⟩
  exact mem_paths.2 ⟨hts, hfree.length_lt hc hs hts⟩

section Numbered

theorem closed_numbered {R : S → Prop} (hc : A.Closed R) : A.numbered.Closed R :=
  fun s hs t ht => hc s hs t.1 (List.fst_mem_of_mem_zipIdx ht)

theorem visits_numbered (s : S) (ts : List (T × ℕ)) :
    A.numbered.visits s ts = A.visits s (ts.map Prod.fst) := by
  rw [visits, visits, List.map_inits, List.map_map]
  exact List.map_congr_left fun us _ => endpoint_numbered s us

/-- Every path can be numbered. -/
theorem exists_isPath_numbered {s : S} {ts : List T} (h : A.IsPath s ts) :
    ∃ us, A.numbered.IsPath s us ∧ us.map Prod.fst = ts := by
  have hmem : ts ∈ A.paths (ts.length + 1) s := mem_paths.2 ⟨h, Nat.lt_succ_self _⟩
  rw [← map_fst_paths_numbered] at hmem
  obtain ⟨us, hus, rfl⟩ := List.mem_map.1 hmem
  exact ⟨us, (mem_paths.1 hus).1, rfl⟩

end Numbered

end WeightedAutomata.Automaton
