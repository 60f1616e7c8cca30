import WeightedAutomata.Proofs.Determinization.Memory

/-!
The automaton that the memory of a determinization amounts to. It is deterministic, so a string
takes one step for each of its labels.
-/
namespace WeightedAutomata.Automaton

variable {L S T W : Type} [BEq L] [LawfulBEq L] [Semiring W] [BEq W]

/-- No epsilon transitions, and at most one transition for each label. -/
structure Deterministic (A : Automaton Id L S T W) : Prop where
  labeled : ∀ t, A.label t ≠ none
  unique : ∀ s a, ((A.leaving s).filter fun t => A.label t == some a).length ≤ 1

namespace Deterministic

variable {A : Automaton Id L S T W} (h : A.Deterministic) {x : List L}
include h

theorem length_leaving_reading (s : S) (j : ℕ) :
    ((A.reading x).leaving ⟨s, j, .free⟩).length ≤ 1 := by
  have hleft : (A.leaving s).filterMap
      (leftMove .acceptor A (⟨s, j, .free⟩ : PairState S ℕ)) =
        ([] : List (PairTransition S ℕ T ℕ L)) := by
    apply List.filterMap_eq_nil_iff.2
    intro t _
    obtain ⟨a, ha⟩ := Option.ne_none_iff_exists'.1 (h.labeled t)
    rw [leftMove, ha]
    rfl
  rw [leaving_reading, hleft, List.nil_append, leaving_singleString]
  split
  · next hj =>
    let B : Automaton Id L ℕ ℕ W := singleString x
    have hone (t : T) : ([j].filterMap (jointMove .acceptor A B ⟨s, j, .free⟩ t)).length =
        if A.label t == some x[j] then 1 else 0 := by
      obtain ⟨a, ha⟩ := Option.ne_none_iff_exists'.1 (h.labeled t)
      by_cases heq : a = x[j]
      · simp [B, jointMove, ha, hj, heq, Pairing.acceptor, Move.attach?]
      · simp [B, jointMove, ha, hj, heq, Pairing.acceptor, Move.attach?]
    have hunique := h.unique s x[j]
    rw [List.length_flatMap, List.map_congr_left fun t _ => hone t]
    rw [← sum_map_filter (fun t => A.label t == some x[j]) (A.leaving s) fun _ => (1 : ℕ)]
    simpa using hunique
  · simp

theorem bounded_reading [LawfulBEq W] : (A.reading x).Bounded (A.reading x).Reachable
    fun p => x.length + 1 - p.right where
  closed := (A.reading x).closed_reachable
  sum_lt p hp := by
    obtain ⟨s, j, f⟩ := p
    obtain ⟨-, hj, hfree⟩ := reachable_reading hp
    simp only at hj hfree
    subst hfree
    have hlength := h.length_leaving_reading (x := x) s j
    match hleaving : (A.reading x).leaving ⟨s, j, .free⟩ with
    | [] =>
      change 0 < x.length + 1 - j
      omega
    | [u] =>
      have hu : u ∈ (A.reading x).leaving ⟨s, j, .free⟩ := by simp [hleaving]
      have htarget : ((A.reading x).target u).right = j + 1 := by
        rcases (mem_leaving_product Pairing.acceptor_keyed).1 hu with
          ⟨t, _, _, hnone, _⟩ | ⟨t, ht, hnone, _⟩ | ⟨t₁, _, t₂, h₂, _, rfl⟩
        · exact absurd hnone (h.labeled t)
        · simp only [leaving_singleString, List.mem_ite_nil_right, List.mem_singleton] at ht
          simp [ht.2, ht.1] at hnone
        · simp only [leaving_singleString, List.mem_ite_nil_right, List.mem_singleton] at h₂
          exact congrArg (· + 1) h₂.2
      change x.length + 1 - ((A.reading x).target u).right < x.length + 1 - j
      rw [htarget]
      omega
    | u :: v :: us =>
      rw [hleaving] at hlength
      simp at hlength

end Deterministic

section Table

variable [BEq S] [PartialInverse W]

/-- The automaton of what is remembered. States that have not been explored have no transitions. -/
def table (A : Automaton Id L S T W) (μ : SubsetMemory L S W) :
    Automaton Id L ℕ (SubsetTransition L W) W where
  initialStates := pure (μ.start.join.map Prod.fst).toList
  outgoing i := pure (μ.explored.getD i [])
  initialWeight i := pure (μ.start.join.elim 0 fun p => if p.1 = i then p.2 else 0)
  finalWeight i := pure (weigh (μ.subset i) A.exit)
  weight t := pure t.weight
  source := SubsetTransition.source
  target := SubsetTransition.target
  label t := some t.label

variable {A : Automaton Id L S T W} {closure : S → ℕ} {μ : SubsetMemory L S W}

section Answers

omit [BEq L] [LawfulBEq L] [BEq W] [BEq S] [PartialInverse W]

theorem starts_table : (A.table μ).starts = (μ.start.join.map Prod.fst).toList := rfl

theorem leaving_table (i : ℕ) : (A.table μ).leaving i = μ.explored.getD i [] := rfl

theorem entry_table (i : ℕ) :
    (A.table μ).entry i = μ.start.join.elim 0 fun p => if p.1 = i then p.2 else 0 := rfl

theorem exit_table (i : ℕ) : (A.table μ).exit i = weigh (μ.subset i) A.exit := rfl

theorem mem_starts_table {i : ℕ} : i ∈ (A.table μ).starts ↔ ∃ w, μ.start = some (some (i, w)) := by
  rw [starts_table, Option.mem_toList, Option.map_eq_some_iff]
  simp [Option.join_eq_some_iff]

end Answers

omit [LawfulBEq L] [BEq W] [BEq S] [PartialInverse W] in
theorem deterministic_table_of_explored (h : ∀ (i : ℕ) ts, μ.explored[i]? = some ts →
    ∀ a, (ts.filter fun t => t.label == a).length ≤ 1) : (A.table μ).Deterministic where
  labeled _ := nofun
  unique i a := by
    have hlabel (t : SubsetTransition L W) :
        ((A.table μ).label t == some a) = (t.label == a) := rfl
    simp only [hlabel, leaving_table, Std.HashMap.getD_eq_getD_getElem?]
    cases hi : μ.explored[i]? with
    | none => exact Nat.zero_le _
    | some ts => exact h i ts hi a

omit [BEq L] [LawfulBEq L] [BEq W] [BEq S] in
theorem Settles.target_lt {value : (S → W) → W} {r : Option (ℕ × W)} (h : Settles μ value r)
    {p : ℕ × W} (hp : p ∈ r) : p.1 < μ.subsets.size ∧ p.2 ≠ 0 := by
  cases h with
  | vanished _ => cases hp
  | stuck _ _ _ => cases hp
  | placed hne _ hi _ =>
    cases hp
    exact ⟨hi, hne⟩

namespace Remembers

variable (h : A.Remembers closure μ)
include h

omit [LawfulBEq L] in
theorem expanded_leaving {i : ℕ} (hi : i ∈ μ.explored) :
    A.Expanded closure μ i ((A.table μ).leaving i) := by
  obtain ⟨ts, hts⟩ := Option.isSome_iff_exists.1 (Std.HashMap.mem_iff_isSome_getElem?.1 hi)
  rw [leaving_table, Std.HashMap.getD_eq_getD_getElem?, hts, Option.getD_some]
  exact (h.explored i ts hts).2

/-- A transition of the table is what its subset settles to under its label. -/
theorem settles_of_mem_leaving {i : ℕ} {t : SubsetTransition L W} (ht : t ∈ (A.table μ).leaving i) :
    t.source = i ∧
      Settles μ (A.stepValue closure (μ.subset i) t.label) (some (t.target, t.weight)) := by
  have hi : i ∈ μ.explored := by
    by_contra hnot
    rw [leaving_table, Std.HashMap.getD_eq_fallback hnot] at ht
    cases ht
  obtain ⟨r, hr, hts⟩ := h.expanded_leaving hi t.label
  have hmem : t ∈ (r.map fun p => (⟨i, p.1, t.label, p.2⟩ : SubsetTransition L W)).toList := by
    rw [← hts]
    simpa using ht
  obtain ⟨p, rfl, heq⟩ := Option.map_eq_some_iff.1 (Option.mem_toList.1 hmem)
  rw [← heq] at hr ⊢
  exact ⟨rfl, hr⟩

theorem mem_leaving_table {i : ℕ} {t : SubsetTransition L W} (ht : t ∈ (A.table μ).leaving i) :
    t.source = i ∧ t.target < μ.subsets.size := by
  obtain ⟨hsource, hsettles⟩ := h.settles_of_mem_leaving ht
  exact ⟨hsource, (hsettles.target_lt rfl).1⟩

omit [LawfulBEq L] in
theorem deterministic_table : (A.table μ).Deterministic := by
  refine deterministic_table_of_explored fun i ts hi a => ?_
  obtain ⟨r, -, hts⟩ := (h.explored i ts hi).2 a
  rw [hts]
  cases r <;> simp

theorem closed_table : (A.table μ).Closed (· < μ.subsets.size) :=
  fun _ _ _ ht => (h.mem_leaving_table ht).2

theorem lawful_table : (A.table μ).Lawful where
  starts_nodup := by
    rw [starts_table]
    cases μ.start.join <;> simp
  mem_starts i := by
    rw [mem_starts_table, entry_table]
    cases hstart : μ.start with
    | none => simp
    | some r =>
      cases r with
      | none => simp
      | some p =>
        have hne : p.2 ≠ 0 := ((h.start _ hstart).target_lt rfl).2
        by_cases hp : p.1 = i
        · simp [hp, hne, Prod.ext_iff]
        · simp [hp, Prod.ext_iff]
  source_eq i t ht := (h.mem_leaving_table ht).1

omit [LawfulBEq L] in
theorem starts_lt_table : ∀ i ∈ (A.table μ).starts, i < μ.subsets.size := by
  intro i hi
  obtain ⟨w, hw⟩ := mem_starts_table.1 hi
  exact ((h.start _ hw).target_lt rfl).1

end Remembers

end Table

end WeightedAutomata.Automaton
