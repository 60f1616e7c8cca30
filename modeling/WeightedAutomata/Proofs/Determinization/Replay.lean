import WeightedAutomata.Proofs.Determinization.Recall

/-!
String weights from the memory of a determinization: there is one within a budget that only the
length of the string bounds, and a strict one only where all subsets on the way have been explored.
-/
namespace WeightedAutomata.Automaton

variable {L S T W : Type} [BEq L] [LawfulBEq L] [BEq S] [Semiring W] [BEq W] [LawfulBEq W]
variable [PartialInverse W] {A : Automaton Id L S T W} {closure : S → ℕ} {μ : SubsetMemory L S W}

/-- The total of an outcome times what is left from its state on. -/
def outcome (r : Option (ℕ × W)) (g : ℕ → W) : W := r.elim 0 fun p => p.2 * g p.1

omit [LawfulBEq W] in
theorem Remembers.recalled_answers (h : A.Remembers closure μ) :
    (A.recalled μ false).Answers (A.table μ) (· < μ.subsets.size) where
  closed := h.closed_table
  starts := h.starts_lt_table
  initialStates := by simp [recalled]
  outgoing _ hi := if_pos ⟨hi, nofun⟩
  initialWeight _ _ := by simp [recalled]
  finalWeight _ hi := if_pos hi
  weight _ _ _ _ := rfl
  source := rfl
  target := rfl
  label := rfl
  order := rfl

/-- What is left of the string from a state of the table on. -/
abbrev tableRest (A : Automaton Id L S T W) (μ : SubsetMemory L S W) (x : List L) (i j : ℕ) : W :=
  (A.table μ).rest x (fun p => x.length + 1 - p.right) i j

theorem Remembers.recalled_stringWeight (h : A.Remembers closure μ) (queue : Queue W) (x : List L)
    {steps : ℕ} (hsteps : x.length + 2 < steps) :
    (A.recalled μ false).stringWeight steps ⟨queue, .exact⟩ x =
      some (outcome μ.start.join fun i => A.tableRest μ x i 0) := by
  have hlength : ((A.table μ).starts.map fun _ => x.length + 1).sum ≤ x.length + 1 := by
    rw [starts_table]
    cases μ.start.join <;> simp
  rw [h.recalled_answers.stringWeight_eq h.lawful_table h.deterministic_table.bounded_reading queue
    (lt_of_le_of_lt (Nat.succ_le_succ hlength) hsteps), starts_table]
  simp only [entry_table]
  cases μ.start.join with
  | none => rfl
  | some p => simp [outcome]

omit [BEq L] [LawfulBEq L] [BEq S] [BEq W] [LawfulBEq W] [PartialInverse W] in
theorem leaving_of_recalled {i : ℕ} {strict : Bool} {ts : List (SubsetTransition L W)}
    (h : (A.recalled μ strict).outgoing i = some ts) :
    ts = (A.table μ).leaving i ∧ (strict → i ∈ μ.explored) := by
  dsimp only [recalled] at h
  split at h
  · next hi => exact ⟨(Option.some.inj h).symm, hi.2⟩
  · cases h

omit [LawfulBEq W] in
theorem Remembers.known_of_recalled (h : A.Remembers closure μ) {solver : Solver W} {x : List L}
    {steps : ℕ} {w : W} (hw : (A.recalled μ true).stringWeight steps solver x = some w) :
    μ.start.isSome ∧ ∀ p, ((A.table μ).reading x).Reachable p → p.left ∈ μ.explored := by
  obtain ⟨_, -, hw⟩ := Option.bind_eq_some_iff.1 hw
  obtain ⟨states, hstates, -⟩ := Option.bind_eq_some_iff.1 hw
  obtain ⟨visited, hvisited, -⟩ := Option.bind_eq_some_iff.1 hstates
  have hstart : μ.start.isSome := by
    by_contra hnone
    obtain ⟨ss, hss, -⟩ := Option.bind_eq_some_iff.1 hvisited
    obtain ⟨lefts, hlefts, -⟩ := Option.bind_eq_some_iff.1 hss
    simp [recalled, hnone] at hlefts
  have hanswers : ((A.recalled μ false).reading x).Answers ((A.table μ).reading x) _ :=
    h.recalled_answers.product (singleString_answers x)
  have hstarts : ((A.recalled μ true).reading x).initialStates =
      some ((A.table μ).reading x).starts := by
    rw [← show _ = some _ from hanswers.initialStates]
    simp [product, recalled, hstart]
  have houtgoing : ∀ p us, ((A.recalled μ true).reading x).outgoing p = some us →
      us = ((A.table μ).reading x).leaving p := by
    intro p us hus
    obtain ⟨ts, hts, hus⟩ := Option.bind_eq_some_iff.1 hus
    rw [(leaving_of_recalled hts).1] at hus
    exact (Option.some.inj hus).symm
  constructor
  · exact hstart
  · intro p hp
    have hasked := outgoing_isSome_of_explore
      (fun ss hss => Option.some.inj (hss.symm.trans hstarts)) houtgoing rfl hvisited hp
    obtain ⟨us, hus⟩ := Option.isSome_iff_exists.1 hasked
    obtain ⟨ts, hts, -⟩ := Option.bind_eq_some_iff.1 hus
    exact (leaving_of_recalled hts).2 rfl

end WeightedAutomata.Automaton
