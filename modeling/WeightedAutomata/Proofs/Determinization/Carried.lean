import WeightedAutomata.Proofs.Determinization.Successors

/-!
What the transitions with one label carry on from a subset. The subset in another order carries on
the same, in another order.
-/
namespace WeightedAutomata.Automaton

variable {m : Type → Type} [Monad m] [LawfulMonad m] {L S T W : Type}
variable [BEq L] [LawfulBEq L] [Semiring W] [BEq W]

section Definitions

variable (A : Automaton Id L S T W)

def startSeeds : WeightedStates S W := A.starts.map fun s => (s, A.entry s)

/-- What the transitions with the label `a` carry on from a subset, in the order of its states. -/
def carried (subset : WeightedStates S W) (a : L) : WeightedStates S W :=
  subset.flatMap fun e => (A.leaving e.1).filterMap fun t =>
    if A.label t == some a && !e.2 * A.cost t == 0 then some (A.target t, e.2 * A.cost t) else none

/-- What is carried on, label by label. -/
def grouped (subset : WeightedStates S W) : List (L × WeightedStates S W) :=
  subset.foldl (fun groups e => (A.leaving e.1).foldl (A.group e.2) groups) []

end Definitions

variable {A : Automaton Id L S T W} {groups : List (L × WeightedStates S W)}
variable {subset subset' : WeightedStates S W}

theorem seedsOf_group (w : W) (groups : List (L × WeightedStates S W)) (t : T) (a : L) :
    seedsOf (A.group w groups t) a = seedsOf groups a ++
      if A.label t == some a && !w * A.cost t == 0 then [(A.target t, w * A.cost t)] else [] := by
  unfold group
  cases A.label t with
  | none => simp
  | some l =>
    dsimp only
    by_cases hz : w * A.cost t == 0
    · simp [hz]
    · rw [if_neg hz, seedsOf_addSeed, Bool.eq_false_iff.2 hz, Bool.not_false, Bool.and_true]
      rfl

theorem seedsOf_foldl_group (w : W) (ts : List T) (groups : List (L × WeightedStates S W)) (a : L) :
    seedsOf (ts.foldl (A.group w) groups) a = seedsOf groups a ++ ts.filterMap fun t =>
      if A.label t == some a && !w * A.cost t == 0 then some (A.target t, w * A.cost t)
      else none := by
  induction ts generalizing groups with
  | nil => simp
  | cons t ts ih =>
    rw [List.foldl_cons, ih, seedsOf_group, List.filterMap_cons, List.append_assoc]
    congr 1
    by_cases h : (A.label t == some a && !w * A.cost t == 0) = true <;> simp [h]

theorem seedsOf_grouped (subset : WeightedStates S W) (a : L) :
    seedsOf (A.grouped subset) a = A.carried subset a := by
  have hfold (groups : List (L × WeightedStates S W)) :
      seedsOf (subset.foldl (fun groups e => (A.leaving e.1).foldl (A.group e.2) groups) groups) a =
        seedsOf groups a ++ A.carried subset a := by
    induction subset generalizing groups with
    | nil => simp [carried]
    | cons e subset ih =>
      rw [List.foldl_cons, ih, seedsOf_foldl_group, List.append_assoc]
      rfl
  rw [grouped, hfold, seedsOf_nil, List.nil_append]

theorem nodup_group (w : W) (h : (groups.map Prod.fst).Nodup) (t : T) :
    ((A.group w groups t).map Prod.fst).Nodup := by
  unfold group
  cases A.label t with
  | none => exact h
  | some l =>
    dsimp only
    split
    · exact h
    · exact nodup_addSeed h

theorem nodup_grouped (subset : WeightedStates S W) :
    ((A.grouped subset).map Prod.fst).Nodup := by
  let distinct (groups : List (L × WeightedStates S W)) : Prop := (groups.map Prod.fst).Nodup
  refine List.foldlRecOn subset _ (motive := distinct) List.nodup_nil fun groups hgroups e _ => ?_
  exact List.foldlRecOn _ _ (motive := distinct) hgroups fun _ h t _ => nodup_group e.2 h t

omit [LawfulBEq L] in
theorem lift_successors (subset : WeightedStates S W) :
    (A.lift : Automaton m L S T W).successors subset = pure (A.grouped subset) := by
  unfold successors grouped
  apply foldlM_eq_pure
  intro e _ groups
  dsimp only
  change (pure (A.leaving e.1) >>= fun ts => _) = _
  rw [pure_bind]
  apply foldlM_eq_pure
  intro t _ groups
  have hlabel : (A.lift : Automaton m L S T W).label t = A.label t := rfl
  rw [hlabel, group]
  cases A.label t with
  | none => rfl
  | some l =>
    change (pure (A.cost t) >>= fun v => _) = _
    rw [pure_bind]
    rfl

omit [LawfulBEq L] in
theorem carried_perm (h : subset.Perm subset') (a : L) :
    (A.carried subset a).Perm (A.carried subset' a) :=
  h.flatMap_right _

omit [LawfulBEq L] in
theorem reachable_carried (h : ∀ e ∈ subset, A.Reachable e.1) (a : L) :
    ∀ e ∈ A.carried subset a, A.Reachable e.1 := by
  intro e he
  obtain ⟨p, hp, he⟩ := List.mem_flatMap.1 he
  obtain ⟨t, ht, he⟩ := List.mem_filterMap.1 he
  split at he
  · cases he
    exact (h p hp).step ht
  · cases he

omit [BEq L] [LawfulBEq L] [Semiring W] [BEq W] in
theorem lift_startSeeds : ((A.lift : Automaton m L S T W).initialStates >>= fun ss =>
    ss.mapM fun s => return (s, ← (A.lift : Automaton m L S T W).initialWeight s)) =
      pure A.startSeeds := by
  change (pure A.starts >>= _) = _
  rw [pure_bind]
  exact mapM_eq_pure fun s _ => pure_bind (A.entry s) _

omit [BEq L] [LawfulBEq L] [Semiring W] [BEq W] in
theorem reachable_startSeeds : ∀ e ∈ A.startSeeds, A.Reachable e.1 := by
  intro e he
  obtain ⟨s, hs, rfl⟩ := List.mem_map.1 he
  exact .start hs

end WeightedAutomata.Automaton
