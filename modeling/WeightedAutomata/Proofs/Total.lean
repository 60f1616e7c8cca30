import WeightedAutomata.Automaton.Total
import WeightedAutomata.Proofs.Relaxation.Sums
import WeightedAutomata.Proofs.SingleInitial
import WeightedAutomata.Proofs.Traversal

/-!
The sums from all initial states: the added state of the single-initial view passes them on, the
initial states themselves are put back, and the final weights are folded in.
-/
namespace WeightedAutomata.Automaton

variable {m : Type → Type} {L S T W : Type} [BEq S] [LawfulBEq S] [Hashable S]

theorem getElem?_ownDistances (d : Distances (Option S) W) (s : S) :
    (ownDistances d)[s]? = d[some s]? := by
  let own (e : Option S × W) : Option (S × W) := e.1.map fun s => (s, e.2)
  have hown {e : Option S × W} {q : S} {w : W} (h : own e = some (q, w)) : e = (some q, w) := by
    obtain ⟨q', hq, h⟩ := Option.map_eq_some_iff.1 h
    cases h
    rw [← hq]
  have hmem (w : W) : (s, w) ∈ d.toList.filterMap own ↔ d[some s]? = some w := by
    rw [List.mem_filterMap, ← Std.HashMap.mem_toList_iff_getElem?_eq_some]
    exact ⟨fun ⟨e, he, h⟩ => hown h ▸ he, fun h => ⟨_, h, rfl⟩⟩
  have hdistinct : (d.toList.filterMap own).Pairwise fun a b => (a.1 == b.1) = false := by
    refine List.pairwise_filterMap.2 (d.distinct_keys_toList.imp fun {a b} hne x hx y hy => ?_)
    rw [hown hx, hown hy] at hne
    simpa using hne
  change (Std.HashMap.ofList (d.toList.filterMap own))[s]? = _
  cases hd : d[some s]? with
  | some w => exact Std.HashMap.getElem?_ofList_of_mem (beq_self_eq_true s) hdistinct ((hmem w).2 hd)
  | none =>
    refine Std.HashMap.getElem?_ofList_of_contains_eq_false (Bool.eq_false_iff.2 fun hc => ?_)
    obtain ⟨⟨q, w⟩, he, rfl⟩ := List.mem_map.1 (List.contains_iff_mem.1 hc)
    rw [(hmem w).1 he] at hd
    cases hd

theorem getD_ownDistances (d : Distances (Option S) W) (s : S) (w : W) :
    (ownDistances d).getD s w = d.getD (some s) w := by
  rw [Std.HashMap.getD_eq_getD_getElem?, getElem?_ownDistances,
    ← Std.HashMap.getD_eq_getD_getElem?]

section Steps

variable [Zero W] [One W] [Add W] [Mul W] [BEq W] {R : S → Prop}

/-- Puts the weights of the initial states back. -/
def addStarts (Q : Automaton Id L S T W) (d : Distances S W) : Distances S W :=
  Q.starts.foldl (fun d s => d.insert s (d.getD s 0 + Q.entry s)) d

/-- Adds to a total the distance of a state, times its final weight. -/
def addFinal (Q : Automaton Id L S T W) (d : Distances S W) (total : W) (s : S) : W :=
  match d[s]? with
  | none => total
  | some w => if Q.exit s == 0 then total else total + w * Q.exit s

variable [Monad m] [LawfulMonad m] [StepLimited m] {A : Automaton m L S T W}
variable {Q : Automaton Id L S T W} (h : A.Answers Q R)
include h

omit [LawfulBEq S] in
theorem Answers.distancesFromInitial_eq_bind (budget : ℕ) (solver : Solver W) :
    A.distancesFromInitial budget solver =
      A.singleInitial.distances budget solver none >>= fun d =>
        pure (Q.addStarts (ownDistances d)) := by
  unfold distancesFromInitial
  congr 1
  funext d
  rw [h.initialStates, pure_bind]
  exact foldlM_eq_pure (fun s hs d => by rw [h.initialWeight s (h.starts s hs), pure_bind]) _

omit [LawfulBEq S] in
theorem Answers.completeDistance_eq_pure {budget : ℕ} {solver : Solver W} {d : Distances S W}
    {states : List S} (hd : A.distancesFromInitial budget solver = pure d)
    (hstates : A.states budget = pure states) (hR : ∀ s ∈ states, R s) :
    A.completeDistance budget solver = pure (states.foldl (Q.addFinal d) 0) := by
  unfold completeDistance
  rw [hd, pure_bind, hstates, pure_bind]
  apply foldlM_eq_pure
  intro s hs total
  unfold addFinal
  cases d[s]? with
  | none => rfl
  | some w => simp only [h.finalWeight s (hR s hs), pure_bind]

end Steps

variable [Semiring W] {Q : Automaton Id L S T W} {R : S → Prop} {size : S → ℕ}

theorem addFinal_eq [BEq W] [LawfulBEq W] (d : Distances S W) (total : W) (s : S) :
    Q.addFinal d total s = total + d.getD s 0 * Q.exit s := by
  rw [addFinal, Std.HashMap.getD_eq_getD_getElem?]
  cases d[s]? with
  | none => simp
  | some w =>
    dsimp only [Option.getD_some]
    split
    · next hz => rw [eq_of_beq hz, mul_zero, add_zero]
    · rfl

theorem foldl_addFinal [BEq W] [LawfulBEq W] (d : Distances S W) (ss : List S) :
    ss.foldl (Q.addFinal d) 0 = (ss.map fun s => d.getD s 0 * Q.exit s).sum := by
  rw [List.sum_eq_foldl, List.foldl_map]
  congr 1
  funext total s
  exact addFinal_eq d total s

theorem getD_addStarts (hQ : Q.Lawful) (d : Distances S W) (q : S) :
    (Q.addStarts d).getD q 0 = d.getD q 0 + Q.entry q := by
  have hfold (ss : List S) (hss : ss.Nodup) (d : Distances S W) :
      (ss.foldl (fun d s => d.insert s (d.getD s 0 + Q.entry s)) d).getD q 0 =
        d.getD q 0 + if q ∈ ss then Q.entry q else 0 := by
    induction ss generalizing d with
    | nil => simp
    | cons s ss ih =>
      obtain ⟨hs, hss⟩ := List.nodup_cons.1 hss
      rw [List.foldl_cons, ih hss, Std.HashMap.getD_insert]
      by_cases hq : s = q
      · subst hq
        simp [hs]
      · simp [hq, Ne.symm hq]
  rw [addStarts, hfold Q.starts hQ.starts_nodup d]
  split
  · rfl
  · next hq => rw [Classical.not_not.1 fun hne => hq ((hQ.mem_starts q).2 hne)]

/-- Weighted states without the added one. -/
def ownStates (ws : List (Option S × W)) : List (S × W) :=
  ws.filterMap fun e => e.1.map fun s => (s, e.2)

omit [BEq S] [LawfulBEq S] [Hashable S] in
theorem weigh_ownStates (ws : List (Option S × W)) (g : S → W) :
    weigh (ownStates ws) g = weigh ws (atOwn g) := by
  induction ws with
  | nil => rfl
  | cons e ws ih =>
    obtain ⟨_ | s, w⟩ := e
    · change weigh (ownStates ws) g = _
      rw [ih, weigh_cons, atOwn, mul_zero, zero_add]
    · change weigh ((s, w) :: ownStates ws) g = _
      rw [weigh_cons, ih, weigh_cons, atOwn]

omit [BEq S] [LawfulBEq S] [Hashable S] in
theorem atOwn_indicator (q : S) : atOwn (indicator q : S → W) = indicator (some q) := by
  funext s
  cases s with
  | none => exact (indicator_of_ne (Option.some_ne_none q).symm).symm
  | some s =>
    by_cases hq : s = q
    · rw [hq, atOwn, indicator_self, indicator_self]
    · rw [atOwn, indicator_of_ne hq, indicator_of_ne fun h => hq (Option.some.inj h)]

theorem Tallies.ownDistances {d : Distances (Option S) W} {ws : List (Option S × W)}
    (h : Tallies d (fun s => ∀ q ∈ s, R q) ws) : Tallies (ownDistances d) R (ownStates ws) where
  getD_eq q := by
    rw [getD_ownDistances, h.getD_eq, weigh_ownStates, atOwn_indicator]
  known q hq := by
    rw [Std.HashMap.mem_iff_isSome_getElem?, getElem?_ownDistances,
      ← Std.HashMap.mem_iff_isSome_getElem?] at hq
    exact h.known (some q) hq q rfl
  inside e he := by
    obtain ⟨⟨s, w⟩, hs, heq⟩ := List.mem_filterMap.1 he
    obtain ⟨q, rfl, rfl⟩ := Option.map_eq_some_iff.1 heq
    exact h.inside _ hs q rfl

theorem Tallies.insert {d : Distances S W} {ws : List (S × W)} (h : Tallies d R ws) {s : S}
    (hs : R s) (w : W) : Tallies (d.insert s (d.getD s 0 + w)) R (ws ++ [(s, w)]) where
  getD_eq q := by
    rw [Std.HashMap.getD_insert, weigh_append, weigh_cons, weigh_nil, add_zero]
    split
    · next hq => rw [eq_of_beq hq, h.getD_eq, indicator_self, mul_one]
    · next hq =>
      have hne : s ≠ q := by simpa using hq
      rw [h.getD_eq, indicator_of_ne hne, mul_zero, add_zero]
  known q hq := by
    rcases Std.HashMap.mem_insert.1 hq with hq | hq
    · rwa [← eq_of_beq hq]
    · exact h.known q hq
  inside e he := by
    rcases List.mem_append.1 he with he | he
    · exact h.inside e he
    · rwa [List.mem_singleton.1 he]

variable [Monad m] [LawfulMonad m] [StepLimited m] [BEq W] [LawfulBEq W] {A : Automaton m L S T W}

theorem Answers.distancesFromInitial_eq (h : A.Answers Q R) (hQ : Q.Lawful)
    (hb : Q.Bounded R size) (queue : Queue W) : ∃ d ws, Tallies d R ws ∧
      (∀ g, weigh ws g = (Q.starts.map fun s => Q.entry s * Q.pathSum (size s) g s).sum) ∧
      ∀ budget, (Q.starts.map size).sum + 1 < budget →
        A.distancesFromInitial budget ⟨queue, .exact⟩ = pure d := by
  obtain ⟨rooted, ws, hws, hsum, hrun⟩ := (h.singleInitial hQ).distances_eq
    (hb.singleInitial h.starts) queue (show ∀ q ∈ (none : Option S), R q from nofun)
  have hfold (ss : List S) (hss : ∀ s ∈ ss, R s) {d : Distances S W} {vs : List (S × W)}
      (hd : Tallies d R vs) :
      Tallies (ss.foldl (fun d s => d.insert s (d.getD s 0 + Q.entry s)) d) R
        (vs ++ ss.map fun s => (s, Q.entry s)) := by
    induction ss generalizing d vs with
    | nil => simpa using hd
    | cons s ss ih =>
      have hd' := hd.insert (hss s List.mem_cons_self) (Q.entry s)
      have hrest := ih (fun q hq => hss q (List.mem_cons_of_mem s hq)) hd'
      simpa using hrest
  refine ⟨_, _, hfold Q.starts h.starts hws.ownDistances, fun g => ?_, fun budget hbudget => ?_⟩
  · let n := (Q.starts.map size).sum
    have hrooted : weigh ws (atOwn g) =
        (Q.starts.map fun s => Q.entry s * Q.onward (Q.pathSum n g) s).sum := by
      rw [hsum, ← pathSum_singleInitial_none hQ]
      exact one_mul _
    have hinitial : weigh (Q.starts.map fun s => (s, Q.entry s)) g =
        (Q.starts.map fun s => Q.entry s * g s).sum := by
      rw [weigh, List.map_map]
      rfl
    rw [weigh_append, weigh_ownStates, hrooted, hinitial, ← List.sum_map_add]
    congr 1
    apply List.map_congr_left
    intro s hs
    have hle : size s ≤ n := List.le_sum_of_mem (List.mem_map.2 ⟨s, hs, rfl⟩)
    rw [← mul_add, add_comm, ← pathSum_succ, hb.pathSum_eq g (h.starts s hs) (Nat.le_succ_of_le hle)]
  · rw [h.distancesFromInitial_eq_bind, hrun budget hbudget, pure_bind]
    rfl

theorem Answers.completeDistance_eq (h : A.Answers Q R) (hQ : Q.Lawful)
    (hb : Q.Bounded Q.Reachable size) (queue : Queue W) {budget : ℕ}
    (hsize : (Q.starts.map size).sum + 1 < budget) :
    A.completeDistance budget ⟨queue, .exact⟩ =
      pure (Q.starts.map fun s => Q.entry s * Q.pathSum (size s) Q.exit s).sum := by
  classical
  obtain ⟨d, ws, hd, hsum, hrun⟩ := h.toReachable.distancesFromInitial_eq hQ hb queue
  obtain ⟨states, hnodup, hmem, hstates⟩ := h.states_eq hb.atMost
  have htotal : (states.map fun s => d.getD s 0 * Q.exit s).sum = weigh ws Q.exit := by
    have hinside : ∀ e ∈ ws, e.1 ∈ states.toFinset := fun e he => by
      rw [List.mem_toFinset, hmem]
      exact hd.inside e he
    rw [weigh_eq_sum_indicator _ ws hinside, List.sum_toFinset _ hnodup]
    simp only [hd.getD_eq]
  have hR : ∀ s ∈ states, R s := fun s hs => h.reachable ((hmem s).1 hs)
  rw [h.completeDistance_eq_pure (hrun budget hsize) (hstates budget (by omega)) hR,
    foldl_addFinal, htotal, hsum]

end WeightedAutomata.Automaton
