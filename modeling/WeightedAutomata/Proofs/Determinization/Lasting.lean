import WeightedAutomata.Proofs.Determinization.Consistency

/-!
Queries of a determinization keep its memory consistent, and what they have answered once they
answer from then on, without effect.
-/
namespace WeightedAutomata.Automaton

variable {L S T W : Type}

section Traversal

/-- Only states and transitions that the memory knows have come up. -/
def Charts (μ : SubsetMemory L S W) (sweep : Sweep ℕ (SubsetTransition L W)) : Prop :=
  (∀ i ∈ sweep.frontier.states, i < μ.subsets.size) ∧ ∀ e ∈ sweep.visited, e.1 < μ.subsets.size ∧
    ∀ t ∈ e.2, t.source < μ.subsets.size ∧ t.target < μ.subsets.size

theorem Charts.mono {μ ν : SubsetMemory L S W} {sweep : Sweep ℕ (SubsetTransition L W)}
    (h : Charts μ sweep) (hext : μ.Extends ν) : Charts ν sweep := by
  have hle := hext.size_le
  refine ⟨fun i hi => lt_of_lt_of_le (h.1 i hi) hle, fun e he => ?_⟩
  obtain ⟨hstate, hts⟩ := h.2 e he
  exact ⟨lt_of_lt_of_le hstate hle, fun t ht =>
    ⟨lt_of_lt_of_le (hts t ht).1 hle, lt_of_lt_of_le (hts t ht).2 hle⟩⟩

theorem Charts.foldl_discover {μ : SubsetMemory L S W} {sweep : Sweep ℕ (SubsetTransition L W)}
    (h : Charts μ sweep) {is : List ℕ} (his : ∀ i ∈ is, i < μ.subsets.size) :
    Charts μ (is.foldl Sweep.discover sweep) := by
  induction is generalizing sweep with
  | nil => exact h
  | cons i is ih =>
    refine ih ⟨?_, ?_⟩ fun j hj => his j (List.mem_cons_of_mem i hj)
    · unfold Sweep.discover
      split
      · exact h.1
      · intro j hj
        rcases Frontier.mem_states_insert.1 hj with rfl | hj
        · exact his j List.mem_cons_self
        · exact h.1 j hj
    · rw [Sweep.visited_discover]
      exact h.2

end Traversal

variable [Semiring W] [BEq S] [BEq W] [Hashable S] [PartialInverse W] [BEq L]

/-- Asked of a consistent memory with the property `P`, the query `x` keeps it consistent and has an
answer with the property `Q`. Every memory that extends the one it leaves has the same answer to it,
and remains as it is. The budgets of the epsilon closures do not matter. -/
def Lasts (A : Automaton Id L S T W) {α : Type} (P : SubsetMemory L S W → Prop)
    (x : ℕ → Subsets Option L S W α) (Q : α → SubsetMemory L S W → Prop) : Prop :=
  ∀ budget μ a ν, A.Consistent μ → P μ → (x budget).run μ = some (a, ν) →
    A.Consistent ν ∧ μ.Extends ν ∧ Q a ν ∧
      ∀ budget' ξ, ν.Extends ξ → (x budget').run ξ = some (a, ξ)

namespace Lasts

variable {A : Automaton Id L S T W} {α β : Type} {P P' : SubsetMemory L S W → Prop}
variable {x : ℕ → Subsets Option L S W α} {Q Q' : α → SubsetMemory L S W → Prop}

theorem pure {a : α} (h : ∀ μ, P μ → Q a μ) : A.Lasts P (fun _ => Pure.pure a) Q := by
  rintro budget μ b ν hμ hP hrun
  cases hrun
  exact ⟨hμ, .refl μ, h μ hP, fun _ _ _ => rfl⟩

theorem bind (h : A.Lasts P x Q) {f : ℕ → α → Subsets Option L S W β}
    {R : β → SubsetMemory L S W → Prop} (hf : ∀ a, A.Lasts (Q a) (fun n => f n a) R) :
    A.Lasts P (fun n => x n >>= f n) R := by
  intro budget μ b ν hμ hP hrun
  rw [StateT.run_bind] at hrun
  obtain ⟨⟨a, ξ⟩, hx, hrun⟩ := Option.bind_eq_some_iff.1 hrun
  obtain ⟨hξ, hext, hQ, hagain⟩ := h budget μ a ξ hμ hP hx
  obtain ⟨hν, hext', hR, hagain'⟩ := hf a budget ξ b ν hξ hQ hrun
  refine ⟨hν, hext.trans hext', hR, fun budget' ζ hζ => ?_⟩
  rw [StateT.run_bind, hagain budget' ζ (hext'.trans hζ)]
  exact hagain' budget' ζ hζ

theorem mono (h : A.Lasts P x Q) (hP : ∀ μ, P' μ → P μ)
    (hQ : ∀ a μ, A.Consistent μ → Q a μ → Q' a μ) : A.Lasts P' x Q' := by
  intro budget μ a ν hμ hP' hrun
  obtain ⟨hν, hext, ha, hagain⟩ := h budget μ a ν hμ (hP μ hP') hrun
  exact ⟨hν, hext, hQ a ν hν ha, hagain⟩

theorem map (h : A.Lasts P x Q) {f : α → β} {R : β → SubsetMemory L S W → Prop}
    (hP : ∀ μ, P' μ → P μ) (hR : ∀ a μ, A.Consistent μ → Q a μ → R (f a) μ) :
    A.Lasts P' (fun n => do return f (← x n)) R :=
  have hmono : A.Lasts P' x fun a μ => R (f a) μ := h.mono hP hR
  hmono.bind fun _ => pure fun _ h => h

/-- What stays true as the memory grows stays true. -/
theorem frame (h : A.Lasts P x Q) {F : SubsetMemory L S W → Prop}
    (hF : ∀ μ ν, μ.Extends ν → F μ → F ν) :
    A.Lasts (fun μ => P μ ∧ F μ) x fun a μ => Q a μ ∧ F μ := by
  rintro budget μ a ν hμ ⟨hP, hFμ⟩ hrun
  obtain ⟨hν, hext, ha, hagain⟩ := h budget μ a ν hμ hP hrun
  exact ⟨hν, hext, ⟨ha, hF μ ν hext hFμ⟩, hagain⟩

theorem untilDone {step : ℕ → α → Subsets Option L S W (Option α)}
    {I : α → SubsetMemory L S W → Prop}
    (h : ∀ a, A.Lasts (I a) (fun n => step n a) fun next μ => I a μ ∧ ∀ b ∈ next, I b μ)
    (steps : ℕ) (a : α) :
    A.Lasts (I a) (fun n => WeightedAutomata.untilDone (step n) steps a) I := by
  induction steps generalizing a with
  | zero =>
    intro budget μ b ν _ _ hrun
    cases hrun
  | succ steps ih =>
    refine (h a).bind fun next => ?_
    cases next with
    | none => exact pure fun μ hμ => hμ.1
    | some b => exact (ih b).mono (fun μ hμ => hμ.2 b rfl) fun _ _ _ h => h

end Lasts

variable (A : Automaton Id L S T W)

/-- A query that only reads the subset of a known state. -/
theorem lasts_subset {α : Type} (i : ℕ) (f : WeightedStates S W → α) :
    A.Lasts (fun μ => i < μ.subsets.size) (fun _ => return f ((← get).subset i)) fun a μ =>
      a = f (μ.subset i) := by
  intro budget μ a ν hμ hi hrun
  cases hrun
  refine ⟨hμ, .refl μ, rfl, fun _ ξ hξ => ?_⟩
  rw [← hξ.subset_eq i hi]
  rfl

theorem finalWeight_determinize (n i : ℕ) :
    ((A.lift : Automaton Option L S T W).determinize n).finalWeight i =
      return weigh ((← get).subset i) A.exit := by
  refine bind_congr fun μ => ?_
  have hstep : ∀ e ∈ μ.subset i, ∀ total, (do
      return total + e.2 * (← (A.lift : Automaton Option L S T W).finalWeight e.1) :
        Subsets Option L S W W) = pure (total + e.2 * A.exit e.1) := fun _ _ _ => rfl
  change (μ.subset i).foldlM _ 0 = pure (weigh (μ.subset i) A.exit)
  rw [foldlM_eq_pure hstep, weigh, List.sum_eq_foldl, List.foldl_map]

theorem lasts_finalWeight (i : ℕ) : A.Lasts (fun μ => i < μ.subsets.size)
    (fun n => ((A.lift : Automaton Option L S T W).determinize n).finalWeight i) fun w μ =>
      w = weigh (μ.subset i) A.exit := by
  simp only [finalWeight_determinize]
  exact A.lasts_subset i fun ws => weigh ws A.exit

variable [LawfulBEq S] [LawfulBEq W] (hinverse : LawfulInverse W)
include hinverse

theorem lasts_startSubset : A.Lasts (fun _ => True)
    (fun n => (A.lift : Automaton Option L S T W).startSubset n) fun r μ => μ.start = some r := by
  intro budget μ r ν hμ _ hrun
  have hknown {ξ : SubsetMemory L S W} {r : Option (ℕ × W)} (h : ξ.start = some r) (n : ℕ) :
      ((A.lift : Automaton Option L S T W).startSubset n).run ξ = some (r, ξ) := by
    simp [startSubset, h]
  obtain ⟨hstart, rfl⟩ | ⟨hstart, ξ, hsettle, rfl⟩ := startSubset_run hrun
  · exact ⟨hμ, .refl ν, hstart, fun n ξ hξ => hknown (hξ.start r hstart) n⟩
  · obtain ⟨hgrows, hr⟩ := hμ.settle_run hinverse reachable_startSeeds hsettle
    have hnew : ξ.start = none := hgrows.start.trans hstart
    exact ⟨hgrows.consistent.set_start hnew hr,
      hgrows.extends_to.trans (ξ.extends_set_start hnew r), rfl,
      fun n ζ hζ => hknown (hζ.start r rfl) n⟩

/-- The initial states are what the start has settled to. -/
theorem lasts_initialStates : A.Lasts (fun _ => True)
    (fun n => ((A.lift : Automaton Option L S T W).determinize n).initialStates) fun ss μ =>
      ∃ r, μ.start = some r ∧ ss = (r.map Prod.fst).toList := by
  refine (A.lasts_startSubset hinverse).bind fun r => .pure fun μ hμ => ⟨r, hμ, ?_⟩
  cases r <;> rfl

theorem lasts_initialWeight (i : ℕ) : A.Lasts (fun _ => True)
    (fun n => ((A.lift : Automaton Option L S T W).determinize n).initialWeight i) fun w μ =>
      ∃ r, μ.start = some r ∧ w = r.elim 0 fun p => if p.1 = i then p.2 else 0 := by
  refine (A.lasts_startSubset hinverse).bind fun r => ?_
  cases r <;> exact .pure fun μ hμ => ⟨_, hμ, rfl⟩

theorem lasts_outgoing [LawfulBEq L] (i : ℕ) : A.Lasts (fun μ => i < μ.subsets.size)
    (fun n => ((A.lift : Automaton Option L S T W).determinize n).outgoing i) fun ts μ =>
      μ.explored[i]? = some ts := by
  intro budget μ ts ν hμ hi hrun
  have hknown {ξ : SubsetMemory L S W} {ts : List (SubsetTransition L W)}
      (h : ξ.explored[i]? = some ts) (n : ℕ) :
      (((A.lift : Automaton Option L S T W).determinize n).outgoing i).run ξ = some (ts, ξ) := by
    simp [determinize, h]
  obtain ⟨hexplored, rfl⟩ | ⟨hexplored, ξ, hsettle, rfl⟩ := outgoing_run hrun
  · exact ⟨hμ, .refl ν, hexplored, fun n ξ hξ => hknown (hξ.explored i ts hexplored) n⟩
  · have hreach : ∀ a, ∀ e ∈ seedsOf (A.grouped (μ.subset i)) a, A.Reachable e.1 := fun a => by
      rw [seedsOf_grouped]
      exact reachable_carried (hμ.normal i hi).reachable a
    obtain ⟨hgrows, hts⟩ := hμ.settle_groups hinverse i (nodup_grouped _) hreach hsettle
    have hnew : ξ.explored[i]? = none := by rw [hgrows.explored, hexplored]
    have hlt : i < ξ.subsets.size := lt_of_lt_of_le hi hgrows.extends_to.size_le
    have hsettled : A.SettledAt ξ i ts := fun a => by
      obtain ⟨r, hr, hfilter⟩ := hts a
      rw [seedsOf_grouped, ← hgrows.extends_to.subset_eq i hi] at hr
      exact ⟨r, hr, hfilter⟩
    exact ⟨hgrows.consistent.insert_explored hlt hnew hsettled,
      hgrows.extends_to.trans (ξ.extends_insert_explored hnew ts), by simp,
      fun n ζ hζ => hknown (hζ.explored i ts (by simp)) n⟩

theorem lasts_visitNext [LawfulBEq L] (sweep : Sweep ℕ (SubsetTransition L W)) :
    A.Lasts (Charts · sweep)
      (fun n => ((A.lift : Automaton Option L S T W).determinize n).visitNext sweep)
      fun next μ => Charts μ sweep ∧ ∀ sweep' ∈ next, Charts μ sweep' := by
  unfold visitNext
  cases hpop : sweep.frontier.pop? with
  | none => exact .pure fun μ hμ => ⟨hμ, nofun⟩
  | some popped =>
    obtain ⟨i, frontier⟩ := popped
    have hstates := Frontier.states_of_pop? hpop
    have hout := (A.lasts_outgoing hinverse i).frame (F := fun μ => Charts μ sweep)
      fun μ ν hext h => h.mono hext
    have hknown : A.Lasts (Charts · sweep)
        (fun n => ((A.lift : Automaton Option L S T W).determinize n).outgoing i)
        fun ts μ => Charts μ sweep ∧
          ∀ t ∈ ts, t.source < μ.subsets.size ∧ t.target < μ.subsets.size := by
      refine hout.mono (fun μ h => ⟨h.1 i (hstates ▸ List.mem_cons_self), h⟩)
        fun ts μ hμ ⟨hts, h⟩ => ⟨h, fun t ht => ?_⟩
      obtain ⟨hi, hsettled⟩ := hμ.explored i ts hts
      obtain ⟨hsource, ht⟩ := hsettled.settled_of_mem ht
      exact ⟨hsource ▸ hi, ht.target_lt_size⟩
    refine hknown.bind fun ts => ?_
    change A.Lasts _ (fun _ => Pure.pure (some ((ts.map SubsetTransition.target).foldl
      Sweep.discover ⟨frontier, sweep.seen, (i, ts) :: sweep.visited⟩))) _
    refine .pure fun μ ⟨h, hts⟩ => ⟨h, ?_⟩
    rintro _ ⟨⟩
    refine Charts.foldl_discover ⟨fun j hj => h.1 j (hstates ▸ List.mem_cons_of_mem i hj), ?_⟩ ?_
    · refine List.forall_mem_cons.2 ⟨⟨h.1 i (hstates ▸ List.mem_cons_self), hts⟩, h.2⟩
    · intro j hj
      obtain ⟨t, ht, rfl⟩ := List.mem_map.1 hj
      exact (hts t ht).2

theorem lasts_explore [LawfulBEq L] (steps : ℕ) : A.Lasts (fun _ => True)
    (fun n => ((A.lift : Automaton Option L S T W).determinize n).explore steps) fun visited μ =>
      ∀ e ∈ visited, e.1 < μ.subsets.size ∧
        ∀ t ∈ e.2, t.source < μ.subsets.size ∧ t.target < μ.subsets.size := by
  let start (ss : List ℕ) : Sweep ℕ (SubsetTransition L W) :=
    ss.foldl Sweep.discover (Sweep.start .fifo)
  have hstart : A.Lasts (fun _ => True)
      (fun n => ((A.lift : Automaton Option L S T W).determinize n).initialStates)
      fun ss μ => Charts μ (start ss) := by
    refine (A.lasts_initialStates hinverse).mono (fun _ h => h) fun ss μ hμ ⟨r, hr, hss⟩ => ?_
    have hnew : Charts μ (Sweep.start .fifo) :=
      ⟨fun _ h => (List.not_mem_nil h).elim, fun _ h => (List.not_mem_nil h).elim⟩
    refine hnew.foldl_discover fun i hi => ?_
    rw [hss, Option.mem_toList, Option.map_eq_some_iff] at hi
    obtain ⟨p, rfl, rfl⟩ := hi
    exact (hμ.start _ hr).target_lt_size
  change A.Lasts _ (fun n => ((A.lift : Automaton Option L S T W).determinize n).initialStates >>=
    fun ss => WeightedAutomata.untilDone
      (((A.lift : Automaton Option L S T W).determinize n).visitNext) steps (start ss) >>=
        fun sweep => Pure.pure sweep.visited.reverse) _
  refine hstart.bind fun ss => ?_
  refine (Lasts.untilDone (A.lasts_visitNext hinverse) steps (start ss)).bind fun sweep => ?_
  exact .pure fun μ h e he => h.2 e (List.mem_reverse.1 he)

theorem lasts_states [LawfulBEq L] (steps : ℕ) : A.Lasts (fun _ => True)
    (fun n => ((A.lift : Automaton Option L S T W).determinize n).states steps) fun is μ =>
      ∀ i ∈ is, i < μ.subsets.size := by
  refine (A.lasts_explore hinverse steps).map (fun _ h => h) fun visited μ _ h i hi => ?_
  obtain ⟨e, he, rfl⟩ := List.mem_map.1 hi
  exact (h e he).1

theorem lasts_transitions [LawfulBEq L] (steps : ℕ) : A.Lasts (fun _ => True)
    (fun n => ((A.lift : Automaton Option L S T W).determinize n).transitions steps) fun ts μ =>
      ∀ t ∈ ts, t.source < μ.subsets.size ∧ t.target < μ.subsets.size := by
  refine (A.lasts_explore hinverse steps).map (fun _ h => h) fun visited μ _ h t ht => ?_
  obtain ⟨e, he, ht⟩ := List.mem_flatMap.1 ht
  exact (h e he).2 t ht

end WeightedAutomata.Automaton
