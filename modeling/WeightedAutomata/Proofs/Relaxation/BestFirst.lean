import WeightedAutomata.Proofs.BestWeights
import WeightedAutomata.Proofs.Costs
import WeightedAutomata.Proofs.Relaxation.Topological

/-!
Best-first search where a sum is the better of its summands and no transition makes a weight better.
All of the distance of a pending state is still to be carried on, and nothing that is pending is
better than the state that leaves the frontier. So what has left it stays as it is, and is not
expanded again.
-/
namespace WeightedAutomata

variable {L S T W : Type}

variable [BEq S] [Hashable S]

namespace Relaxation

variable [Ord W]

/-- The pending states are listed once with their distances, none before one that is better, and a
state has its distance to carry on while it is pending and nothing when it is not. -/
structure BestFirst [Zero W] (r : Relaxation S W) : Prop where
  discipline : r.frontier.discipline = .bestFirst compare
  sorted : r.frontier.Sorted
  nodup : r.frontier.states.Nodup
  ranked : ∀ e ∈ r.frontier.pending, e.2 = r.distance e.1
  whole : ∀ s ∈ r.frontier.states, r.residual s = r.distance s
  spent : ∀ s, s ∉ r.frontier.states → r.residual s = 0

/-- No pending state is better than `w`. -/
def NoneBetter [Zero W] (w : W) (r : Relaxation S W) : Prop :=
  ∀ s ∈ r.frontier.states, (compare w (r.distance s)).isLE

/-- A state that is not pending and no worse than `w`. -/
def Past [Zero W] (w : W) (r : Relaxation S W) (s : S) : Prop :=
  s ∉ r.frontier.states ∧ (compare (r.distance s) w).isLE

namespace BestFirst

variable [LawfulBEq S]

theorem start [Zero W] (source : S) (w : W) :
    (Relaxation.start (.bestFirst compare) source w).BestFirst where
  discipline := rfl
  sorted := List.pairwise_singleton _ _
  nodup := List.nodup_singleton source
  ranked e he := by
    obtain rfl := List.mem_singleton.1 he
    rw [distance_start, if_pos (beq_self_eq_true source)]
  whole s _ := by rw [residual_start, distance_start]
  spent s hs := by
    rw [states_start, List.mem_singleton] at hs
    rw [residual_start, if_neg (by simpa using Ne.symm hs)]

section Popped

variable [Zero W] {r : Relaxation S W} {p : S} {f : Frontier S W}
variable (hpop : r.frontier.pop? = some (p, f)) (h : r.BestFirst)
include hpop h

omit [LawfulBEq S] in
theorem residual_of_pop? : r.residual p = r.distance p :=
  h.whole p (by rw [Frontier.states_of_pop? hpop]; exact List.mem_cons_self)

omit [LawfulBEq S] in
/-- What stays pending is no better than what leaves. -/
theorem isLE_of_pop? {q : S} (hq : q ∈ f.states) :
    (compare (r.distance p) (r.distance q)).isLE := by
  obtain ⟨w, hpending⟩ := Frontier.pending_of_pop? hpop
  obtain ⟨e, he, rfl⟩ := List.mem_map.1 hq
  have hsorted := h.sorted
  rw [Frontier.Sorted, h.discipline, hpending] at hsorted
  have hle : (compare w e.2).isLE := List.rel_of_pairwise_cons hsorted he
  have hp : w = r.distance p := h.ranked (p, w) (by rw [hpending]; exact List.mem_cons_self)
  rwa [hp, h.ranked e (by rw [hpending]; exact List.mem_cons_of_mem _ he)] at hle

theorem take : (r.take p f).BestFirst where
  discipline := (Frontier.discipline_of_pop? hpop).trans h.discipline
  sorted := h.sorted.of_pop? hpop
  nodup := by
    have hnodup := h.nodup
    rw [Frontier.states_of_pop? hpop] at hnodup
    exact hnodup.of_cons
  ranked e he := by
    obtain ⟨w, hpending⟩ := Frontier.pending_of_pop? hpop
    exact h.ranked e (by rw [hpending]; exact List.mem_cons_of_mem _ he)
  whole s hs := by
    have hnodup := h.nodup
    rw [Frontier.states_of_pop? hpop, List.nodup_cons] at hnodup
    have hne : p ≠ s := fun heq => hnodup.1 (heq ▸ hs)
    rw [residual_take, if_neg (by simpa using hne)]
    exact h.whole s (by rw [Frontier.states_of_pop? hpop]; exact List.mem_cons_of_mem p hs)
  spent s hs := by
    rw [residual_take]
    split
    · rfl
    · next hne =>
      refine h.spent s fun hmem => ?_
      rw [Frontier.states_of_pop? hpop] at hmem
      rcases List.mem_cons.1 hmem with rfl | hmem
      · exact hne (beq_self_eq_true s)
      · exact hs hmem

end Popped

variable [Semiring W] [Std.TransOrd W] {r : Relaxation S W}

/-- A weight that changes a distance takes its place, as the better one. -/
theorem gain (h : r.BestFirst) {target : S} {delta : W}
    (hdelta : r.distance target + delta = delta) : (r.gain target delta).BestFirst := by
  have hreschedules : r.frontier.discipline.reschedules = true := by
    rw [h.discipline]
    rfl
  have hdist (s : S) : (r.gain target delta).distance s =
      if target == s then delta else r.distance s := by rw [distance_gain, hdelta]
  have hfrontier : (r.gain target delta).frontier = r.frontier.insert target delta :=
    congrArg (r.frontier.insert target) hdelta
  have hpending := Frontier.pending_insert (s := target) h.nodup (fun _ => hreschedules) delta
  have hresidual (s : S) : (r.gain target delta).residual s =
      if target == s then delta else r.residual s := by
    rw [residual_gain]
    by_cases ht : target ∈ r.frontier.states
    · rw [h.whole target ht, hdelta]
    · rw [h.spent target ht, zero_add]
  refine ⟨(Frontier.discipline_insert ..).trans h.discipline, ?_,
    Frontier.nodup_states_insert h.nodup _ _, fun e he => ?_, fun s hs => ?_, fun s hs => ?_⟩
  · have : Std.TransCmp r.frontier.discipline.rank := by
      rw [h.discipline]
      infer_instance
    exact h.sorted.insert _ _
  · rw [hfrontier, hpending, (Frontier.place_perm ..).mem_iff, List.mem_cons, List.mem_filter] at he
    rcases he with rfl | ⟨he, hne⟩
    · rw [hdist, if_pos (beq_self_eq_true target)]
    · rw [hdist, if_neg (by simpa using Ne.symm (bne_iff_ne.1 hne)), h.ranked e he]
  · rw [hresidual, hdist]
    split
    · rfl
    · next hne =>
      refine h.whole s ((Frontier.mem_states_insert.1 hs).resolve_left ?_)
      rintro rfl
      exact hne (beq_self_eq_true s)
  · obtain ⟨hne, hs⟩ := not_or.1 (mt Frontier.mem_states_insert.2 hs)
    rw [hresidual, if_neg (by simpa using Ne.symm hne), h.spent s hs]

end BestFirst

end Relaxation

open Relaxation

namespace Automaton

variable [Semiring W] [Ord W] [BEq W]

/-- The states that a relaxation expands within a budget of steps, one after another, with the
distances they have then. -/
def settling (Q : Automaton Id L S T W) (converged : Convergence W) :
    ℕ → Relaxation S W → List (S × W)
  | 0, _ => []
  | budget + 1, r =>
    match r.frontier.pop? with
    | none => []
    | some (p, f) =>
      (if r.residual p == 0 then [] else [(p, r.distance p)]) ++
        Q.settling converged budget (Q.relaxed converged r p f)

/-- What a best-first search from `source` expands, with the distances at the time. -/
def settlements (Q : Automaton Id L S T W) (budget : ℕ) (source : S) : List (S × W) :=
  if Q.entry source == 0 then []
  else Q.settling .exact budget (.start (.bestFirst compare) source (Q.entry source))

omit [Ord W] in
theorem map_fst_settling (Q : Automaton Id L S T W) (converged : Convergence W) (budget : ℕ)
    (r : Relaxation S W) :
    (Q.settling converged budget r).map Prod.fst = Q.expansions converged budget r := by
  induction budget generalizing r with
  | zero => rfl
  | succ budget ih =>
    rw [settling, expansions]
    cases r.frontier.pop? with
    | none => rfl
    | some next =>
      obtain ⟨p, f⟩ := next
      dsimp only
      rw [List.map_append, ih]
      split <;> rfl

theorem map_fst_settlements (Q : Automaton Id L S T W) (budget : ℕ) (source : S) :
    (Q.settlements budget source).map Prod.fst = Q.expanded budget .bestFirst source := by
  rw [expanded_eq, settlements]
  split
  · rfl
  · exact Q.map_fst_settling .exact budget _

section Search

variable [LawfulBEq S] [LawfulBEq W] [Std.TransOrd W] [Std.LawfulEqOrd W]
variable {Q : Automaton Id L S T W} (hadd : PicksBetter W)
variable (hworse : ∀ s, ∀ t ∈ Q.leaving s, ∀ a : W, (compare a (a * Q.cost t)).isLE)
variable {r r' : Relaxation S W} {p : S} {f : Frontier S W} {w : W}
include hadd hworse

/-- No transition leads to anything better than the state that leaves the frontier, and whatever is
past by then stays as it is. -/
theorem bestFirst_relaxed (h : r.BestFirst) (hpop : r.frontier.pop? = some (p, f)) :
    (Q.relaxed .exact r p f).BestFirst ∧ (Q.relaxed .exact r p f).NoneBetter (r.distance p) ∧
      ∀ q, (r.take p f).Past (r.distance p) q → q ∉ (Q.relaxed .exact r p f).frontier.states ∧
        (Q.relaxed .exact r p f).distance q = r.distance q := by
  have htake : (r.take p f).BestFirst ∧ (r.take p f).NoneBetter (r.distance p) ∧
      ∀ q, (r.take p f).Past (r.distance p) q →
        q ∉ (r.take p f).frontier.states ∧ (r.take p f).distance q = r.distance q :=
    ⟨h.take hpop, fun q hq => h.isLE_of_pop? hpop hq, fun q hq => ⟨hq.1, rfl⟩⟩
  unfold Automaton.relaxed
  split
  · exact htake
  · rw [h.residual_of_pop? hpop]
    refine carry_keeps_of_open (P := fun r' => r'.BestFirst ∧ r'.NoneBetter (r.distance p) ∧
      ∀ q, (r.take p f).Past (r.distance p) q →
        q ∉ r'.frontier.states ∧ r'.distance q = r.distance q) ?_ htake
    rintro r' ⟨hbest, hnone, hpast⟩ t ht - hopen
    have hne : r'.distance (Q.target t) + r.distance p * Q.cost t ≠ r'.distance (Q.target t) := by
      intro heq
      rw [heq] at hopen
      exact absurd (beq_self_eq_true _) (Bool.eq_false_iff.1 hopen)
    have hdelta : r'.distance (Q.target t) + r.distance p * Q.cost t = r.distance p * Q.cost t :=
      (hadd _ _).1.resolve_left hne
    have hle : (compare (r.distance p) (r.distance p * Q.cost t)).isLE := hworse p t ht _
    refine ⟨hbest.gain hdelta, fun q hq => ?_, fun q hq => ?_⟩
    · rw [distance_gain, hdelta]
      split
      · exact hle
      · next htarget =>
        refine hnone q ((Frontier.mem_states_insert.1 hq).resolve_left ?_)
        rintro rfl
        exact htarget (beq_self_eq_true _)
    · obtain ⟨hout, hsame⟩ := hpast q hq
      -- what is past is no worse than `delta`, so `delta` would not have changed it
      have htarget : Q.target t ≠ q := by
        rintro rfl
        apply hne
        rw [add_comm]
        exact hadd.add_eq_right (Std.TransCmp.isLE_trans (hsame ▸ hq.2) hle)
      rw [distance_gain, if_neg (by simpa using htarget)]
      exact ⟨fun hmem => (Frontier.mem_states_insert.1 hmem).elim (Ne.symm htarget) hout, hsame⟩

theorem past_relaxed (h : r.BestFirst) (hpop : r.frontier.pop? = some (p, f)) {q : S}
    (hq : (r.take p f).Past (r.distance p) q) :
    (Q.relaxed .exact r p f).Past (r.distance p) q ∧
      (Q.relaxed .exact r p f).distance q = r.distance q := by
  obtain ⟨hout, hsame⟩ := (bestFirst_relaxed hadd hworse h hpop).2.2 q hq
  exact ⟨⟨hout, hsame ▸ hq.2⟩, hsame⟩

omit hadd hworse [LawfulBEq S] [LawfulBEq W] [BEq W] [Std.LawfulEqOrd W] in
theorem past_take (hpop : r.frontier.pop? = some (p, f)) (hw : r.NoneBetter w) {q : S}
    (hq : r.Past w q) : (r.take p f).Past (r.distance p) q := by
  have hstates := Frontier.states_of_pop? hpop
  refine ⟨fun hmem => hq.1 (by rw [hstates]; exact List.mem_cons_of_mem p hmem), ?_⟩
  exact Std.TransCmp.isLE_trans hq.2 (hw p (by rw [hstates]; exact List.mem_cons_self))

omit hadd hworse [LawfulBEq S] [LawfulBEq W] [BEq W] [Std.LawfulEqOrd W] in
theorem past_take_self (h : r.BestFirst) (hpop : r.frontier.pop? = some (p, f)) :
    (r.take p f).Past (r.distance p) p := by
  have hnodup := h.nodup
  rw [Frontier.states_of_pop? hpop, List.nodup_cons] at hnodup
  exact ⟨hnodup.1, Std.ReflCmp.isLE_rfl⟩

/-- What is past keeps its distance to the end of the run. -/
theorem distance_of_past (h : r.BestFirst) (hw : r.NoneBetter w) {q : S} (hq : r.Past w q)
    (hrun : Q.Leads .exact r r') : r'.distance q = r.distance q := by
  induction hrun using Relation.ReflTransGen.head_induction_on generalizing w with
  | refl => rfl
  | @head a b hstep _ ih =>
    obtain ⟨p, f, hpop, rfl⟩ := exists_relaxed_of_advance hstep
    obtain ⟨hbest, hnone, -⟩ := bestFirst_relaxed hadd hworse h hpop
    obtain ⟨hpast, hsame⟩ := past_relaxed hadd hworse h hpop (past_take hpop hw hq)
    exact (ih hbest hnone hpast).trans hsame

/-- What is expanded is not past, comes from best to worst and once. -/
theorem settling_inOrder (h : r.BestFirst) (hw : r.NoneBetter w) (budget : ℕ) :
    (∀ e ∈ Q.settling .exact budget r, (compare w e.2).isLE ∧ ¬ r.Past w e.1) ∧
      (Q.settling .exact budget r).Pairwise fun e e' => (compare e.2 e'.2).isLE ∧ e.1 ≠ e'.1 := by
  induction budget generalizing r w with
  | zero => exact ⟨List.forall_mem_nil _, .nil⟩
  | succ budget ih =>
    rw [settling]
    cases hpop : r.frontier.pop? with
    | none => exact ⟨List.forall_mem_nil _, .nil⟩
    | some next =>
      obtain ⟨p, f⟩ := next
      obtain ⟨hbest, hnone, -⟩ := bestFirst_relaxed hadd hworse h hpop
      obtain ⟨hlater, hrest⟩ := ih hbest hnone
      have hmem : p ∈ r.frontier.states := by
        rw [Frontier.states_of_pop? hpop]
        exact List.mem_cons_self
      have hall (e : S × W) (he : e ∈ Q.settling .exact budget (Q.relaxed .exact r p f)) :
          (compare w e.2).isLE ∧ ¬ r.Past w e.1 :=
        ⟨Std.TransCmp.isLE_trans (hw p hmem) (hlater e he).1, fun hpast => (hlater e he).2
          (past_relaxed hadd hworse h hpop (past_take hpop hw hpast)).1⟩
      dsimp only
      split
      · exact ⟨hall, hrest⟩
      · refine ⟨List.forall_mem_cons.2 ⟨⟨hw p hmem, fun hpast => hpast.1 hmem⟩, hall⟩,
          List.pairwise_cons.2 ⟨fun e he => ⟨(hlater e he).1, ?_⟩, hrest⟩⟩
        rintro rfl
        exact (hlater e he).2 (past_relaxed hadd hworse h hpop (past_take_self h hpop)).1

/-- The distance that a state has when it is expanded is the one it has in the end. -/
theorem settling_final (h : r.BestFirst) (hrun : Q.Leads .exact r r')
    (hdone : Q.advance .exact r' = none) (budget : ℕ) :
    ∀ e ∈ Q.settling .exact budget r, e.2 = r'.distance e.1 := by
  induction budget generalizing r with
  | zero => exact List.forall_mem_nil _
  | succ budget ih =>
    rw [settling]
    cases hpop : r.frontier.pop? with
    | none => exact List.forall_mem_nil _
    | some next =>
      obtain ⟨p, f⟩ := next
      have hrest : Q.Leads .exact (Q.relaxed .exact r p f) r' := by
        rcases hrun.cases_head with rfl | ⟨b, hstep, hrest⟩
        · rw [advance_of_pop? hpop] at hdone
          cases hdone
        · rw [advance_of_pop? hpop] at hstep
          cases hstep
          exact hrest
      obtain ⟨hbest, hnone, -⟩ := bestFirst_relaxed hadd hworse h hpop
      obtain ⟨hpast, hsame⟩ := past_relaxed hadd hworse h hpop (past_take_self h hpop)
      have hlast := distance_of_past hadd hworse hbest hnone hpast hrest
      dsimp only
      split
      · exact ih hbest hrest
      · exact List.forall_mem_cons.2 ⟨(hlast.trans hsame).symm, ih hbest hrest⟩

omit hadd [BEq S] [Hashable S] [LawfulBEq S] [BEq W] [LawfulBEq W] [Std.LawfulEqOrd W] in
theorem isLE_mul_pathCost {s : S} {ts : List T} (hts : Q.IsPath s ts) (a : W) :
    (compare a (a * Q.pathCost ts)).isLE := by
  induction ts generalizing s a with
  | nil =>
    rw [pathCost_nil, mul_one]
    exact Std.ReflCmp.isLE_rfl
  | cons t ts ih =>
    rw [pathCost_cons, ← mul_assoc]
    exact Std.TransCmp.isLE_trans (hworse s t hts.1 a) (ih hts.2 _)

/-- Where a sum is the better of its summands and no transition makes a weight better, a best-first
search of finitely many states comes to an end. However long it has run, it has expanded no state
twice, and the states from the best to the worst of the distances that they have in the end, each
of them when it had that distance. -/
theorem bestFirst_settles_once (source : S) (hfinite : (Q.reach source).Finite) :
    ∃ d : Distances S W, (∃ n, ∀ budget, n ≤ budget →
        (Q.lift : Automaton Option L S T W).distances budget .bestFirst source = some d) ∧
      ∀ budget, (Q.expanded budget .bestFirst source).Nodup ∧
        (Q.expanded budget .bestFirst source).Pairwise
          (fun p q => (compare (d.getD p 0) (d.getD q 0)).isLE) ∧
        Q.settlements budget source =
          (Q.expanded budget .bestFirst source).map fun p => (p, d.getD p 0) := by
  have hlift := lift_answers_everywhere Option Q
  have hclosed : Q.Closed (· ∈ hfinite.toFinset) := by
    simpa only [Set.Finite.mem_toFinset] using Q.closed_reach source
  have hsource : source ∈ hfinite.toFinset := hfinite.mem_toFinset.2 ⟨[], trivial, rfl⟩
  have hback (us vs : List T) (hpath : Q.IsPath source (us ++ vs)) :
      (compare (Q.forwardWeight (source, us)) (Q.forwardWeight (source, us ++ vs))).isLE := by
    rw [forwardWeight_append]
    exact isLE_mul_pathCost hworse (isPath_append.1 hpath).2 _
  obtain ⟨d, -, n, hrun⟩ := hlift.distances_bestOf hadd (fun _ _ => trivial) hclosed hsource
    (fun us vs hpath _ => hback us vs hpath) (.bestFirst compare)
  refine ⟨d, ⟨n + 1, fun budget hbudget => hrun budget hbudget⟩, fun budget => ?_⟩
  have hsettled : (Q.settlements budget source).Pairwise
        (fun e e' => (compare e.2 e'.2).isLE ∧ e.1 ≠ e'.1) ∧
      ∀ e ∈ Q.settlements budget source, e.2 = d.getD e.1 0 := by
    unfold settlements
    split
    · exact ⟨.nil, List.forall_mem_nil _⟩
    · next hz =>
      obtain ⟨r, hleads, hdone, rfl⟩ :=
        exists_run_of_distances (by simpa using hz) (hrun (n + 1) (Nat.lt_succ_self n))
      have hstart : (start (.bestFirst compare) source (Q.entry source)).BestFirst := .start source _
      have hnone : (start (.bestFirst compare) source (Q.entry source)).NoneBetter
          (Q.entry source) := by
        intro s hs
        obtain rfl := List.mem_singleton.1 hs
        rw [distance_start, if_pos (beq_self_eq_true s)]
        exact Std.ReflCmp.isLE_rfl
      exact ⟨(settling_inOrder hadd hworse hstart hnone budget).2,
        settling_final hadd hworse hstart hleads hdone budget⟩
  obtain ⟨horder, hfinal⟩ := hsettled
  have hlist : Q.settlements budget source =
      (Q.expanded budget .bestFirst source).map fun p => (p, d.getD p 0) := by
    rw [← map_fst_settlements, List.map_map]
    exact (List.map_id'' (fun e => rfl) _).symm.trans
      (List.map_congr_left fun e he => Prod.ext rfl (hfinal e he))
  rw [hlist, List.pairwise_map] at horder
  exact ⟨horder.imp And.right, horder.imp And.left, hlist⟩

end Search

/-- A dear way to state 1 that is found before a cheap one, and a cycle that costs nothing. -/
def shortCuts : Automaton Id Unit (Fin 5) (Fin 5 × Fin 5) (Tropical (WithTop ℕ)) where
  initialStates := pure [0]
  outgoing s := pure ([(0, 1), (0, 2), (1, 3), (1, 2), (2, 1), (3, 1), (3, 4)].filter (·.1 == s))
  initialWeight s := pure (if s = 0 then 1 else 0)
  finalWeight _ := pure 1
  weight t := pure (if t = (0, 1) then .trop (5 : ℕ)
    else if t ∈ [(0, 2), (2, 1)] then .trop (1 : ℕ) else 1)
  source := Prod.fst
  target := Prod.snd
  label _ := none

theorem picksBetter_costs : PicksBetter (Tropical (WithTop ℕ)) := fun a b =>
  ⟨(le_total a b).imp (fun h => Tropical.add_eq_left h) fun h => Tropical.add_eq_right h,
    Costs.isLE_add a b⟩

theorem bestFirst_shortCuts : PicksBetter (Tropical (WithTop ℕ)) ∧
    (∀ s, ∀ t ∈ shortCuts.leaving s, ∀ a, (compare a (a * shortCuts.cost t)).isLE) ∧
    (shortCuts.reach 0).Finite ∧
    ∃ d : Distances (Fin 5) (Tropical (WithTop ℕ)), (∃ n, ∀ budget, n ≤ budget →
        (shortCuts.lift : Automaton Option _ _ _ _).distances budget .bestFirst 0 = some d) ∧
      ∀ budget, (shortCuts.expanded budget .bestFirst 0).Nodup ∧
        (shortCuts.expanded budget .bestFirst 0).Pairwise
          (fun p q => (compare (d.getD p 0) (d.getD q 0)).isLE) ∧
        shortCuts.settlements budget 0 =
          (shortCuts.expanded budget .bestFirst 0).map fun p => (p, d.getD p 0) := by
  have hworse : ∀ s, ∀ t ∈ shortCuts.leaving s, ∀ a, (compare a (a * shortCuts.cost t)).isLE :=
    fun _ t _ a => Costs.isLE_mul a (shortCuts.cost t)
  have hfinite : (shortCuts.reach 0).Finite := Set.toFinite _
  exact ⟨picksBetter_costs, hworse, hfinite,
    bestFirst_settles_once picksBetter_costs hworse 0 hfinite⟩

end Automaton

end WeightedAutomata
