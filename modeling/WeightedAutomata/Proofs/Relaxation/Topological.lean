import WeightedAutomata.Proofs.Relaxation.Expansions

/-!
Searches in topological order. All that is pending comes after the state that leaves the frontier,
and so does all that it leads to, so every state is expanded once.
-/
namespace WeightedAutomata

variable {L S T W : Type} {order : S → S → Ordering}

instance [Std.TransCmp order] : Std.TransCmp (compareRooted order) where
  eq_swap {a b} := by
    cases a with
    | none => cases b <;> rfl
    | some a =>
      cases b with
      | none => rfl
      | some b => exact (Std.OrientedCmp.eq_swap : order a b = (order b a).swap)
  isLE_trans {a b c} hab hbc := by
    cases a with
    | none => cases c <;> rfl
    | some a =>
      cases b with
      | none => cases hab
      | some b =>
        cases c with
        | none => cases hbc
        | some c =>
          have hle : (order a c).isLE := Std.TransCmp.isLE_trans (b := b) hab hbc
          exact hle

variable [BEq S] [Hashable S]

namespace Relaxation

/-- The pending states are listed once, none before one that comes earlier in the order. -/
structure InOrder (order : S → S → Ordering) (r : Relaxation S W) : Prop where
  discipline : r.frontier.discipline = .ordered order
  sorted : r.frontier.Sorted
  nodup : r.frontier.states.Nodup

theorem InOrder.states_sorted {r : Relaxation S W} (h : r.InOrder order) :
    r.frontier.states.Pairwise fun p q => (order p q).isLE :=
  (Frontier.sorted_ordered_iff h.discipline).1 h.sorted

theorem InOrder.start (source : S) (w : W) :
    (start (.ordered order) source w).InOrder order where
  discipline := rfl
  sorted := List.pairwise_singleton _ _
  nodup := List.nodup_singleton source

theorem InOrder.take {r : Relaxation S W} [Zero W] (h : r.InOrder order) {p : S} {f : Frontier S W}
    (hpop : r.frontier.pop? = some (p, f)) : (r.take p f).InOrder order where
  discipline := (Frontier.discipline_of_pop? hpop).trans h.discipline
  sorted := h.sorted.of_pop? hpop
  nodup := by
    have hnodup := h.nodup
    rw [Frontier.states_of_pop? hpop] at hnodup
    exact hnodup.of_cons

theorem InOrder.gain {r : Relaxation S W} [Zero W] [Add W] [LawfulBEq S] [Std.TransCmp order]
    (h : r.InOrder order) (target : S) (delta : W) : (r.gain target delta).InOrder order where
  discipline := (Frontier.discipline_insert ..).trans h.discipline
  sorted := by
    have : Std.TransCmp r.frontier.discipline.rank := by
      rw [h.discipline]
      infer_instance
    exact h.sorted.insert _ _
  nodup := Frontier.nodup_states_insert h.nodup _ _

/-- A state that is pending, or comes after one that is. -/
def Ahead (order : S → S → Ordering) (r : Relaxation S W) (q : S) : Prop :=
  q ∈ r.frontier.states ∨ ∃ p ∈ r.frontier.states, order p q = .lt

section Popped

variable {r : Relaxation S W} {p q : S} {f : Frontier S W}
variable (hpop : r.frontier.pop? = some (p, f))
include hpop

theorem ahead_of_pop? (hq : q ∈ f.states ∨ order p q = .lt) : r.Ahead order q := by
  unfold Ahead
  rw [Frontier.states_of_pop? hpop]
  rcases hq with hq | hq
  · exact .inl (List.mem_cons_of_mem p hq)
  · exact .inr ⟨p, List.mem_cons_self, hq⟩

theorem InOrder.isLE_of_mem (h : r.InOrder order) (hq : q ∈ f.states) : (order p q).isLE := by
  have hsorted := h.states_sorted
  rw [Frontier.states_of_pop? hpop] at hsorted
  exact List.rel_of_pairwise_cons hsorted hq

/-- The state that leaves the frontier comes no later than the others, and is none of them. -/
theorem InOrder.isLE_and_ne [Std.TransCmp order] (h : r.InOrder order)
    (hq : q ∈ f.states ∨ order p q = .lt) : (order p q).isLE ∧ p ≠ q := by
  rcases hq with hq | hq
  · have hnodup := h.nodup
    rw [Frontier.states_of_pop? hpop, List.nodup_cons] at hnodup
    exact ⟨h.isLE_of_mem hpop hq, fun heq => hnodup.1 (heq ▸ hq)⟩
  · refine ⟨by rw [hq]; rfl, ?_⟩
    rintro rfl
    have hself : order p p = .eq := Std.ReflCmp.compare_self
    rw [hself] at hq
    cases hq

end Popped

end Relaxation

open Relaxation

namespace Automaton

section Search

variable [Zero W] [Add W] [Mul W] [BEq W] [LawfulBEq S] [Std.TransCmp order]
variable {Q : Automaton Id L S T W} (hup : ∀ s, ∀ t ∈ Q.leaving s, order s (Q.target t) = .lt)
variable {converged : Convergence W} {r : Relaxation S W}
include hup

/-- What is pending after the state `p` was pending before or comes after `p`. -/
theorem inOrder_relaxed (h : r.InOrder order) {p : S} {f : Frontier S W}
    (hpop : r.frontier.pop? = some (p, f)) : (Q.relaxed converged r p f).InOrder order ∧
      ∀ s ∈ (Q.relaxed converged r p f).frontier.states, s ∈ f.states ∨ order p s = .lt := by
  have htake : (r.take p f).InOrder order ∧
      ∀ s ∈ (r.take p f).frontier.states, s ∈ f.states ∨ order p s = .lt :=
    ⟨h.take hpop, fun s hs => .inl hs⟩
  unfold Automaton.relaxed
  split
  · exact htake
  · refine carry_keeps (P := fun r => r.InOrder order ∧
      ∀ s ∈ r.frontier.states, s ∈ f.states ∨ order p s = .lt) (fun r hr t ht => ⟨?_, ?_⟩) htake
    · exact hr.1.gain _ _
    · intro s hs
      rcases Frontier.mem_states_insert.1 hs with rfl | hs
      · exact .inr (hup p t ht)
      · exact hr.2 s hs

theorem mem_or_lt_of_ahead (h : r.InOrder order) {p q : S} {f : Frontier S W}
    (hpop : r.frontier.pop? = some (p, f)) (hq : (Q.relaxed converged r p f).Ahead order q) :
    q ∈ f.states ∨ order p q = .lt := by
  obtain ⟨-, hpending⟩ := inOrder_relaxed hup h hpop
  rcases hq with hq | ⟨s, hs, hsq⟩
  · exact hpending q hq
  · rcases hpending s hs with hs | hps
    · exact .inr (Std.TransCmp.lt_of_isLE_of_lt (h.isLE_of_mem hpop hs) hsq)
    · exact .inr (Std.TransCmp.lt_trans hps hsq)

/-- What is expanded lies ahead, and comes in order. -/
theorem expansions_inOrder (h : r.InOrder order) (budget : ℕ) :
    (∀ q ∈ Q.expansions converged budget r, r.Ahead order q) ∧
      (Q.expansions converged budget r).Pairwise fun p q => (order p q).isLE ∧ p ≠ q := by
  induction budget generalizing r with
  | zero => exact ⟨List.forall_mem_nil _, .nil⟩
  | succ budget ih =>
    rw [expansions]
    cases hpop : r.frontier.pop? with
    | none => exact ⟨List.forall_mem_nil _, .nil⟩
    | some next =>
      obtain ⟨p, f⟩ := next
      obtain ⟨hahead, hrest⟩ := ih (r := Q.relaxed converged r p f) (inOrder_relaxed hup h hpop).1
      have hlater (q : S) (hq : q ∈ Q.expansions converged budget (Q.relaxed converged r p f)) :
          q ∈ f.states ∨ order p q = .lt := mem_or_lt_of_ahead hup h hpop (hahead q hq)
      have hall (q : S) (hq : q ∈ Q.expansions converged budget (Q.relaxed converged r p f)) :
          r.Ahead order q := ahead_of_pop? hpop (hlater q hq)
      dsimp only
      split
      · exact ⟨hall, hrest⟩
      · refine ⟨List.forall_mem_cons.2 ⟨.inl ?_, hall⟩, List.pairwise_cons.2 ⟨?_, hrest⟩⟩
        · rw [Frontier.states_of_pop? hpop]
          exact List.mem_cons_self
        · exact fun q hq => h.isLE_and_ne hpop (hlater q hq)

/-- A search in a topological order expands no state twice, and none after one that comes later. -/
theorem expanded_inOrder (horder : Q.order = some order) (budget : ℕ)
    (converged : Convergence W) (source : S) :
    (Q.expanded budget ⟨.topological, converged⟩ source).Pairwise fun p q =>
      (order p q).isLE ∧ p ≠ q := by
  rw [expanded_eq, horder]
  split
  · exact .nil
  · exact (expansions_inOrder hup (.start source (Q.entry source)) budget).2

end Search

omit [BEq S] [Hashable S] in
theorem Lawful.ascends_singleInitial [Zero W] [One W] [Add W] [Mul W] {A : Automaton Id L S T W}
    (hA : A.Lawful) (hup : ∀ s, ∀ t ∈ A.leaving s, order (A.source t) (A.target t) = .lt)
    (s : Option S) : ∀ t ∈ A.singleInitial.leaving s,
      compareRooted order s (A.singleInitial.target t) = .lt := by
  intro t ht
  cases s with
  | none => rfl
  | some s =>
    obtain ⟨u, hu, rfl⟩ := List.mem_map.1 ht
    have hlt := hup s u hu
    rwa [hA.source_eq s u hu] at hlt

/-- Where a topological order is known, every state is expanded once, and none after one that comes
later in the order, whatever the notion of convergence and however long the search has run. The
search from all initial states does so with the states of the single-initial view: it asks for the
transitions that leave each initial state, all together, and for those that leave each state. -/
theorem topological_expands_once [Zero W] [One W] [Add W] [Mul W] [BEq W] [LawfulBEq S]
    (A : Automaton Id L S T W) (hA : A.Lawful) (order : S → S → Ordering) [Std.TransCmp order]
    (horder : A.order = some order)
    (hup : ∀ s, ∀ t ∈ A.leaving s, order (A.source t) (A.target t) = .lt)
    (converged : Convergence W) (budget : ℕ) :
    (∀ source, (A.expanded budget ⟨.topological, converged⟩ source).Nodup ∧
      (A.expanded budget ⟨.topological, converged⟩ source).Pairwise fun p q => (order p q).isLE) ∧
    (A.singleInitial.expanded budget ⟨.topological, converged⟩ none).Nodup ∧
    (A.singleInitial.expanded budget ⟨.topological, converged⟩ none).Pairwise
      (fun p q => (compareRooted order p q).isLE) ∧
    (A.recorded.distancesFromInitial budget ⟨.topological, converged⟩).log =
      (A.singleInitial.expanded budget ⟨.topological, converged⟩ none).flatMap
        fun s => s.elim A.starts ([·]) := by
  have hplain (s : S) (t : T) (ht : t ∈ A.leaving s) : order s (A.target t) = .lt := by
    have hlt := hup s t ht
    rwa [hA.source_eq s t ht] at hlt
  have hrooted := expanded_inOrder (hA.ascends_singleInitial hup)
    (congrArg (Option.map compareRooted) horder) budget converged none
  refine ⟨fun source => ?_, hrooted.imp And.right, hrooted.imp And.left, ?_⟩
  · have hsource := expanded_inOrder hplain horder budget converged source
    exact ⟨hsource.imp And.right, hsource.imp And.left⟩
  · exact A.log_distancesFromInitial budget _

/-- The two states between the first and the last are on the same level. -/
def compareLevels (a b : Bool × Bool) : Ordering :=
  compare (a.1.toNat + a.2.toNat) (b.1.toNat + b.2.toNat)

/-- Two ways round, and a transition that cuts across from the first state to the last. -/
def rhombus : Automaton Id Unit (Bool × Bool) ((Bool × Bool) × (Bool × Bool)) ℕ where
  initialStates := pure [(false, false)]
  outgoing s := pure ((match s with
    | (false, false) => [(true, true), (true, false), (false, true)]
    | (true, true) => []
    | _ => [(true, true)]).map fun q => (s, q))
  initialWeight s := pure (if s = (false, false) then 1 else 0)
  finalWeight s := pure (if s = (true, true) then 1 else 0)
  weight _ := pure 1
  source := Prod.fst
  target := Prod.snd
  label _ := none
  order := some compareLevels

theorem rhombus_expands_once :
    rhombus.Lawful ∧ Std.TransCmp compareLevels ∧ rhombus.order = some compareLevels ∧
    (∀ s, ∀ t ∈ rhombus.leaving s, compareLevels (rhombus.source t) (rhombus.target t) = .lt) ∧
    (∀ source, (rhombus.expanded 5 ⟨.topological, .exact⟩ source).Nodup ∧
      (rhombus.expanded 5 ⟨.topological, .exact⟩ source).Pairwise fun p q =>
        (compareLevels p q).isLE) ∧
    (rhombus.singleInitial.expanded 5 ⟨.topological, .exact⟩ none).Nodup ∧
    (rhombus.singleInitial.expanded 5 ⟨.topological, .exact⟩ none).Pairwise
      (fun p q => (compareRooted compareLevels p q).isLE) ∧
    (rhombus.recorded.distancesFromInitial 5 ⟨.topological, .exact⟩).log =
      (rhombus.singleInitial.expanded 5 ⟨.topological, .exact⟩ none).flatMap
        fun s => s.elim rhombus.starts ([·]) := by
  have hlawful : rhombus.Lawful := by
    refine ⟨by decide, ?_, ?_⟩ <;> rintro ⟨_ | _, _ | _⟩ <;> decide
  have htrans : Std.TransCmp compareLevels :=
    transCmp_comap compare fun a : Bool × Bool => a.1.toNat + a.2.toNat
  have hup : ∀ s, ∀ t ∈ rhombus.leaving s,
      compareLevels (rhombus.source t) (rhombus.target t) = .lt := by
    rintro ⟨_ | _, _ | _⟩ <;> decide
  exact ⟨hlawful, htrans, rfl, hup,
    topological_expands_once rhombus hlawful compareLevels rfl hup .exact 5⟩

end Automaton

end WeightedAutomata
