import WeightedAutomata.Proofs.Loop
import WeightedAutomata.Proofs.Paths.Sums
import WeightedAutomata.Proofs.Relaxation.Schedules

/-!
Exact relaxation adds up the weights of the paths, in whatever order the states leave the frontier.
The residuals carried on so far account for the distances from both ends: they are what the states
have received, up to the residuals still to be carried.
-/
namespace WeightedAutomata

variable {m : Type → Type} {L S T W : Type} [BEq S] [LawfulBEq S] [Hashable S]
variable [Semiring W] [BEq W] [LawfulBEq W]
variable {Q : Automaton Id L S T W} {R : S → Prop} {size : S → ℕ}

namespace Relaxation

variable {r : Relaxation S W} {base : S → W}

theorem distance_receive (target q : S) (delta : W) :
    (r.receive target delta).distance q = r.distance q + delta * indicator q target := by
  unfold receive
  by_cases hq : target = q
  · subst hq
    rw [indicator_self, mul_one]
    split
    · next hz =>
      rw [eq_of_beq hz, add_zero]
    · by_cases heq : r.distance target + delta = r.distance target
      · rw [improve_of_eq heq, heq]
      · rw [distance_improve heq, if_pos (beq_self_eq_true target)]
  · rw [indicator_of_ne hq, mul_zero, add_zero]
    split
    · rfl
    · by_cases heq : r.distance target + delta = r.distance target
      · rw [improve_of_eq heq]
      · rw [distance_improve heq, if_neg (by simpa using hq)]

/-- What a state has received beyond a fixed part of its distance is its residual. -/
theorem balance_receive (hb : ∀ q, r.distance q = base q + r.residual q) (target q : S) (delta : W) :
    (r.receive target delta).distance q = base q + (r.receive target delta).residual q := by
  unfold receive
  split
  · exact hb q
  · by_cases heq : r.distance target + delta = r.distance target
    · rw [improve_of_eq heq]
      exact hb q
    · rw [distance_improve heq, residual_improve heq]
      split
      · next hq =>
        rw [hb target, eq_of_beq hq, add_assoc]
      · exact hb q

theorem sum_states_receive_le (size : S → ℕ) (target : S) (delta : W) :
    ((r.receive target delta).frontier.states.map size).sum ≤
      (r.frontier.states.map size).sum + size target := by
  unfold receive
  split
  · exact Nat.le_add_right _ _
  · by_cases heq : r.distance target + delta = r.distance target
    · rw [improve_of_eq heq]
      exact Nat.le_add_right _ _
    · rw [frontier_improve heq]
      exact Frontier.sum_states_insert_le _ _ _ _

end Relaxation

open Relaxation

namespace Automaton

section Carry

variable {r : Relaxation S W} {ρ : W}

theorem distance_carry (ts : List T) (q : S) : (Q.carry .exact ρ r ts).distance q =
    r.distance q + ρ * (ts.map fun t => Q.cost t * indicator q (Q.target t)).sum := by
  induction ts generalizing r with
  | nil => simp [carry]
  | cons t ts ih =>
    rw [carry_cons, ih, distance_receive, List.map_cons, List.sum_cons, mul_add, mul_assoc,
      add_assoc]

theorem balance_carry {base : S → W} (hb : ∀ q, r.distance q = base q + r.residual q)
    (ts : List T) (q : S) : (Q.carry .exact ρ r ts).distance q =
      base q + (Q.carry .exact ρ r ts).residual q := by
  induction ts generalizing r with
  | nil => exact hb q
  | cons t ts ih => exact ih fun q => balance_receive hb _ q _

variable (Q r ρ) in
theorem sum_states_carry_le (size : S → ℕ) (ts : List T) :
    ((Q.carry .exact ρ r ts).frontier.states.map size).sum ≤
      (r.frontier.states.map size).sum + (ts.map fun t => size (Q.target t)).sum := by
  induction ts generalizing r with
  | nil => exact Nat.le_add_right _ _
  | cons t ts ih =>
    have hrest := ih (r.receive (Q.target t) (ρ * Q.cost t))
    have hone := sum_states_receive_le (r := r) size (Q.target t) (ρ * Q.cost t)
    rw [carry_cons, List.map_cons, List.sum_cons]
    omega

end Carry

/-- The account of a relaxation from `source`: the distances are what the residuals carried on so
far have brought, and they are carried on in turn or still residual. -/
structure Account (Q : Automaton Id L S T W) (R : S → Prop) (source : S) (r : Relaxation S W)
    (carried : List (S × W)) : Prop where
  pends : r.Pends R
  inside : ∀ e ∈ carried, R e.1
  received : ∀ q, r.distance q =
    Q.entry source * indicator q source + weigh carried (Q.onward (indicator q))
  kept : ∀ q, r.distance q = weigh carried (indicator q) + r.residual q

omit [Hashable S] [BEq W] [LawfulBEq W] in
theorem mul_indicator (w : W) (s q : S) : w * indicator q s = if s == q then w else 0 := by
  split
  · next hq => rw [eq_of_beq hq, indicator_self, mul_one]
  · next hq =>
    have hne : s ≠ q := by simpa using hq
    rw [indicator_of_ne hne, mul_zero]

namespace Account

variable {source : S} {r r' : Relaxation S W} {carried : List (S × W)}

omit [BEq W] [LawfulBEq W] in
theorem start (discipline : Discipline S W) (hs : R source) :
    Q.Account R source (Relaxation.start discipline source (Q.entry source)) [] where
  pends := .start discipline _ hs
  inside := nofun
  received q := by rw [distance_start, weigh_nil, add_zero, mul_indicator]
  kept q := by rw [distance_start, residual_start, weigh_nil, zero_add]

/-- Whichever state leaves the frontier, what it carries on goes to the account. -/
theorem relaxed (h : Q.Account R source r carried) (hc : Q.Closed R) {p : S} {f : Frontier S W}
    (hleaves : r.frontier.states.Perm (p :: f.states)) :
    ∃ carried', Q.Account R source (Q.relaxed .exact r p f) carried' := by
  have hp : R p := h.pends.inside p (hleaves.mem_iff.2 List.mem_cons_self)
  have htake := h.pends.take_of_perm hleaves
  let base (q : S) : W := weigh carried (indicator q) + r.residual p * indicator q p
  have hkept (q : S) : (r.take p f).distance q = base q + (r.take p f).residual q := by
    simp only [base]
    rw [distance_take, h.kept, residual_take, mul_indicator]
    split
    · next hq => rw [eq_of_beq hq, add_zero]
    · rw [add_zero]
  rcases relaxed_cases Q .exact r p f with ⟨hz, hr⟩ | ⟨-, hr⟩
  · rw [hr]
    refine ⟨carried, htake, h.inside, h.received, fun q => ?_⟩
    have hq := hkept q
    simp only [base] at hq
    rwa [hz, zero_mul, add_zero] at hq
  · rw [hr]
    refine ⟨carried ++ [(p, r.residual p)], pends_carry htake (hc p hp), ?_, ?_, ?_⟩
    · intro e he
      rcases List.mem_append.1 he with he | he
      · exact h.inside e he
      · rw [List.mem_singleton.1 he]
        exact hp
    · intro q
      rw [distance_carry, distance_take, h.received, weigh_append, weigh_cons, weigh_nil, add_zero,
        ← add_assoc]
      rfl
    · intro q
      rw [weigh_append, weigh_cons, weigh_nil, add_zero]
      exact balance_carry hkept _ q

theorem advance (h : Q.Account R source r carried) (hc : Q.Closed R)
    (hr : Q.advance .exact r = some r') : ∃ carried', Q.Account R source r' carried' := by
  obtain ⟨p, f, hpop, rfl⟩ := exists_relaxed_of_advance hr
  exact h.relaxed hc (.of_eq (Frontier.states_of_pop? hpop))

/-- A state off the frontier makes room for its targets. -/
theorem sum_states_advance_lt (h : Q.Account R source r carried) (hb : Q.Bounded R size)
    (hr : Q.advance .exact r = some r') :
    (r'.frontier.states.map size).sum < (r.frontier.states.map size).sum := by
  obtain ⟨p, f, hpop, hr⟩ := advance_eq_some hr
  have hstates : r.frontier.states = p :: f.states := Frontier.states_of_pop? hpop
  have hp : R p := h.pends.inside p (by simp [hstates])
  have hlt := hb.sum_lt p hp
  have hsum : (r.frontier.states.map size).sum = size p + (f.states.map size).sum := by
    simp [hstates]
  rw [hsum]
  rcases hr with ⟨-, rfl⟩ | rfl
  · exact Nat.lt_add_of_pos_left (lt_of_le_of_lt (Nat.zero_le _) hlt)
  · have hle := sum_states_carry_le Q (r.take p f) (r.residual p) size (Q.leaving p)
    exact lt_of_le_of_lt hle (by change (f.states.map size).sum + _ < _; omega)

omit [LawfulBEq S] [BEq W] [LawfulBEq W] in
/-- Once nothing is left to carry, sums over the carried residuals are sums over paths. -/
theorem weigh_eq (h : Q.Account R source r carried) (hb : Q.Bounded R size) (hs : R source)
    (hz : ∀ q, r.residual q = 0) (g : S → W) :
    weigh carried g = Q.entry source * Q.pathSum (size source) g source := by
  have hround (g : S → W) :
      weigh carried g = Q.entry source * g source + weigh carried (Q.onward g) := by
    rw [← weigh_flatMap_leaving, ← weigh_cons g (source, Q.entry source)]
    apply weigh_eq_of_indicator g
    intro q
    rw [weigh_cons, weigh_flatMap_leaving, ← h.received, h.kept, hz, add_zero]
  let n := size source + (carried.map fun e => size e.1).sum
  have hlast : weigh carried (Q.onward^[n] g) = 0 := by
    refine weigh_zero _ fun e he => hb.onward_iterate_eq_zero g (h.inside e he) ?_
    have hle : size e.1 ≤ (carried.map fun e => size e.1).sum :=
      List.le_sum_of_mem (List.mem_map.2 ⟨e, he, rfl⟩)
    omega
  rw [Q.weigh_eq_pathSum_add hround n g, hlast, add_zero,
    hb.pathSum_eq g hs (Nat.le_add_right _ _)]

end Account

/-- Distances that are the totals of weighted states of `R`. -/
structure Tallies (d : Distances S W) (R : S → Prop) (ws : List (S × W)) : Prop where
  getD_eq : ∀ q, d.getD q 0 = weigh ws (indicator q)
  known : ∀ q ∈ d, R q
  inside : ∀ e ∈ ws, R e.1

theorem Answers.distances_eq [Monad m] [LawfulMonad m] [StepLimited m] {A : Automaton m L S T W}
    (h : A.Answers Q R) (hb : Q.Bounded R size) (queue : Queue W) {source : S} (hs : R source) :
    ∃ d ws, Tallies d R ws ∧
      (∀ g, weigh ws g = Q.entry source * Q.pathSum (size source) g source) ∧
      ∀ budget, size source < budget → A.distances budget ⟨queue, .exact⟩ source = pure d := by
  by_cases hz : Q.entry source = 0
  · exact ⟨∅, [], ⟨fun q => by simp, fun q hq => by simp at hq, nofun⟩, fun g => by simp [hz],
      fun budget _ => h.distances_eq_empty _ hs hz budget⟩
  · have hstart := Account.start (Q := Q) (queue.discipline A.order) hs
    obtain ⟨r, ⟨ws, hr⟩, hdone, hrun⟩ := untilDone_eq_pure (A.relaxNext .exact)
      (Q.advance .exact) (fun r => ∃ ws, Q.Account R source r ws)
      (fun r => (r.frontier.states.map size).sum)
      (fun r ⟨_, hr⟩ => h.relaxNext .exact hr.pends.inside)
      (fun r r' ⟨_, hr⟩ hnext =>
        ⟨hr.advance hb.closed hnext, hr.sum_states_advance_lt hb hnext⟩) ⟨[], hstart⟩
    have hzero := hr.pends.residual_eq_zero (advance_eq_none hdone)
    refine ⟨r.distances, ws, ⟨fun q => ?_, hr.pends.known, hr.inside⟩, hr.weigh_eq hb hs hzero,
      fun budget hbudget => ?_⟩
    · have hq := hr.kept q
      rwa [hzero, add_zero] at hq
    · exact h.distances_eq_pure hs hz (hrun budget (by simpa [states_start] using hbudget))

end Automaton

end WeightedAutomata
