import WeightedAutomata.Proofs.Frontier.Listed
import WeightedAutomata.Proofs.Relaxation.Schedules

/-!
What a relaxation asks of its frontier. Where no sum is worse than what is added to, the distances
with which a state is inserted never get worse.
-/
namespace WeightedAutomata

variable {L S T W : Type}

/-- No state is inserted with a distance that is worse than an earlier one. -/
def NeverWorse [Ord W] (calls : List (Call S W)) : Prop :=
  calls.Pairwise fun c c' => ∀ s w w', c = .insert s w → c' = .insert s w' → (compare w' w).isLE

variable [BEq S] [Hashable S] [Zero W]

namespace Relaxation

/-- No insertion is worse than an earlier one of its state, nor than the distance of that state in
`r`. -/
structure Improves [Ord W] (r : Relaxation S W) (calls : List (Call S W)) : Prop where
  neverWorse : NeverWorse calls
  current : ∀ s w, .insert s w ∈ calls → (compare w (r.distance s)).isLE

namespace Improves

variable [Ord W] {r : Relaxation S W} {calls : List (Call S W)}

theorem nil (r : Relaxation S W) : r.Improves [] := ⟨.nil, nofun⟩

theorem pop {r' : Relaxation S W} (h : r'.Improves calls) (hsame : r'.distance = r.distance) :
    r.Improves (.pop :: calls) where
  neverWorse := List.pairwise_cons.2 ⟨nofun, h.neverWorse⟩
  current s w hw := hsame ▸ h.current s w ((List.mem_cons.1 hw).resolve_left nofun)

theorem insert [LawfulBEq S] [Add W] [Std.TransOrd W] {target : S} {delta : W}
    (hle : (compare (r.distance target + delta) (r.distance target)).isLE)
    (h : (r.gain target delta).Improves calls) :
    r.Improves (.insert target (r.distance target + delta) :: calls) := by
  have hself : (r.gain target delta).distance target = r.distance target + delta := by
    rw [distance_gain, if_pos (beq_self_eq_true target)]
  refine ⟨List.pairwise_cons.2 ⟨?_, h.neverWorse⟩, fun s w hw => ?_⟩
  · rintro c hc s w w' ⟨⟩ rfl
    exact hself ▸ h.current target w' hc
  · rcases List.mem_cons.1 hw with heq | hw
    · cases heq
      exact hle
    · have hcurrent := h.current s w hw
      rw [distance_gain] at hcurrent
      split at hcurrent
      · next hs => exact Std.TransCmp.isLE_trans hcurrent (eq_of_beq hs ▸ hle)
      · exact hcurrent

end Improves

end Relaxation

namespace Automaton

variable [Add W] [Mul W] [BEq W] (Q : Automaton Id L S T W) (converged : Convergence W)

/-- The insertions by which `residual` is carried along several transitions. -/
def carryCalls (residual : W) : Relaxation S W → List T → List (Call S W)
  | _, [] => []
  | r, t :: ts =>
    let delta := residual * Q.cost t
    let updated := r.distance (Q.target t) + delta
    if delta == 0 || converged (r.distance (Q.target t)) updated then carryCalls residual r ts
    else .insert (Q.target t) updated :: carryCalls residual (r.gain (Q.target t) delta) ts

/-- The relaxation `budget` steps later, or where it ends before. -/
def steps : ℕ → Relaxation S W → Relaxation S W
  | 0, r => r
  | budget + 1, r => (Q.advance converged r).elim r (steps budget)

/-- The insertions once `state` has left the frontier. -/
def relaxedCalls (r : Relaxation S W) (state : S) (frontier : Frontier S W) : List (Call S W) :=
  if r.residual state == 0 then []
  else Q.carryCalls converged (r.residual state) (r.take state frontier) (Q.leaving state)

/-- What the next steps ask of the frontier. -/
def callsWithin : ℕ → Relaxation S W → List (Call S W)
  | 0, _ => []
  | budget + 1, r =>
    .pop :: match r.frontier.pop? with
      | none => []
      | some (p, f) =>
        Q.relaxedCalls converged r p f ++ callsWithin budget (Q.relaxed converged r p f)

/-- What a search from `source` asks of its frontier, from the first insertion on. -/
def frontierCalls (solver : Solver W) (budget : ℕ) (source : S) : List (Call S W) :=
  if Q.entry source == 0 then []
  else .insert source (Q.entry source) :: Q.callsWithin solver.converged budget
    (.start (solver.queue.discipline Q.order) source (Q.entry source))

variable {Q converged} {r : Relaxation S W} {ρ : W}

variable (Q converged ρ r) in
/-- A transition makes no difference, or its gain is asked for. -/
theorem carry_cons_cases (t : T) (ts : List T) :
    (Q.carryCalls converged ρ r (t :: ts) = Q.carryCalls converged ρ r ts ∧
      Q.carry converged ρ r (t :: ts) = Q.carry converged ρ r ts) ∨
    (ρ * Q.cost t == 0) = false ∧
      Q.carryCalls converged ρ r (t :: ts) =
        .insert (Q.target t) (r.distance (Q.target t) + ρ * Q.cost t) ::
          Q.carryCalls converged ρ (r.gain (Q.target t) (ρ * Q.cost t)) ts ∧
      Q.carry converged ρ r (t :: ts) =
        Q.carry converged ρ (r.gain (Q.target t) (ρ * Q.cost t)) ts := by
  have hcarry : Q.carry converged ρ r (t :: ts) = Q.carry converged ρ
      (if ρ * Q.cost t == 0 then r else r.improve converged (Q.target t) (ρ * Q.cost t)) ts := rfl
  rw [hcarry, carryCalls, Relaxation.improve_eq]
  cases hz : ρ * Q.cost t == 0 with
  | true => simp
  | false =>
    cases hc : converged (r.distance (Q.target t)) (r.distance (Q.target t) + ρ * Q.cost t) with
    | true => simp
    | false => simp

variable (Q converged r) in
theorem callsWithin_succ_cases (budget : ℕ) :
    (r.frontier.pop? = none ∧ Q.callsWithin converged (budget + 1) r = [.pop] ∧
      Q.steps converged (budget + 1) r = r) ∨
    ∃ p f, r.frontier.pop? = some (p, f) ∧
      Q.callsWithin converged (budget + 1) r = .pop ::
        (Q.relaxedCalls converged r p f ++
          Q.callsWithin converged budget (Q.relaxed converged r p f)) ∧
      Q.steps converged (budget + 1) r = Q.steps converged budget (Q.relaxed converged r p f) := by
  rw [callsWithin, steps]
  cases hpop : r.frontier.pop? with
  | none => exact .inl ⟨rfl, rfl, by rw [advance, hpop]; rfl⟩
  | some next => exact .inr ⟨next.1, next.2, rfl, rfl, by rw [advance_of_pop? hpop]; rfl⟩

section Replay

variable (d : Discipline S W)

theorem foldl_carryCalls {ts : List T} {x : Frontier S W × Roster S W} (hx : x.1 = r.frontier) :
    ((Q.carryCalls converged ρ r ts).foldl (Frontier.worklist d).step x).1 =
      (Q.carry converged ρ r ts).frontier := by
  induction ts generalizing r x with
  | nil => exact hx
  | cons t ts ih =>
    rcases Q.carry_cons_cases converged r ρ t ts with ⟨hcalls, hcarry⟩ | ⟨-, hcalls, hcarry⟩
    · rw [hcalls, hcarry]
      exact ih hx
    · rw [hcalls, hcarry, List.foldl_cons]
      exact ih (congrArg (Frontier.insert · _ _) hx)

theorem foldl_callsWithin (budget : ℕ) {x : Frontier S W × Roster S W} (hx : x.1 = r.frontier) :
    ((Q.callsWithin converged budget r).foldl (Frontier.worklist d).step x).1 =
      (Q.steps converged budget r).frontier := by
  induction budget generalizing r x with
  | zero => exact hx
  | succ budget ih =>
    rcases Q.callsWithin_succ_cases converged r budget with
      ⟨hpop, hcalls, hsteps⟩ | ⟨p, f, hpop, hcalls, hsteps⟩
    · have hstep : ((Frontier.worklist d).step x .pop).1 = r.frontier := by
        simp [Worklist.step, Frontier.worklist, hx, hpop]
      rw [hcalls, hsteps]
      exact hstep
    · have hstep : ((Frontier.worklist d).step x .pop).1 = (r.take p f).frontier := by
        simp [Worklist.step, Frontier.worklist, hx, hpop, Relaxation.take]
      rw [hcalls, hsteps, List.foldl_cons, List.foldl_append]
      refine ih ?_
      unfold relaxed relaxedCalls
      split
      · exact hstep
      · exact foldl_carryCalls d hstep

/-- The calls of a search take the frontier through it. -/
theorem run_frontierCalls (Q : Automaton Id L S T W) (solver : Solver W) (budget : ℕ) {source : S}
    (hsource : (Q.entry source == 0) = false) :
    ((Frontier.worklist (solver.queue.discipline Q.order)).run
        (Q.frontierCalls solver budget source)).1 =
      (Q.steps solver.converged budget
        (.start (solver.queue.discipline Q.order) source (Q.entry source))).frontier := by
  rw [frontierCalls, hsource]
  exact foldl_callsWithin _ budget rfl

end Replay

section Improves

open Relaxation

variable [LawfulBEq S] [Ord W] [Std.TransOrd W] {calls : List (Call S W)}
variable {P : Relaxation S W → Prop}
variable (hgain : ∀ r, P r → ∀ ρ t, (ρ * Q.cost t == 0) = false →
  P (r.gain (Q.target t) (ρ * Q.cost t)) ∧
    (compare (r.distance (Q.target t) + ρ * Q.cost t) (r.distance (Q.target t))).isLE)
include hgain

theorem improves_carryCalls {ts : List T} (h : P r)
    (hrest : P (Q.carry converged ρ r ts) → (Q.carry converged ρ r ts).Improves calls) :
    r.Improves (Q.carryCalls converged ρ r ts ++ calls) := by
  induction ts generalizing r with
  | nil => exact hrest h
  | cons t ts ih =>
    rcases Q.carry_cons_cases converged r ρ t ts with ⟨hcalls, hcarry⟩ | ⟨hz, hcalls, hcarry⟩
    · rw [hcarry] at hrest
      rw [hcalls]
      exact ih h hrest
    · obtain ⟨hnext, hle⟩ := hgain r h ρ t hz
      rw [hcarry] at hrest
      rw [hcalls]
      exact (ih hnext hrest).insert hle

theorem improves_callsWithin (htake : ∀ r, P r → ∀ p f, P (r.take p f)) (h : P r) (budget : ℕ) :
    r.Improves (Q.callsWithin converged budget r) := by
  induction budget generalizing r with
  | zero => exact .nil r
  | succ budget ih =>
    rcases Q.callsWithin_succ_cases converged r budget with
      ⟨-, hcalls, -⟩ | ⟨p, f, -, hcalls, -⟩
    · rw [hcalls]
      exact (Improves.nil r).pop rfl
    · have hrelaxed : (r.take p f).Improves (Q.relaxedCalls converged r p f ++
          Q.callsWithin converged budget (Q.relaxed converged r p f)) := by
        unfold relaxed relaxedCalls
        split
        · exact ih (htake r h p f)
        · exact improves_carryCalls hgain (htake r h p f) ih
      rw [hcalls]
      exact hrelaxed.pop rfl

theorem neverWorse_frontierCalls (htake : ∀ r, P r → ∀ p f, P (r.take p f)) {solver : Solver W}
    {source : S} (h : P (.start (solver.queue.discipline Q.order) source (Q.entry source)))
    (budget : ℕ) : NeverWorse (Q.frontierCalls solver budget source) := by
  unfold frontierCalls
  split
  · exact .nil
  · have himproves : (Relaxation.start (solver.queue.discipline Q.order) source
        (Q.entry source)).Improves (Q.callsWithin solver.converged budget _) :=
      improves_callsWithin hgain htake h budget
    refine List.pairwise_cons.2 ⟨?_, himproves.neverWorse⟩
    rintro c hc s w w' ⟨⟩ rfl
    have hcurrent := himproves.current source w' hc
    rwa [distance_start, if_pos (beq_self_eq_true source)] at hcurrent

end Improves

end Automaton

end WeightedAutomata
