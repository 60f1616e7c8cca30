import Mathlib.Data.Finset.Card
import WeightedAutomata.Automaton.Distance
import WeightedAutomata.Proofs.Answers
import WeightedAutomata.Proofs.Frontier
import WeightedAutomata.Proofs.Loop

/-!
Single steps of a relaxation: what they do to the distances, the residuals and the pending states.
-/
namespace WeightedAutomata

variable {m : Type → Type} {L S T W : Type} [BEq S] [Hashable S] [Zero W]

namespace Relaxation

def distance (r : Relaxation S W) (q : S) : W := r.distances.getD q 0

def residual (r : Relaxation S W) (q : S) : W := r.residuals.getD q 0

/-- The relaxation once `state` has left the frontier, its residual about to be carried on. -/
def take (r : Relaxation S W) (state : S) (frontier : Frontier S W) : Relaxation S W :=
  { r with frontier, residuals := r.residuals.insert state 0 }

/-- The frontier holds states of `R`, each once, among them all that have a residual. -/
structure Pends (r : Relaxation S W) (R : S → Prop) : Prop where
  nodup : r.frontier.states.Nodup
  inside : ∀ s ∈ r.frontier.states, R s
  pending : ∀ s, r.residual s ≠ 0 → s ∈ r.frontier.states
  known : ∀ s ∈ r.distances, R s

variable [LawfulBEq S] {r : Relaxation S W} {R : S → Prop}

omit [LawfulBEq S] in
/-- A measure that goes down makes up for any change of the frontier. -/
theorem Pends.work_lt {F : Finset S} (h : r.Pends (· ∈ F)) {n n' : ℕ} (hn : n' < n) (l : ℕ) :
    n' * (F.card + 1) + r.frontier.states.length < n * (F.card + 1) + l := by
  classical
  have hlen : r.frontier.states.length ≤ F.card := by
    rw [← List.toFinset_card_of_nodup h.nodup]
    exact Finset.card_le_card fun q hq => h.inside q (List.mem_toFinset.1 hq)
  have hmul := Nat.mul_le_mul_right (F.card + 1) (Nat.succ_le_of_lt hn)
  rw [Nat.succ_mul] at hmul
  omega

omit [LawfulBEq S] in
theorem Pends.residual_eq_zero (h : r.Pends R) (hdone : r.frontier.states = []) (q : S) :
    r.residual q = 0 := by
  by_contra hne
  have hmem := h.pending q hne
  rw [hdone] at hmem
  cases hmem

theorem distance_start (discipline : Discipline S W) (source q : S) (w : W) :
    (start discipline source w).distance q = if source == q then w else 0 := by
  simp [start, distance, Std.HashMap.getD_insert]

theorem residual_start (discipline : Discipline S W) (source q : S) (w : W) :
    (start discipline source w).residual q = if source == q then w else 0 := by
  simp [start, residual, Std.HashMap.getD_insert]

omit [Zero W] [LawfulBEq S] in
theorem states_start (discipline : Discipline S W) (source : S) (w : W) :
    (start discipline source w).frontier.states = [source] := rfl

theorem Pends.start (discipline : Discipline S W) {source : S} (w : W) (hs : R source) :
    (start discipline source w).Pends R where
  nodup := List.nodup_singleton source
  inside s hs' := by
    rw [states_start, List.mem_singleton] at hs'
    rwa [hs']
  pending s hne := by
    rw [residual_start] at hne
    rw [states_start, List.mem_singleton]
    by_contra h
    exact hne (if_neg (by simpa using Ne.symm h))
  known s hs' := by
    have h : source = s := by simpa [Relaxation.start] using hs'
    rwa [← h]

omit [LawfulBEq S] in
theorem distance_take (state q : S) (f : Frontier S W) :
    (r.take state f).distance q = r.distance q := rfl

theorem residual_take (state q : S) (f : Frontier S W) :
    (r.take state f).residual q = if state == q then 0 else r.residual q := by
  simp [take, residual, Std.HashMap.getD_insert]

theorem Pends.take_of_perm (h : r.Pends R) {state : S} {f : Frontier S W}
    (hstates : r.frontier.states.Perm (state :: f.states)) : (r.take state f).Pends R := by
  have hnodup := hstates.nodup_iff.1 h.nodup
  rw [List.nodup_cons] at hnodup
  refine ⟨hnodup.2, fun s hs => h.inside s ?_, fun s hne => ?_, h.known⟩
  · exact hstates.mem_iff.2 (List.mem_cons_of_mem state hs)
  · rw [residual_take] at hne
    split at hne
    · exact absurd rfl hne
    · next hs =>
      have hmem := h.pending s hne
      rw [hstates.mem_iff, List.mem_cons] at hmem
      rcases hmem with rfl | hmem
      · simp at hs
      · exact hmem

theorem Pends.take (h : r.Pends R) {state : S} {f : Frontier S W}
    (hpop : r.frontier.pop? = some (state, f)) : (r.take state f).Pends R :=
  h.take_of_perm (.of_eq (Frontier.states_of_pop? hpop))

section Gain

variable [Add W] (r) (target q : S) (delta : W)

/-- The relaxation once `delta` has been added to the distance and the residual of `target`. -/
def gain : Relaxation S W where
  frontier := r.frontier.insert target (r.distance target + delta)
  distances := r.distances.insert target (r.distance target + delta)
  residuals := r.residuals.insert target (r.residual target + delta)

theorem distance_gain : (r.gain target delta).distance q =
    if target == q then r.distance target + delta else r.distance q := by
  rw [gain, distance, Std.HashMap.getD_insert]
  rfl

theorem residual_gain : (r.gain target delta).residual q =
    if target == q then r.residual target + delta else r.residual q := by
  rw [gain, residual, Std.HashMap.getD_insert]
  rfl

omit [LawfulBEq S] in
theorem improve_eq (converged : Convergence W) : r.improve converged target delta =
    if converged (r.distance target) (r.distance target + delta) then r else r.gain target delta :=
  rfl

variable {r target}

theorem Pends.gain (h : r.Pends R) (ht : R target) : (r.gain target delta).Pends R where
  nodup := Frontier.nodup_states_insert h.nodup _ _
  inside s hs := by
    rcases Frontier.mem_states_insert.1 hs with rfl | hs
    · exact ht
    · exact h.inside s hs
  pending s hs := by
    refine Frontier.mem_states_insert.2 ?_
    rw [residual_gain] at hs
    split at hs
    · next heq => exact .inl (eq_of_beq heq).symm
    · exact .inr (h.pending s hs)
  known s hs := by
    rcases Std.HashMap.mem_insert.1 hs with heq | hs
    · rwa [← eq_of_beq heq]
    · exact h.known s hs

end Gain

variable [Add W] [BEq W] [LawfulBEq W] {target : S} {delta : W}

omit [LawfulBEq S] in
theorem improve_of_eq (heq : r.distance target + delta = r.distance target) :
    r.improve .exact target delta = r := by
  rw [improve_eq, heq, if_pos (show Convergence.exact _ _ = true from beq_self_eq_true _)]

section Changed

variable (hne : r.distance target + delta ≠ r.distance target)
include hne

omit [LawfulBEq S] in
theorem improve_of_ne : r.improve .exact target delta = r.gain target delta := by
  rw [improve_eq, if_neg (by simpa [Convergence.exact] using hne.symm)]

theorem distance_improve (q : S) : (r.improve .exact target delta).distance q =
    if target == q then r.distance target + delta else r.distance q := by
  rw [improve_of_ne hne, distance_gain]

theorem residual_improve (q : S) : (r.improve .exact target delta).residual q =
    if target == q then r.residual target + delta else r.residual q := by
  rw [improve_of_ne hne, residual_gain]

omit [LawfulBEq S] in
theorem frontier_improve : (r.improve .exact target delta).frontier =
    r.frontier.insert target (r.distance target + delta) := by
  rw [improve_of_ne hne]
  rfl

end Changed

/-- Adds a weight to the distance of a state, and to its residual, unless that changes nothing. -/
def receive (r : Relaxation S W) (target : S) (delta : W) : Relaxation S W :=
  if delta == 0 then r else r.improve .exact target delta

end Relaxation

namespace Automaton

variable [Add W] [Mul W] [BEq W]

/-- Carries `residual` along several transitions. -/
def carry (Q : Automaton Id L S T W) (converged : Convergence W) (residual : W)
    (r : Relaxation S W) (ts : List T) : Relaxation S W :=
  ts.foldl (fun r t =>
    let delta := residual * Q.cost t
    if delta == 0 then r else r.improve converged (Q.target t) delta) r

section Carry

variable {Q : Automaton Id L S T W} {r : Relaxation S W} {R : S → Prop} {ρ : W}

theorem carry_cons (t : T) (ts : List T) : Q.carry .exact ρ r (t :: ts) =
    Q.carry .exact ρ (r.receive (Q.target t) (ρ * Q.cost t)) ts := rfl

/-- What every gain along the transitions keeps holds in the end, where nothing is gained of weight
zero or once the distance has settled. -/
theorem carry_keeps_of_open {converged : Convergence W} {P : Relaxation S W → Prop} {ts : List T}
    (keep : ∀ r, P r → ∀ t ∈ ts, (ρ * Q.cost t == 0) = false →
      converged (r.distance (Q.target t)) (r.distance (Q.target t) + ρ * Q.cost t) = false →
      P (r.gain (Q.target t) (ρ * Q.cost t))) (h : P r) : P (Q.carry converged ρ r ts) := by
  refine List.foldlRecOn ts _ h fun r hr t ht => ?_
  dsimp only
  split
  · exact hr
  · next hz =>
    rw [Relaxation.improve_eq]
    split
    · exact hr
    · next hopen => exact keep r hr t ht (by simpa using hz) (by simpa using hopen)

/-- What every gain along the transitions keeps holds in the end. -/
theorem carry_keeps {converged : Convergence W} {P : Relaxation S W → Prop} {ts : List T}
    (keep : ∀ r, P r → ∀ t ∈ ts, P (r.gain (Q.target t) (ρ * Q.cost t))) (h : P r) :
    P (Q.carry converged ρ r ts) :=
  carry_keeps_of_open (fun r hr t ht _ _ => keep r hr t ht) h

theorem pends_carry [LawfulBEq S] {converged : Convergence W} (h : r.Pends R) {ts : List T}
    (ht : ∀ t ∈ ts, R (Q.target t)) : (Q.carry converged ρ r ts).Pends R :=
  carry_keeps (P := fun r => r.Pends R) (fun _ hr t hmem => hr.gain _ (ht t hmem)) h

end Carry

/-- The next relaxation, none if no state is pending. -/
def advance (Q : Automaton Id L S T W) (converged : Convergence W) (r : Relaxation S W) :
    Option (Relaxation S W) :=
  r.frontier.pop?.map fun (state, frontier) =>
    if r.residual state == 0 then r.take state frontier
    else Q.carry converged (r.residual state) (r.take state frontier) (Q.leaving state)

theorem advance_eq_none {Q : Automaton Id L S T W} {converged : Convergence W}
    {r : Relaxation S W} (h : Q.advance converged r = none) : r.frontier.states = [] := by
  unfold advance at h
  exact Frontier.pop?_eq_none (Option.map_eq_none_iff.1 h)

theorem advance_eq_some [LawfulBEq W] {Q : Automaton Id L S T W} {converged : Convergence W}
    {r r' : Relaxation S W} (h : Q.advance converged r = some r') :
    ∃ p f, r.frontier.pop? = some (p, f) ∧
      (r.residual p = 0 ∧ r' = r.take p f ∨
        r' = Q.carry converged (r.residual p) (r.take p f) (Q.leaving p)) := by
  unfold advance at h
  obtain ⟨⟨p, f⟩, hpop, h⟩ := Option.map_eq_some_iff.1 h
  refine ⟨p, f, hpop, ?_⟩
  dsimp only at h
  split at h
  · next hz => exact .inl ⟨eq_of_beq hz, h.symm⟩
  · exact .inr h.symm

section Answers

variable [Monad m] [LawfulMonad m] {A : Automaton m L S T W} {Q : Automaton Id L S T W}
variable {R : S → Prop} (h : A.Answers Q R) (converged : Convergence W)
include h

theorem Answers.foldlM_relax {s : S} (hs : R s) (residual : W) (r : Relaxation S W) :
    (Q.leaving s).foldlM (A.relax converged residual) r =
      pure (Q.carry converged residual r (Q.leaving s)) := by
  apply foldlM_eq_pure
  intro t ht r
  unfold Automaton.relax
  rw [h.weight s hs t ht, pure_bind, h.target]

theorem Answers.relaxNext {r : Relaxation S W} (hr : ∀ s ∈ r.frontier.states, R s) :
    A.relaxNext converged r = pure (Q.advance converged r) := by
  unfold Automaton.relaxNext advance
  cases hpop : r.frontier.pop? with
  | none => rfl
  | some next =>
    obtain ⟨state, frontier⟩ := next
    have hs : R state := hr state (by simp [Frontier.states_of_pop? hpop])
    change (if (r.residual state == 0) = true then pure (some (r.take state frontier)) else do
      return some (← (← A.outgoing state).foldlM (A.relax converged (r.residual state))
        (r.take state frontier))) = _
    by_cases hz : (r.residual state == 0) = true
    · simp [hz]
    · simp [hz, h.outgoing state hs, h.foldlM_relax converged hs]

theorem Answers.distances_eq_empty [LawfulBEq W] [StepLimited m] (solver : Solver W) {o : S}
    (ho : R o) (hz : Q.entry o = 0) (budget : ℕ) : A.distances budget solver o = pure ∅ := by
  simp [Automaton.distances, h.initialWeight o ho, hz]

theorem Answers.distances_eq_pure [LawfulBEq W] [StepLimited m] {solver : Solver W} {o : S}
    (ho : R o) (hz : Q.entry o ≠ 0) {budget : ℕ} {r : Relaxation S W}
    (hrun : untilDone (A.relaxNext solver.converged) budget
      (.start (solver.queue.discipline A.order) o (Q.entry o)) = pure r) :
    A.distances budget solver o = pure r.distances := by
  unfold Automaton.distances
  rw [h.initialWeight o ho, pure_bind, if_neg (by simpa using hz)]
  simp only [hrun, pure_bind]

/-- A state without transitions is the only one with a distance. -/
theorem Answers.distances_of_leaving_nil [LawfulBEq S] [LawfulBEq W] [StepLimited m]
    (solver : Solver W) {o : S} (ho : R o) (hno : Q.leaving o = []) :
    ∃ d : Distances S W, (∀ q ∈ d, q = o) ∧
      ∀ budget, 1 < budget → A.distances budget solver o = pure d := by
  by_cases hz : Q.entry o = 0
  · exact ⟨∅, fun q hq => by simp at hq, fun budget _ => h.distances_eq_empty solver ho hz budget⟩
  · obtain ⟨r, hr, -, hrun⟩ := untilDone_eq_pure (A.relaxNext solver.converged)
      (Q.advance solver.converged) (fun r => r.Pends (· = o)) (fun r => r.frontier.states.length)
      (fun r hr => h.relaxNext solver.converged fun s hs => by rwa [hr.inside s hs])
      (fun r r' hr hnext => by
        obtain ⟨p, f, hpop, hcases⟩ := advance_eq_some hnext
        have hstates := Frontier.states_of_pop? hpop
        obtain rfl : p = o := hr.inside p (by rw [hstates]; exact List.mem_cons_self)
        have htake : r' = r.take p f := by
          rcases hcases with ⟨-, h⟩ | h
          · exact h
          · rwa [hno] at h
        rw [htake, hstates]
        exact ⟨hr.take hpop, Nat.lt_succ_self _⟩)
      (Relaxation.Pends.start (solver.queue.discipline A.order) (Q.entry o) rfl)
    exact ⟨r.distances, hr.known, fun budget hbudget =>
      h.distances_eq_pure ho hz (hrun budget hbudget)⟩

end Answers

end Automaton

end WeightedAutomata
