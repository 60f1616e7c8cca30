import Mathlib.Logic.Relation
import WeightedAutomata.Proofs.Relaxation.Steps

/-!
Relaxation under any schedule. In every step one of the pending states leaves the frontier, no
matter which, and the others may be put in another order. The queues of the solvers are such
schedules, so what holds of every stage holds whenever one of them is at work.
-/
namespace WeightedAutomata.Automaton

variable {L S T W : Type} [BEq S] [Hashable S] [Zero W] [Add W] [Mul W] [BEq W]

/-- The relaxation once `state` has left the frontier and its residual has been carried on. -/
def relaxed (Q : Automaton Id L S T W) (converged : Convergence W) (r : Relaxation S W) (state : S)
    (frontier : Frontier S W) : Relaxation S W :=
  if r.residual state == 0 then r.take state frontier
  else Q.carry converged (r.residual state) (r.take state frontier) (Q.leaving state)

/-- What a relaxation from `source` may come to, whatever its schedule. -/
inductive Stage (Q : Automaton Id L S T W) (converged : Convergence W) (source : S) :
    Relaxation S W → Prop
  | start (discipline : Discipline S W) :
    Stage Q converged source (.start discipline source (Q.entry source))
  | relax {r : Relaxation S W} {p : S} {f : Frontier S W} (before : Stage Q converged source r)
    (leaves : r.frontier.states.Perm (p :: f.states)) :
    Stage Q converged source (Q.relaxed converged r p f)

variable {Q : Automaton Id L S T W} {converged : Convergence W} {source : S}
variable {r r' : Relaxation S W}

variable (Q converged r) in
theorem relaxed_cases [LawfulBEq W] (p : S) (f : Frontier S W) :
    r.residual p = 0 ∧ Q.relaxed converged r p f = r.take p f ∨ r.residual p ≠ 0 ∧
      Q.relaxed converged r p f = Q.carry converged (r.residual p) (r.take p f) (Q.leaving p) := by
  unfold relaxed
  split
  · next hz => exact .inl ⟨eq_of_beq hz, rfl⟩
  · next hz => exact .inr ⟨by simpa using hz, rfl⟩

theorem advance_of_pop? {p : S} {f : Frontier S W} (h : r.frontier.pop? = some (p, f)) :
    Q.advance converged r = some (Q.relaxed converged r p f) := by
  rw [advance, h]
  rfl

theorem exists_relaxed_of_advance (h : Q.advance converged r = some r') :
    ∃ p f, r.frontier.pop? = some (p, f) ∧ r' = Q.relaxed converged r p f := by
  obtain ⟨⟨p, f⟩, hpop, rfl⟩ := Option.map_eq_some_iff.1 h
  exact ⟨p, f, hpop, rfl⟩

theorem Stage.advance (h : Q.Stage converged source r) (hnext : Q.advance converged r = some r') :
    Q.Stage converged source r' := by
  obtain ⟨p, f, hpop, rfl⟩ := exists_relaxed_of_advance hnext
  exact h.relax (.of_eq (Frontier.states_of_pop? hpop))

theorem Stage.pends [LawfulBEq S] [LawfulBEq W] (h : Q.Stage converged source r) :
    r.Pends fun _ => True := by
  induction h with
  | start discipline => exact .start discipline _ trivial
  | @relax r p f _ hleaves ih =>
    have htake := ih.take_of_perm hleaves
    rcases relaxed_cases Q converged r p f with ⟨-, hr⟩ | ⟨-, hr⟩
    · exact hr ▸ htake
    · exact hr ▸ pends_carry htake fun _ _ => trivial

theorem relaxNext_lift (Q : Automaton Id L S T W) (converged : Convergence W)
    (r : Relaxation S W) :
    (Q.lift : Automaton Option L S T W).relaxNext converged r = some (Q.advance converged r) :=
  (lift_answers_everywhere Option Q).relaxNext converged fun _ _ => trivial

/-- A step of the loop leads from one stage to the next. -/
theorem Stage.relaxNext (h : Q.Stage converged source r)
    (hnext : (Q.lift : Automaton Option L S T W).relaxNext converged r = some (some r')) :
    Q.Stage converged source r' :=
  h.advance (Option.some.inj ((Q.relaxNext_lift converged r).symm.trans hnext))

/-- One relaxation comes after another in the same run. -/
abbrev Leads (Q : Automaton Id L S T W) (converged : Convergence W) :
    Relaxation S W → Relaxation S W → Prop :=
  Relation.ReflTransGen fun a b => Q.advance converged a = some b

/-- Distances that are returned are those of a run that has come to its end. -/
theorem Answers.exists_run_of_distances [LawfulBEq W] {A : Automaton Option L S T W}
    {R : S → Prop} (hA : A.Answers Q R) (hR : ∀ s, R s) {budget : ℕ} {solver : Solver W}
    {d : Distances S W} (hsource : Q.entry source ≠ 0)
    (h : A.distances budget solver source = some d) :
    ∃ r, Q.Leads solver.converged
        (.start (solver.queue.discipline A.order) source (Q.entry source)) r ∧
      Q.advance solver.converged r = none ∧ r.distances = d := by
  unfold Automaton.distances at h
  rw [hA.initialWeight source (hR source), pure_bind, if_neg (by simpa using hsource)] at h
  obtain ⟨r, hr, hd⟩ := Option.bind_eq_some_iff.1 h
  have hrelax (a : Relaxation S W) :
      A.relaxNext solver.converged a = some (Q.advance solver.converged a) :=
    hA.relaxNext solver.converged fun s _ => hR s
  have hkeep : ∀ a b, Q.Leads solver.converged
      (.start (solver.queue.discipline A.order) source (Q.entry source)) a →
      A.relaxNext solver.converged a = some (some b) →
      Q.Leads solver.converged
        (.start (solver.queue.discipline A.order) source (Q.entry source)) b :=
    fun a b ha hnext => ha.tail (Option.some.inj ((hrelax a).symm.trans hnext))
  obtain ⟨hrun, hdone⟩ := untilDone_keeps hkeep .refl hr
  rw [hrelax] at hdone
  exact ⟨r, hrun, Option.some.inj hdone, Option.some.inj hd⟩

theorem exists_run_of_distances [LawfulBEq W] {budget : ℕ} {solver : Solver W}
    {d : Distances S W} (hsource : Q.entry source ≠ 0)
    (h : (Q.lift : Automaton Option L S T W).distances budget solver source = some d) :
    ∃ r, Q.Leads solver.converged
        (.start (solver.queue.discipline Q.order) source (Q.entry source)) r ∧
      Q.advance solver.converged r = none ∧ r.distances = d :=
  (lift_answers_everywhere Option Q).exists_run_of_distances (fun _ => trivial) hsource h

theorem Stage.leads (h : Q.Stage converged source r) (hrun : Q.Leads converged r r') :
    Q.Stage converged source r' := by
  induction hrun with
  | refl => exact h
  | tail _ hnext ih => exact ih.advance hnext

/-- Distances that are returned are those of a stage at which no state is pending. -/
theorem exists_stage_of_distances [LawfulBEq W] {budget : ℕ} {solver : Solver W}
    {d : Distances S W} (hsource : Q.entry source ≠ 0)
    (h : (Q.lift : Automaton Option L S T W).distances budget solver source = some d) :
    ∃ r, Q.Stage solver.converged source r ∧ r.frontier.states = [] ∧ r.distances = d := by
  obtain ⟨r, hrun, hdone, hd⟩ := exists_run_of_distances hsource h
  exact ⟨r, Stage.leads (.start _) hrun, advance_eq_none hdone, hd⟩

/-- Some state is relaxed, whether it is pending or not, and the frontier may be left as it likes. -/
def Relaxes (Q : Automaton Id L S T W) (converged : Convergence W) (r r' : Relaxation S W) : Prop :=
  ∃ p f, r' = Q.relaxed converged r p f

/-- The steps of a run are among those that may be taken. -/
theorem Leads.relaxes (h : Q.Leads converged r r') :
    Relation.ReflTransGen (Q.Relaxes converged) r r' := by
  refine Relation.ReflTransGen.mono (fun a b hnext => ?_) r r' h
  obtain ⟨p, f, -, hr⟩ := exists_relaxed_of_advance hnext
  exact ⟨p, f, hr⟩

section Loop

variable [One W]

/-- One state, with a loop of weight `w`. -/
def loop (w : W) : Automaton Id Unit Unit Unit W where
  initialStates := pure [()]
  outgoing _ := pure [()]
  initialWeight _ := pure 1
  finalWeight _ := pure 1
  weight _ := pure w
  source := id
  target := id
  label _ := none

theorem relaxNext_loop {w residual distance : W} {r : Relaxation Unit W} {f : Frontier Unit W}
    (hpop : r.frontier.pop? = some ((), f)) (hr : r.residual () = residual)
    (hd : r.distance () = distance) (converged : Convergence W) :
    ((loop w).lift : Automaton Option Unit Unit Unit W).relaxNext converged r = some (some
      (if residual == 0 || residual * w == 0 || converged distance (distance + residual * w) then
        r.take () f
      else (r.take () f).gain () (residual * w))) := by
  have hcarry : (loop w).relaxed converged r () f =
      if r.residual () == 0 then r.take () f
      else if r.residual () * w == 0 then r.take () f
      else (r.take () f).improve converged () (r.residual () * w) := rfl
  rw [relaxNext_lift, advance_of_pop? hpop, hcarry, Relaxation.improve_eq, Relaxation.distance_take,
    hr, hd]
  simp only [Bool.or_eq_true, ite_or]

end Loop

end WeightedAutomata.Automaton
