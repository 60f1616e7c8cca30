import Mathlib.Data.ZMod.Defs
import WeightedAutomata.Proofs.Paths.Complete
import WeightedAutomata.Proofs.Relaxation.Sums

/-!
The equations that distances solve. Once nothing is left to carry, the distance of a state is what
the distances of all states bring to it along single transitions.
-/
namespace WeightedAutomata

variable {L S T W : Type} [BEq S] [LawfulBEq S] [Hashable S]

namespace Automaton

/-- Every state is at the distance that its predecessors pass on to it, the source at its initial
weight more. -/
def Solves [Zero W] [Add W] [Mul W] (A : Automaton Id L S T W) (source : S)
    (d : Distances S W) : Prop :=
  ∀ q, d.getD q 0 = (if source == q then A.entry source else 0) +
    (d.keys.map fun p =>
      (((A.leaving p).filter fun t => A.target t == q).map fun t => d.getD p 0 * A.cost t).sum).sum

variable [Semiring W] {Q : Automaton Id L S T W} {source : S}

omit [Hashable S] in
theorem mul_onward_indicator (w : W) (p q : S) : w * Q.onward (indicator q) p =
    (((Q.leaving p).filter fun t => Q.target t == q).map fun t => w * Q.cost t).sum := by
  rw [sum_map_filter, onward, ← List.sum_map_mul_left]
  congr 1
  exact List.map_congr_left fun t _ => by rw [← mul_assoc, mul_indicator]

/-- Sums over weighted states whose totals are distances are sums over the keys. -/
theorem weigh_eq_sum_keys {d : Distances S W} {ws : List (S × W)}
    (hd : ∀ q, d.getD q 0 = weigh ws (indicator q)) (g : S → W) :
    weigh ws g = (d.keys.map fun p => d.getD p 0 * g p).sum := by
  classical
  have hnodup : d.keys.Nodup := d.distinct_keys.imp fun h heq => by simp [heq] at h
  have hws : ∀ e ∈ ws, e.1 ∈ d.keys.toFinset ∪ (ws.map Prod.fst).toFinset := fun e he =>
    Finset.mem_union_right _ (List.mem_toFinset.2 (List.mem_map_of_mem he))
  rw [weigh_eq_sum_indicator g ws hws, ← List.sum_toFinset _ hnodup]
  simp only [← hd]
  refine (Finset.sum_subset Finset.subset_union_left fun p _ hp => ?_).symm
  rw [List.mem_toFinset, Std.HashMap.mem_keys] at hp
  rw [Std.HashMap.getD_eq_fallback hp, zero_mul]

variable [BEq W] [LawfulBEq W]

theorem Stage.account {r : Relaxation S W} (h : Q.Stage .exact source r) :
    ∃ carried, Q.Account (fun _ => True) source r carried := by
  induction h with
  | start discipline => exact ⟨[], .start discipline trivial⟩
  | relax _ hleaves ih =>
    obtain ⟨_, haccount⟩ := ih
    exact haccount.relaxed (fun _ _ _ _ => trivial) hleaves

omit [BEq W] [LawfulBEq W] in
theorem Account.solves {R : S → Prop} {r : Relaxation S W} {carried : List (S × W)}
    (h : Q.Account R source r carried) (hz : ∀ q, r.residual q = 0) :
    Q.Solves source r.distances := by
  have hkept (q : S) : r.distances.getD q 0 = weigh carried (indicator q) := by
    have hq := h.kept q
    rwa [hz, add_zero] at hq
  intro q
  have hq := h.received q
  rw [weigh_eq_sum_keys hkept, mul_indicator] at hq
  simp only [mul_onward_indicator] at hq
  exact hq

theorem Stage.solves {r : Relaxation S W} (h : Q.Stage .exact source r)
    (hdone : r.frontier.states = []) : Q.Solves source r.distances := by
  obtain ⟨_, haccount⟩ := h.account
  exact haccount.solves (haccount.pends.residual_eq_zero hdone)

/-- Whatever the automaton and the order in which the states leave the frontier, if exact relaxation
comes to an end, then the distances solve the path equations. -/
theorem distances_solve (A : Automaton Id L S T W) (source : S) (hsource : A.entry source ≠ 0) :
    (∀ (queue : Queue W) (budget : ℕ) (d : Distances S W),
      (A.lift : Automaton Option L S T W).distances budget ⟨queue, .exact⟩ source = some d →
        A.Solves source d) ∧
    ∀ r, A.Stage .exact source r → r.frontier.states = [] → A.Solves source r.distances := by
  refine ⟨fun queue budget d hrun => ?_, fun r hr hdone => hr.solves hdone⟩
  obtain ⟨r, hr, hdone, rfl⟩ := exists_stage_of_distances hsource hrun
  exact hr.solves hdone

/-- A loop that is worth nothing when it is taken twice. -/
theorem distances_loop : (loop (2 : ZMod 4)).entry () ≠ 0 ∧ ∃ d,
    ((loop (2 : ZMod 4)).lift : Automaton Option _ _ _ _).distances 4 ⟨.fifo, .exact⟩ () = some d ∧
      (loop (2 : ZMod 4)).Solves () d := by
  have hentry : (loop (2 : ZMod 4)).entry () ≠ 0 := by decide
  have hlift := lift_answers_everywhere Option (loop (2 : ZMod 4))
  let start : Relaxation Unit (ZMod 4) := .start .fifo () 1
  let once := (start.take () (.empty .fifo)).gain () (1 * 2)
  let last := once.take () (.empty .fifo)
  let next := ((loop (2 : ZMod 4)).lift : Automaton Option _ _ _ _).relaxNext .exact
  have hstart : next start = pure (some once) := by
    have hres : start.residual () = 1 := Relaxation.residual_start ..
    have hdist : start.distance () = 1 := Relaxation.distance_start ..
    exact (relaxNext_loop rfl hres hdist .exact).trans (by rw [if_neg (by decide)]; rfl)
  have honce : next once = pure (some last) := by
    have hres : once.residual () = 2 := by
      rw [Relaxation.residual_gain, Relaxation.residual_take]
      rfl
    exact (relaxNext_loop rfl hres rfl .exact).trans (by rw [if_pos (by decide)]; rfl)
  have hrun : untilDone next 4 start = pure last := by
    rw [untilDone_of_some 3 hstart, untilDone_of_some 2 honce]
    exact untilDone_of_none 1 rfl
  have hdistances : ((loop (2 : ZMod 4)).lift : Automaton Option _ _ _ _).distances 4
      ⟨.fifo, .exact⟩ () = some last.distances := hlift.distances_eq_pure trivial hentry hrun
  exact ⟨hentry, _, hdistances, (distances_solve (loop 2) () hentry).1 .fifo 4 _ hdistances⟩

end Automaton

end WeightedAutomata
