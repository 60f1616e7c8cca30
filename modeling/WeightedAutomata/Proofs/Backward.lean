import Mathlib.Data.Matrix.Basis
import WeightedAutomata.Proofs.Acyclic

/-!
Distances to final states. They are distances of the reversal, which multiplies what it meets in the
order in which it meets it: the final weight, then the weights of the transitions, the last one
first. Where weights commute this is as good as the order along the path.
-/
namespace WeightedAutomata.Automaton

open scoped BigOperators

variable {L S T W : Type}

section Definitions

variable [Zero W] (A : Automaton Id L S T W)

/-- Backward access that gives the final states and, for every state, the transitions to it, each of
them once. -/
structure Retraces (back : Backward Id S T) : Prop where
  finals_nodup : back.finalStates.run.Nodup
  mem_finals : ∀ s, s ∈ back.finalStates.run ↔ A.exit s ≠ 0
  incoming_nodup : ∀ s, (back.incoming s).run.Nodup
  mem_incoming : ∀ s t, t ∈ (back.incoming s).run ↔ t ∈ A.leaving (A.source t) ∧ A.target t = s

/-- The paths from `q` to final states. -/
def pathsFrom (q : S) : Set (List T) := {ts | A.IsPath q ts ∧ A.exit (A.endpoint q ts) ≠ 0}

end Definitions

theorem endpoint_ne_of_lt [Preorder S] {A : Automaton Id L S T W}
    (h : ∀ s, ∀ t ∈ A.leaving s, s < A.target t) {s : S} {ts : List T} (hne : ts ≠ [])
    (hpath : A.IsPath s ts) : A.endpoint s ts ≠ s := by
  have hle (ts : List T) (s : S) (hpath : A.IsPath s ts) : s ≤ A.endpoint s ts := by
    induction ts generalizing s with
    | nil => exact le_rfl
    | cons t ts ih => exact (h s t hpath.1).le.trans (ih _ hpath.2)
  obtain ⟨t, ts, rfl⟩ := List.exists_cons_of_ne_nil hne
  exact ((h s t hpath.1).trans_le (hle ts _ hpath.2)).ne'

section Reversal

variable [Zero W] {A : Automaton Id L S T W} {back : Backward Id S T} (hA : A.Lawful)
variable (hback : A.Retraces back)
include hA hback

/-- The paths of the reversal are the paths, turned around. -/
theorem isPath_reversal {f q : S} {ts : List T} :
    (A.reversal back).IsPath f ts ∧ (A.reversal back).endpoint f ts = q ↔
      A.IsPath q ts.reverse ∧ A.endpoint q ts.reverse = f := by
  induction ts generalizing f with
  | nil => exact and_congr_right fun _ => eq_comm
  | cons t ts ih =>
    have hstep : t ∈ (A.reversal back).leaving f ↔ t ∈ A.leaving (A.source t) ∧ A.target t = f :=
      hback.mem_incoming f t
    rw [isPath_cons, endpoint_cons, and_assoc, hstep, ih, List.reverse_cons, isPath_append,
      endpoint_append]
    constructor
    · rintro ⟨⟨ht, htarget⟩, hpath, hend⟩
      exact ⟨⟨hpath, hend.symm ▸ ht, trivial⟩, htarget⟩
    · rintro ⟨⟨hpath, ht, -⟩, htarget⟩
      have hend := hA.source_eq _ t ht
      exact ⟨⟨hend.symm ▸ ht, htarget⟩, hpath, hend.symm⟩

omit hA in
theorem lawful_reversal : (A.reversal back).Lawful where
  starts_nodup := hback.finals_nodup
  mem_starts := hback.mem_finals
  source_eq s t ht := ((hback.mem_incoming s t).1 ht).2

theorem reachable_reversal {s : S} (hs : (A.reversal back).Reachable s) :
    (A.pathsFrom s).Nonempty := by
  obtain ⟨f, hf, ts, hts, hend⟩ := hs.exists_path
  obtain ⟨hpath, hend⟩ := (isPath_reversal hA hback).1 ⟨hts, hend⟩
  refine ⟨ts.reverse, hpath, ?_⟩
  rw [hend]
  exact (hback.mem_finals f).1 hf

theorem acyclic_reversal (hacyclic : ∀ s ts, ts ≠ [] → A.IsPath s ts → A.endpoint s ts ≠ s) :
    (A.reversal back).Acyclic := by
  intro s _ ts hne hpath hend
  obtain ⟨hpath, hend⟩ := (isPath_reversal hA hback).1 ⟨hpath, hend⟩
  exact hacyclic s ts.reverse (by simpa using hne) hpath hend

/-- Turning paths around pairs the paths of the reversal to `q` with the paths from `q`. -/
theorem bijOn_reversal (q : S) : Set.BijOn (fun c : S × List T => c.2.reverse)
    ((A.reversal back).pathsTo q) (A.pathsFrom q) := by
  refine ⟨?_, ?_, ?_⟩
  · rintro ⟨f, ts⟩ ⟨hf, hpath⟩
    obtain ⟨hpath, hend⟩ := (isPath_reversal hA hback).1 hpath
    refine ⟨hpath, ?_⟩
    rw [hend]
    exact (hback.mem_finals f).1 hf
  · rintro ⟨f, ts⟩ ⟨-, hpath⟩ ⟨g, us⟩ ⟨-, hpath'⟩ heq
    obtain rfl := List.reverse_injective heq
    have hf := ((isPath_reversal hA hback).1 hpath).2
    have hg := ((isPath_reversal hA hback).1 hpath').2
    exact Prod.ext (hf.symm.trans hg) rfl
  · rintro ts ⟨hpath, hexit⟩
    refine ⟨(A.endpoint q ts, ts.reverse), ⟨(hback.mem_finals _).2 hexit, ?_⟩, ts.reverse_reverse⟩
    exact (isPath_reversal hA hback).2 (by simpa using hpath)

end Reversal

variable [Semiring W] {A : Automaton Id L S T W} {back : Backward Id S T}

/-- The distances of the reversal: against their direction, the paths from a state. -/
theorem finsum_pathsTo_reversal (hA : A.Lawful) (hback : A.Retraces back) {size : S → ℕ}
    (hb : (A.reversal back).Bounded (A.reversal back).Reachable size) (q : S) :
    (A.pathsFrom q).Finite ∧
      ∑ᶠ ts ∈ A.pathsFrom q, A.exit (A.endpoint q ts) * A.pathCost ts.reverse =
        ((A.reversal back).starts.map fun s =>
          (A.reversal back).entry s * (A.reversal back).pathSum (size s) (indicator q) s).sum := by
  have hbij := bijOn_reversal hA hback q
  obtain ⟨hfin, hsum⟩ := finsum_pathsTo_of_nodup (A := A.reversal back) hback.finals_nodup
    hback.incoming_nodup size (fun s hs ts hts => hb.length_lt (.start hs) hts) q
  refine ⟨hbij.image_eq ▸ hfin.image _, Eq.trans (Eq.symm ?_) hsum⟩
  refine finsum_mem_eq_of_bijOn _ hbij ?_
  rintro ⟨f, ts⟩ ⟨-, hpath⟩
  have hend : A.endpoint q ts.reverse = f := ((isPath_reversal hA hback).1 hpath).2
  rw [hend, List.reverse_reverse]
  rfl

variable {m : Type → Type} [Monad m]

omit [Semiring W] in
variable (m) in
theorem reverse?_lift (haccess : A.backward = some back) :
    (A.lift : Automaton m L S T W).reverse? = some (A.reversal back).lift := by
  change (A.backward.map (Backward.hoist _)).map _ = _
  rw [haccess]
  rfl

variable [BEq W] [LawfulBEq W] [BEq S] [LawfulBEq S] [Hashable S] [LawfulMonad m] [StepLimited m]

variable (m) in
theorem exists_distancesToFinal (hA : A.Lawful) (haccess : A.backward = some back)
    (hback : A.Retraces back) (hfinite : {s | (A.pathsFrom s).Nonempty}.Finite)
    (hacyclic : ∀ s ts, ts ≠ [] → A.IsPath s ts → A.endpoint s ts ≠ s) (queue : Queue W) :
    ∃ d : Distances S W,
      (∀ q, (A.pathsFrom q).Finite ∧ d.getD q 0 =
        ∑ᶠ ts ∈ A.pathsFrom q, A.exit (A.endpoint q ts) * A.pathCost ts.reverse) ∧
      ∃ n, ∀ budget, n ≤ budget → (A.lift : Automaton m L S T W).distancesToFinal? budget
        ⟨queue, .exact⟩ = some (pure d) := by
  have hfinite' : {s | (A.reversal back).Reachable s}.Finite :=
    hfinite.subset fun s hs => reachable_reversal hA hback hs
  obtain ⟨size, hb⟩ := exists_bounded (A.reversal back).closed_reachable hfinite'
    (acyclic_reversal hA hback hacyclic)
  have hlift := lift_answers_reachable m (A.reversal back)
  obtain ⟨d, ws, hd, hws, hrun⟩ :=
    hlift.distancesFromInitial_eq (lawful_reversal hback) hb queue
  refine ⟨d, fun q => ?_, ((A.reversal back).starts.map size).sum + 2, fun budget hbudget => ?_⟩
  · obtain ⟨hfin, hsum⟩ := finsum_pathsTo_reversal hA hback hb q
    exact ⟨hfin, by rw [hd.getD_eq, hws, hsum]⟩
  · rw [distancesToFinal?, reverse?_lift m haccess, Option.map_some, hrun budget (by omega)]

omit [BEq W] [LawfulBEq W] [BEq S] [LawfulBEq S] [Hashable S] in
theorem pathCost_reverse (hcomm : ∀ a b : W, a * b = b * a) (ts : List T) :
    A.pathCost ts.reverse = A.pathCost ts :=
  (ts.reverse_perm.map A.cost).prod_eq' (List.pairwise_of_forall fun a b => hcomm a b)

variable (m) in
/-- For every queue, once the budget is large enough, the distance of each state is the sum over the
paths from it to final states of the final weight times the weights of the transitions, the last
transition first. Where weights commute, it is the sum of the weights along the paths times the
final weights. -/
theorem distancesToFinal_eq_finsum (A : Automaton Id L S T W) (hA : A.Lawful)
    (back : Backward Id S T) (haccess : A.backward = some back) (hback : A.Retraces back)
    (hfinite : {s | (A.pathsFrom s).Nonempty}.Finite)
    (hacyclic : ∀ s ts, ts ≠ [] → A.IsPath s ts → A.endpoint s ts ≠ s) (queue : Queue W) :
    ∃ d : Distances S W,
      (∀ q, (A.pathsFrom q).Finite ∧
        d.getD q 0 = ∑ᶠ ts ∈ A.pathsFrom q, A.exit (A.endpoint q ts) * A.pathCost ts.reverse ∧
        ((∀ a b : W, a * b = b * a) →
          d.getD q 0 = ∑ᶠ ts ∈ A.pathsFrom q, A.pathCost ts * A.exit (A.endpoint q ts))) ∧
      ∃ n, ∀ budget, n ≤ budget → (A.lift : Automaton m L S T W).distancesToFinal? budget
        ⟨queue, .exact⟩ = some (pure d) := by
  obtain ⟨d, hd, hrun⟩ :=
    exists_distancesToFinal m hA haccess hback hfinite hacyclic queue
  refine ⟨d, fun q => ⟨(hd q).1, (hd q).2, fun hcomm => ?_⟩, hrun⟩
  rw [(hd q).2]
  refine finsum_mem_congr rfl fun ts _ => ?_
  rw [hcomm, pathCost_reverse hcomm]

section Order

def stepBack : Backward Id Bool Unit where
  finalStates := pure [true]
  incoming s := pure (if s then [()] else [])

/-- One transition, whose weight does not commute with the final weight. -/
def twoFactors : Automaton Id Unit Bool Unit (Matrix Bool Bool ℕ) where
  initialStates := pure [false]
  outgoing s := pure (if s then [] else [()])
  initialWeight s := pure (if s then 0 else 1)
  finalWeight s := pure (if s then .single true false 1 else 0)
  weight _ := pure (.single false true 1)
  source _ := false
  target _ := true
  label _ := some ()
  backward := some stepBack

theorem lawful_twoFactors : twoFactors.Lawful := ⟨by decide, by decide, by decide⟩

theorem retraces_twoFactors : twoFactors.Retraces stepBack :=
  ⟨by decide, by decide, by decide, by decide⟩

theorem acyclic_twoFactors (s : Bool) (ts : List Unit) (hne : ts ≠ [])
    (hpath : twoFactors.IsPath s ts) : twoFactors.endpoint s ts ≠ s :=
  endpoint_ne_of_lt (by decide) hne hpath

theorem pathsFrom_twoFactors : twoFactors.pathsFrom false = {[()]} := by
  ext ts
  constructor
  · rintro ⟨hpath, hexit⟩
    match ts with
    | [] => exact absurd rfl hexit
    | [()] => rfl
    | _ :: _ :: _ => exact absurd hpath.2.1 List.not_mem_nil
  · rintro rfl
    exact ⟨⟨by decide, trivial⟩, by decide⟩

theorem distancesToFinal_twoFactors : ∃ d : Distances Bool (Matrix Bool Bool ℕ),
    d.getD false 0 = .single true true 1 ∧ ∃ n, ∀ budget, n ≤ budget →
      (twoFactors.lift : Automaton Option _ _ _ _).distancesToFinal? budget ⟨.fifo, .exact⟩ =
        some (some d) := by
  obtain ⟨d, hd, hrun⟩ := distancesToFinal_eq_finsum Option twoFactors lawful_twoFactors _ rfl
    retraces_twoFactors (Set.toFinite _) acyclic_twoFactors .fifo
  refine ⟨d, ?_, hrun⟩
  rw [(hd false).2.1, pathsFrom_twoFactors, finsum_mem_singleton]
  decide

/-- Multiplied along the path, the weights come to something else. -/
theorem distancesToFinal_against : ∃ d : Distances Bool (Matrix Bool Bool ℕ),
    (∃ n, ∀ budget, n ≤ budget → (twoFactors.lift : Automaton Option _ _ _ _).distancesToFinal?
      budget ⟨.fifo, .exact⟩ = some (some d)) ∧
    d.getD false 0 ≠ ∑ᶠ ts ∈ twoFactors.pathsFrom false,
      twoFactors.pathCost ts * twoFactors.exit (twoFactors.endpoint false ts) := by
  obtain ⟨d, hd, hrun⟩ := exists_distancesToFinal Option lawful_twoFactors rfl
    retraces_twoFactors (Set.toFinite _) acyclic_twoFactors .fifo
  refine ⟨d, hrun, ?_⟩
  rw [(hd false).2, pathsFrom_twoFactors, finsum_mem_singleton, finsum_mem_singleton]
  decide

end Order

end WeightedAutomata.Automaton
