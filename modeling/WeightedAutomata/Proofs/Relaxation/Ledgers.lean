import Mathlib.Algebra.Order.Ring.Rat
import Mathlib.Logic.Relation
import Mathlib.Tactic.NormNum
import WeightedAutomata.Proofs.Paths.Complete
import WeightedAutomata.Proofs.Relaxation.Schedules

/-!
Ledgers of the paths that a relaxation has counted. The distance of a state is the sum over some of
the paths to it, and its residual the sum over those of them that have not been extended. A path is
extended once and only then prolonged, so none is counted twice, whatever the schedule, and wherever
the relaxation is stopped.
-/
namespace WeightedAutomata

variable {L S T W : Type}

/-- The paths behind the weights of a relaxation. -/
structure Ledger (S T : Type) where
  /-- The paths to a state that its distance has counted. -/
  counted : S → List (List T)
  /-- Those of them that its residual holds. -/
  pending : S → List (List T)
  /-- The paths that have been carried along the transitions that leave their ends. -/
  extended : List (List T)

namespace Ledger

variable [BEq S]

/-- Adds paths to those of `target`. -/
def put (table : S → List (List T)) (target : S) (paths : List (List T)) (q : S) : List (List T) :=
  if target == q then table q ++ paths else table q

def start (source : S) : Ledger S T where
  counted := put (fun _ => []) source [[]]
  pending := put (fun _ => []) source [[]]
  extended := []

/-- The ledger once the residual of `state` has been taken. -/
def take (ledger : Ledger S T) (state : S) : Ledger S T :=
  { ledger with pending := fun q => if state == q then [] else ledger.pending q }

/-- The ledger once the residual of `state` has been taken to be carried on. -/
def extend (ledger : Ledger S T) (state : S) : Ledger S T :=
  { ledger.take state with extended := ledger.extended ++ ledger.pending state }

/-- The ledger once `paths` have been added to the distance and the residual of `target`. -/
def gain (ledger : Ledger S T) (target : S) (paths : List (List T)) : Ledger S T where
  counted := put ledger.counted target paths
  pending := put ledger.pending target paths
  extended := ledger.extended

variable {table table' : S → List (List T)} {paths : List (List T)} {p q target : S} {ts : List T}

theorem sublist_put (h : (table' q).Sublist (table q)) :
    (put table' target paths q).Sublist (put table target paths q) := by
  unfold put
  split
  · exact h.append (.refl paths)
  · exact h

variable (table) in
theorem nodup_put (h : (table q).Nodup) (hpaths : paths.Nodup)
    (hnew : ∀ ts ∈ paths, ts ∉ table q) : (put table target paths q).Nodup := by
  unfold put
  split
  · exact List.nodup_append'.2 ⟨h, hpaths, fun ts hts hmem => hnew ts hmem hts⟩
  · exact h

variable [LawfulBEq S]

theorem mem_put : ts ∈ put table target paths q ↔ ts ∈ table q ∨ target = q ∧ ts ∈ paths := by
  unfold put
  split
  · next hq => simp [eq_of_beq hq]
  · next hq =>
    have hne : target ≠ q := by simpa using hq
    simp [hne]

theorem sum_put [AddCommMonoid W] (f : List T → W) : ((put table target paths q).map f).sum =
    if target == q then ((table target).map f).sum + (paths.map f).sum
    else ((table q).map f).sum := by
  unfold put
  split
  · next hq => rw [List.map_append, List.sum_append, eq_of_beq hq]
  · rfl

theorem mem_counted_start {source : S} :
    ts ∈ (start source : Ledger S T).counted q ↔ source = q ∧ ts = [] := by
  simp [start, mem_put]

theorem mem_pending_take {ledger : Ledger S T} :
    ts ∈ (ledger.take p).pending q ↔ p ≠ q ∧ ts ∈ ledger.pending q := by
  simp [take]

end Ledger

variable [BEq S] [Hashable S]

namespace Automaton

section Records

variable [Zero W] [Add W] [Mul W] [BEq W]

/-- Carries `residual`, the sum over `paths`, along several transitions. -/
def carryPaths (Q : Automaton Id L S T W) (converged : Convergence W) (residual : W)
    (paths : List (List T)) (r : Relaxation S W) (ledger : Ledger S T) :
    List T → Relaxation S W × Ledger S T
  | [] => (r, ledger)
  | t :: ts =>
    let target := Q.target t
    let delta := residual * Q.cost t
    if delta == 0 || converged (r.distance target) (r.distance target + delta) then
      Q.carryPaths converged residual paths r ledger ts
    else
      Q.carryPaths converged residual paths (r.gain target delta)
        (ledger.gain target (paths.map (· ++ [t]))) ts

/-- The relaxation and its ledger once `state` has left the frontier. -/
def relaxedPaths (Q : Automaton Id L S T W) (converged : Convergence W) (r : Relaxation S W)
    (ledger : Ledger S T) (state : S) (frontier : Frontier S W) : Relaxation S W × Ledger S T :=
  if r.residual state == 0 then (r.take state frontier, ledger.take state)
  else Q.carryPaths converged (r.residual state) (ledger.pending state) (r.take state frontier)
    (ledger.extend state) (Q.leaving state)

/-- The ledgers that relaxations from `source` come to, whatever their schedules. -/
inductive Records (Q : Automaton Id L S T W) (converged : Convergence W) (source : S) :
    Relaxation S W → Ledger S T → Prop
  | start (discipline : Discipline S W) :
    Records Q converged source (.start discipline source (Q.entry source)) (.start source)
  | relax {r : Relaxation S W} {ledger : Ledger S T} {p : S} {f : Frontier S W}
    (before : Records Q converged source r ledger)
    (leaves : r.frontier.states.Perm (p :: f.states)) :
    Records Q converged source (Q.relaxedPaths converged r ledger p f).1
      (Q.relaxedPaths converged r ledger p f).2

variable {Q : Automaton Id L S T W} {converged : Convergence W} {source : S}
variable {r : Relaxation S W} {ledger : Ledger S T}

theorem fst_carryPaths (ρ : W) (paths : List (List T)) (ts : List T) :
    (Q.carryPaths converged ρ paths r ledger ts).1 = Q.carry converged ρ r ts := by
  induction ts generalizing r ledger with
  | nil => rfl
  | cons t ts ih =>
    have hcarry : Q.carry converged ρ r (t :: ts) = Q.carry converged ρ
      (if ρ * Q.cost t == 0 then r else r.improve converged (Q.target t) (ρ * Q.cost t)) ts := rfl
    rw [hcarry, Relaxation.improve_eq, carryPaths]
    by_cases hz : (ρ * Q.cost t == 0) = true
    · simp [hz, ih]
    · by_cases hc : converged (r.distance (Q.target t)) (r.distance (Q.target t) + ρ * Q.cost t)
      · simp [hz, hc, ih]
      · simp [hz, hc, ih]

theorem fst_relaxedPaths (p : S) (f : Frontier S W) :
    (Q.relaxedPaths converged r ledger p f).1 = Q.relaxed converged r p f := by
  unfold relaxedPaths relaxed
  split
  · rfl
  · exact fst_carryPaths _ _ _

/-- Every stage has a ledger. -/
theorem Stage.records (h : Q.Stage converged source r) :
    ∃ ledger : Ledger S T, Q.Records converged source r ledger := by
  induction h with
  | start discipline => exact ⟨_, .start discipline⟩
  | relax _ hleaves ih =>
    obtain ⟨_, hrecords⟩ := ih
    exact ⟨_, fst_relaxedPaths (Q := Q) _ _ ▸ hrecords.relax hleaves⟩

/-- Numbering the transitions does not change the relaxation. -/
theorem carry_numbered (ρ : W) (r : Relaxation S W) (p : S) :
    Q.numbered.carry converged ρ r (Q.numbered.leaving p) =
      Q.carry converged ρ r (Q.leaving p) := by
  have hleaving : Q.leaving p = (Q.numbered.leaving p).map Prod.fst :=
    (List.zipIdx_map_fst 0 _).symm
  rw [hleaving, carry, carry, List.foldl_map]
  rfl

theorem relaxed_numbered (p : S) (f : Frontier S W) :
    Q.numbered.relaxed converged r p f = Q.relaxed converged r p f := by
  unfold relaxed
  rw [carry_numbered]

theorem Stage.numbered (h : Q.Stage converged source r) :
    Q.numbered.Stage converged source r := by
  induction h with
  | start discipline => exact .start discipline
  | relax _ hleaves ih => exact relaxed_numbered (Q := Q) _ _ ▸ ih.relax hleaves

end Records

/-- What a ledger says of its relaxation: the distances and the residuals are the sums over their
paths. Prolongations of a path are counted only once it has been extended, and no path with a
share in a residual has been. -/
structure Balances [Semiring W] (Q : Automaton Id L S T W) (source : S) (r : Relaxation S W)
    (ledger : Ledger S T) : Prop where
  path : ∀ q, ∀ ts ∈ ledger.counted q, Q.IsPath source ts ∧ Q.endpoint source ts = q
  nodup : ∀ q, (ledger.counted q).Nodup
  distance_eq : ∀ q,
    r.distance q = ((ledger.counted q).map fun ts => Q.forwardWeight (source, ts)).sum
  sublist : ∀ q, (ledger.pending q).Sublist (ledger.counted q)
  residual_eq : ∀ q,
    r.residual q = ((ledger.pending q).map fun ts => Q.forwardWeight (source, ts)).sum
  unextended : ∀ q, ∀ ts ∈ ledger.pending q, ts ∉ ledger.extended
  prolonged : ∀ q ts t, ts ++ [t] ∈ ledger.counted q → ts ∈ ledger.extended
  known : ∀ ts ∈ ledger.extended, ∃ q, ts ∈ ledger.counted q
  once : ledger.extended.Nodup

/-- Different extended paths to `p`, with different transitions `ts` from there by which they have
not been prolonged yet. -/
structure Prolongs (Q : Automaton Id L S T W) (source : S) (ledger : Ledger S T) (p : S)
    (paths : List (List T)) (ts : List T) : Prop where
  nodup : paths.Nodup
  path : ∀ us ∈ paths, Q.IsPath source us ∧ Q.endpoint source us = p
  extended : ∀ us ∈ paths, us ∈ ledger.extended
  distinct : ts.Nodup
  leaving : ∀ t ∈ ts, t ∈ Q.leaving p
  fresh : ∀ us ∈ paths, ∀ t ∈ ts, ∀ q, us ++ [t] ∉ ledger.counted q

section Prolongs

variable {Q : Automaton Id L S T W} {source p : S} {r : Relaxation S W} {ledger : Ledger S T}
variable {paths : List (List T)} {t : T} {ts : List T}

omit [BEq S] [Hashable S] in
theorem Prolongs.tail (h : Q.Prolongs source ledger p paths (t :: ts)) :
    Q.Prolongs source ledger p paths ts where
  nodup := h.nodup
  path := h.path
  extended := h.extended
  distinct := (List.nodup_cons.1 h.distinct).2
  leaving u hu := h.leaving u (List.mem_cons_of_mem t hu)
  fresh us hus u hu := h.fresh us hus u (List.mem_cons_of_mem t hu)

omit [Hashable S] in
theorem Prolongs.gain [LawfulBEq S] (h : Q.Prolongs source ledger p paths (t :: ts)) (target : S) :
    Q.Prolongs source (ledger.gain target (paths.map (· ++ [t]))) p paths ts where
  nodup := h.nodup
  path := h.path
  extended := h.extended
  distinct := h.tail.distinct
  leaving := h.tail.leaving
  fresh us hus u hu q hmem := by
    rcases Ledger.mem_put.1 hmem with hmem | ⟨-, hmem⟩
    · exact h.tail.fresh us hus u hu q hmem
    · obtain ⟨vs, -, heq⟩ := List.mem_map.1 hmem
      obtain ⟨-, htu⟩ := List.append_inj' heq rfl
      obtain rfl : t = u := List.singleton_inj.1 htu
      exact (List.nodup_cons.1 h.distinct).1 hu

end Prolongs

namespace Balances

variable [Semiring W] {Q : Automaton Id L S T W} {source : S} {r : Relaxation S W}
variable {ledger : Ledger S T} [LawfulBEq S]

theorem start (discipline : Discipline S W) :
    Q.Balances source (.start discipline source (Q.entry source)) (.start source) := by
  have hweight : Q.forwardWeight (source, []) = Q.entry source := by
    rw [forwardWeight, pathCost_nil, mul_one]
  constructor
  case path =>
    intro q ts hts
    obtain ⟨rfl, rfl⟩ := Ledger.mem_counted_start.1 hts
    exact ⟨trivial, rfl⟩
  case nodup =>
    intro q
    exact Ledger.nodup_put (fun _ => []) List.nodup_nil (List.nodup_singleton _) fun _ _ =>
      List.not_mem_nil
  case distance_eq =>
    intro q
    rw [Relaxation.distance_start, Ledger.start, Ledger.sum_put]
    simp [hweight]
  case sublist => exact fun q => .refl _
  case residual_eq =>
    intro q
    rw [Relaxation.residual_start, Ledger.start, Ledger.sum_put]
    simp [hweight]
  case unextended => exact fun _ _ _ => List.not_mem_nil
  case prolonged => exact fun q ts t hts => by simpa using (Ledger.mem_counted_start.1 hts).2
  case known => exact List.forall_mem_nil _
  case once => exact List.nodup_nil

/-- A residual that is taken leaves no path pending. -/
theorem take (h : Q.Balances source r ledger) (p : S) (f : Frontier S W) :
    Q.Balances source (r.take p f) (ledger.take p) where
  path := h.path
  nodup := h.nodup
  distance_eq := h.distance_eq
  sublist q := by
    simp only [Ledger.take]
    split
    · exact List.nil_sublist _
    · exact h.sublist q
  residual_eq q := by
    simp only [Relaxation.residual_take, Ledger.take]
    split
    · rfl
    · exact h.residual_eq q
  unextended q ts hts := h.unextended q ts (Ledger.mem_pending_take.1 hts).2
  prolonged := h.prolonged
  known := h.known
  once := h.once

theorem extend (h : Q.Balances source r ledger) (p : S) (f : Frontier S W) :
    Q.Balances source (r.take p f) (ledger.extend p) where
  path := h.path
  nodup := h.nodup
  distance_eq := h.distance_eq
  sublist := (h.take p f).sublist
  residual_eq := (h.take p f).residual_eq
  unextended q ts hts hmem := by
    obtain ⟨hne, hpending⟩ := Ledger.mem_pending_take.1 hts
    rcases List.mem_append.1 hmem with hmem | hmem
    · exact h.unextended q ts hpending hmem
    -- A path to `p` is pending at no other state.
    · have hp := (h.path p ts ((h.sublist p).mem hmem)).2
      have hq := (h.path q ts ((h.sublist q).mem hpending)).2
      exact hne (hp.symm.trans hq)
  prolonged q ts t hts := List.mem_append_left _ (h.prolonged q ts t hts)
  known ts hts := by
    rcases List.mem_append.1 hts with hts | hts
    · exact h.known ts hts
    · exact ⟨p, (h.sublist p).mem hts⟩
  once := List.nodup_append'.2 ⟨h.once, (h.nodup p).sublist (h.sublist p), fun ts hts hmem =>
    h.unextended p ts hmem hts⟩

omit [LawfulBEq S] in
/-- The paths that are about to be prolonged have not been so before. -/
theorem prolongs (h : Q.Balances source r ledger) {p : S} (hleaving : (Q.leaving p).Nodup) :
    Q.Prolongs source (ledger.extend p) p (ledger.pending p) (Q.leaving p) where
  nodup := (h.nodup p).sublist (h.sublist p)
  path us hus := h.path p us ((h.sublist p).mem hus)
  extended _ hus := List.mem_append_right _ hus
  distinct := hleaving
  leaving _ ht := ht
  fresh us hus t _ q hmem := h.unextended p us hus (h.prolonged q us t hmem)

theorem gain {p : S} {paths : List (List T)} {t : T} {ts : List T}
    (h : Q.Balances source r ledger) (hp : Q.Prolongs source ledger p paths (t :: ts)) :
    Q.Balances source
      (r.gain (Q.target t) ((paths.map fun us => Q.forwardWeight (source, us)).sum * Q.cost t))
      (ledger.gain (Q.target t) (paths.map (· ++ [t]))) := by
  have hfresh := fun us hus => hp.fresh us hus t List.mem_cons_self
  have hsum : (paths.map fun us => Q.forwardWeight (source, us)).sum * Q.cost t =
      ((paths.map (· ++ [t])).map fun us => Q.forwardWeight (source, us)).sum := by
    simp only [List.map_map, Function.comp_def, forwardWeight_append, pathCost_cons, pathCost_nil,
      mul_one, List.sum_map_mul_right]
  constructor
  case path =>
    intro q us hus
    rcases Ledger.mem_put.1 hus with hold | ⟨rfl, hnew⟩
    · exact h.path q us hold
    · obtain ⟨vs, hvs, rfl⟩ := List.mem_map.1 hnew
      obtain ⟨hpath, rfl⟩ := hp.path vs hvs
      exact ⟨isPath_append.2 ⟨hpath, hp.leaving t List.mem_cons_self, trivial⟩,
        endpoint_append Q source vs [t]⟩
  case nodup =>
    intro q
    refine Ledger.nodup_put _ (h.nodup q) (hp.nodup.map fun _ _ => List.append_cancel_right) ?_
    intro us hus
    obtain ⟨vs, hvs, rfl⟩ := List.mem_map.1 hus
    exact hfresh vs hvs q
  case distance_eq =>
    intro q
    rw [Relaxation.distance_gain, Ledger.gain, Ledger.sum_put, hsum, h.distance_eq, h.distance_eq]
  case sublist => exact fun q => Ledger.sublist_put (h.sublist q)
  case residual_eq =>
    intro q
    rw [Relaxation.residual_gain, Ledger.gain, Ledger.sum_put, hsum, h.residual_eq, h.residual_eq]
  case unextended =>
    intro q us hus hmem
    rcases Ledger.mem_put.1 hus with hus | ⟨-, hus⟩
    · exact h.unextended q us hus hmem
    -- An extended path has been counted, a new one has not.
    · obtain ⟨vs, hvs, rfl⟩ := List.mem_map.1 hus
      obtain ⟨q', hcounted⟩ := h.known _ hmem
      exact hfresh vs hvs q' hcounted
  case prolonged =>
    intro q us u hus
    rcases Ledger.mem_put.1 hus with hus | ⟨-, hus⟩
    · exact h.prolonged q us u hus
    · obtain ⟨vs, hvs, heq⟩ := List.mem_map.1 hus
      obtain ⟨rfl, -⟩ := List.append_inj' heq rfl
      exact hp.extended vs hvs
  case known =>
    intro us hus
    obtain ⟨q, hq⟩ := h.known us hus
    exact ⟨q, Ledger.mem_put.2 (.inl hq)⟩
  case once => exact h.once

variable [BEq W]

theorem carryPaths {converged : Convergence W} {p : S} {paths : List (List T)} {ts : List T}
    (h : Q.Balances source r ledger) (hp : Q.Prolongs source ledger p paths ts) {ρ : W}
    (hρ : ρ = (paths.map fun us => Q.forwardWeight (source, us)).sum) :
    Q.Balances source (Q.carryPaths converged ρ paths r ledger ts).1
      (Q.carryPaths converged ρ paths r ledger ts).2 := by
  induction ts generalizing r ledger with
  | nil => exact h
  | cons t ts ih =>
    rw [Automaton.carryPaths]
    split
    · exact ih h hp.tail
    · subst hρ
      exact ih (h.gain hp) (hp.gain _)

end Balances

variable [Semiring W] [BEq W] [LawfulBEq S]

theorem Records.balances {Q : Automaton Id L S T W} (hleaving : ∀ s, (Q.leaving s).Nodup)
    {converged : Convergence W} {source : S} {r : Relaxation S W} {ledger : Ledger S T}
    (h : Q.Records converged source r ledger) : Q.Balances source r ledger := by
  induction h with
  | start discipline => exact .start discipline
  | @relax r ledger p f _ _ ih =>
    unfold relaxedPaths
    split
    · exact ih.take p f
    · exact (ih.extend p f).carryPaths (ih.prolongs (hleaving p)) (ih.residual_eq p)

variable [LawfulBEq W]

/-- Whatever the automaton, the schedule and the notion of convergence, every relaxation that the
loop comes to has a ledger in which the paths behind the distances are counted once, and those
behind the residuals have not been extended. No state with a residual is off the frontier. -/
theorem relaxation_counts_once (A : Automaton Id L S T W) (converged : Convergence W) (source : S) :
    (∀ discipline r, Relation.ReflTransGen
      (fun a b => (A.lift : Automaton Option L S T W).relaxNext converged a = some (some b))
      (.start discipline source (A.entry source)) r → A.Stage converged source r) ∧
    ∀ r, A.Stage converged source r →
      (∃ ledger, A.numbered.Records converged source r ledger ∧
        A.numbered.Balances source r ledger) ∧
      ∀ q, r.residual q ≠ 0 → q ∈ r.frontier.states := by
  refine ⟨fun discipline r hrun => ?_, fun r hr => ⟨?_, hr.pends.pending⟩⟩
  · induction hrun with
    | refl => exact .start discipline
    | tail _ hnext ih => exact ih.relaxNext hnext
  · obtain ⟨ledger, hledger⟩ := hr.numbered.records
    exact ⟨ledger, hledger, hledger.balances nodup_leaving_numbered⟩

/-- Less than `tolerance` is gained. -/
def gainsBelow (tolerance : ℚ) : Convergence ℚ := fun previous current =>
  current - previous < tolerance

theorem relaxation_halving_counts_once : ∃ r,
    Relation.ReflTransGen (fun a b => ((loop (1 / 2 : ℚ)).lift : Automaton Option _ _ _ _).relaxNext
        (gainsBelow (1 / 2)) a = some (some b)) (.start .fifo () ((loop (1 / 2 : ℚ)).entry ())) r ∧
      r.frontier.states = [] ∧ r.distance () = 3 / 2 ∧
      (loop (1 / 2)).Stage (gainsBelow (1 / 2)) () r ∧
      (∃ ledger, (loop (1 / 2)).numbered.Records (gainsBelow (1 / 2)) () r ledger ∧
        (loop (1 / 2)).numbered.Balances () r ledger) ∧
      ∀ q, r.residual q ≠ 0 → q ∈ r.frontier.states := by
  let next := ((loop (1 / 2 : ℚ)).lift : Automaton Option _ _ _ _).relaxNext (gainsBelow (1 / 2))
  let start : Relaxation Unit ℚ := .start .fifo () 1
  let once := (start.take () (.empty .fifo)).gain () (1 * (1 / 2))
  let last := once.take () (.empty .fifo)
  have hdist : once.distance () = 3 / 2 := by
    rw [Relaxation.distance_gain, Relaxation.distance_take, Relaxation.distance_start]
    norm_num
  have hstart : next start = some (some once) := by
    have hres : start.residual () = 1 := Relaxation.residual_start ..
    have hdist : start.distance () = 1 := Relaxation.distance_start ..
    refine (relaxNext_loop rfl hres hdist _).trans ?_
    rw [if_neg (by norm_num [gainsBelow])]
    rfl
  have honce : next once = some (some last) := by
    have hres : once.residual () = 1 / 2 := by
      rw [Relaxation.residual_gain, Relaxation.residual_take]
      norm_num
    refine (relaxNext_loop rfl hres hdist _).trans ?_
    rw [if_pos (by norm_num [gainsBelow])]
    rfl
  obtain ⟨hstage, hledger⟩ := relaxation_counts_once (loop (1 / 2 : ℚ)) (gainsBelow (1 / 2)) ()
  have hrun : Relation.ReflTransGen (fun a b => next a = some (some b)) start last :=
    .tail (.single hstart) honce
  have hlast := hstage .fifo last hrun
  exact ⟨last, hrun, rfl, hdist, hlast, hledger last hlast⟩

end Automaton

end WeightedAutomata
