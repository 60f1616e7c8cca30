import Mathlib.Data.List.Forall2
import WeightedAutomata.Proofs.Boolean
import WeightedAutomata.Proofs.Determinization.Replay

/-!
Determinization keeps the weights of strings. After each prefix of a string the residuals are the
sums over the paths that read it, with the inverses of the totals met so far as a left factor.
-/
namespace WeightedAutomata.Automaton

variable {m : Type → Type} {L S T W : Type} [BEq L] [LawfulBEq L] [Semiring W] [PartialInverse W]

/-- The factor on the residuals at a prefix, before its own total is divided out: the inverses of
the totals of the shorter prefixes, the latest leftmost. -/
inductive Factor (A : Automaton Id L S T W) : List L → W → Prop where
  | nil : A.Factor [] 1
  | snoc {u : List L} {a : L} {c b : W} : A.Factor u c → c * A.arrival u ≠ 0 →
      PartialInverse.inverse (c * A.arrival u) = .ok b → A.Factor (u ++ [a]) (b * c)

/-- The total after every prefix that can be read has an inverse. -/
def Invertible (A : Automaton Id L S T W) (x : List L) : Prop :=
  ∀ u c, u <+: x → A.Factor u c → c * A.arrival u ≠ 0 →
    ∃ b, PartialInverse.inverse (c * A.arrival u) = .ok b

namespace Factor

variable {A : Automaton Id L S T W} {u : List L} {a : L} {c c' : W}

omit [BEq L] [LawfulBEq L] in
/-- What has been divided out on the way to a longer string. -/
theorem of_append {x : List L} (h : A.Factor x c) {v : List L} (hx : x = u ++ a :: v) :
    ∃ c b, A.Factor u c ∧ c * A.arrival u ≠ 0 ∧
      PartialInverse.inverse (c * A.arrival u) = .ok b := by
  induction h generalizing v with
  | nil => simp at hx
  | @snoc w _ c b hw hne hinv ih =>
    rcases v.eq_nil_or_concat with rfl | ⟨v, z, rfl⟩
    · obtain ⟨rfl, -⟩ := List.append_inj' hx rfl
      exact ⟨c, b, hw, hne, hinv⟩
    · rw [List.concat_eq_append, ← List.cons_append, ← List.append_assoc] at hx
      exact ih (List.append_inj' hx rfl).1

omit [BEq L] [LawfulBEq L] in
theorem unique (h : A.Factor u c) (h' : A.Factor u c') : c = c' := by
  induction h generalizing c' with
  | nil =>
    generalize hu : ([] : List L) = u at h'
    cases h' with
    | nil => rfl
    | snoc => simp at hu
  | @snoc w a c b hw hne hinv ih =>
    generalize hu : w ++ [a] = u at h'
    cases h' with
    | nil => simp at hu
    | @snoc w' _ d e hw' hne' hinv' =>
      obtain ⟨rfl, -⟩ := List.append_inj' hu rfl
      obtain rfl := ih hw'
      rw [hinv] at hinv'
      rw [Except.ok.inj hinv']

omit [BEq L] [LawfulBEq L] in
theorem total_ne_zero {w : W} {v : List L} (h : A.Factor u c) (hw : A.Factor (u ++ v) w)
    (hne : w * A.arrival (u ++ v) ≠ 0) : c * A.arrival u ≠ 0 := by
  cases v with
  | nil =>
    rw [List.append_nil] at hw hne
    rwa [h.unique hw]
  | cons a v =>
    obtain ⟨c', -, hc', hne', -⟩ := hw.of_append rfl
    rwa [h.unique hc']

end Factor

variable {A : Automaton Id L S T W} {closure : S → ℕ} {μ : SubsetMemory L S W}
variable [BEq S] [BEq W] [LawfulBEq W] {x : List L}

namespace Remembers

variable (h : A.Remembers closure μ) (hknown : ∀ p, ((A.table μ).reading x).Reachable p →
  p.left ∈ μ.explored)
include h

theorem tableRest_eq {i j : ℕ} (hi : ((A.table μ).reading x).Reachable ⟨i, j, .free⟩) :
    A.tableRest μ x i j = (weigh (μ.subset i) A.exit * if j = x.length then 1 else 0) +
      (x[j]?).elim 0 fun a =>
        (A.table μ).onLabel (some a) (fun k => A.tableRest μ x k (j + 1)) i := by
  have hnone (g : ℕ → W) : (A.table μ).onLabel none g i = 0 :=
    List.sum_eq_zero fun w hw => by
      obtain ⟨t, -, rfl⟩ := List.mem_map.1 hw
      rfl
  rw [tableRest, rest_eq h.deterministic_table.bounded_reading hi, hnone, zero_add]
  rfl

theorem tableRest_end {i : ℕ} (hi : ((A.table μ).reading x).Reachable ⟨i, x.length, .free⟩) :
    A.tableRest μ x i x.length = weigh (μ.subset i) A.exit := by
  rw [h.tableRest_eq hi, if_pos rfl, mul_one, List.getElem?_eq_none le_rfl, Option.elim_none,
    add_zero]

include hknown in
theorem tableRest_step {i j : ℕ} {a : L} (hi : ((A.table μ).reading x).Reachable ⟨i, j, .free⟩)
    (hx : x[j]? = some a) : ∃ r, Settles μ (A.stepValue closure (μ.subset i) a) r ∧
      A.tableRest μ x i j = outcome r (fun k => A.tableRest μ x k (j + 1)) ∧
        ∀ p ∈ r, ((A.table μ).reading x).Reachable ⟨p.1, j + 1, .free⟩ := by
  have hlt : j < x.length := (List.getElem?_eq_some_iff.1 hx).1
  obtain ⟨r, hr, hfilter⟩ := h.expanded_leaving (hknown _ hi) a
  refine ⟨r, hr, ?_, fun p hp => ?_⟩
  · have hsum := sum_map_filter (fun t => t.label == a) ((A.table μ).leaving i) fun t =>
      t.weight * A.tableRest μ x t.target (j + 1)
    rw [hfilter] at hsum
    rw [h.tableRest_eq hi, if_neg (Nat.ne_of_lt hlt), mul_zero, zero_add, hx, Option.elim_some,
      onLabel]
    apply Eq.trans hsum.symm
    cases r <;> simp [outcome]
  · have hmem : (⟨i, p.1, a, p.2⟩ : SubsetTransition L W) ∈
        ((A.table μ).leaving i).filter fun t => t.label == a := by
      rw [hfilter, Option.mem_toList]
      exact Option.mem_map_of_mem _ hp
    obtain ⟨u, hu, htarget⟩ := exists_leaving_reading (List.mem_filter.1 hmem).1
      (.inr ⟨a, rfl, hx⟩)
    have hnext := hi.step hu
    rw [show ((A.table μ).reading x).target u = u.target from rfl, htarget] at hnext
    exact hnext

end Remembers

/-- The sums, from the initial states, over the paths that read `u`, with a factor. -/
def scaled (A : Automaton Id L S T W) (closure : S → ℕ) (c : W) (u : List L) (g : S → W) : W :=
  c * A.startValue closure (A.after closure g u)

omit [LawfulBEq L] [PartialInverse W] [LawfulBEq W] in
/-- A step from a subset with scaled sums leads to scaled sums. -/
theorem stepValue_scaled {subset : WeightedStates S W} {b c : W} {u : List L}
    (hsubset : ∀ g, weigh subset g = b * A.scaled closure c u g) (a : L) :
    A.stepValue closure subset a = A.scaled closure (b * c) (u ++ [a]) := by
  funext g
  rw [stepValue, hsubset, scaled, scaled, after_append, mul_assoc]
  rfl

omit [BEq L] [LawfulBEq L] [BEq S] [BEq W] [LawfulBEq W] in
/-- The total times what is left of the state gives back the sums that were settled. -/
theorem Settles.outcome_eq {value : (S → W) → W} {r : Option (ℕ × W)} (hr : Settles μ value r)
    (hinverse : ∀ a b : W, PartialInverse.inverse a = .ok b → a * b = 1)
    (hok : value (fun _ => 1) ≠ 0 → ∃ b, PartialInverse.inverse (value fun _ => 1) = .ok b)
    {f : S → W} {g : ℕ → W}
    (hplaced : ∀ i b, r = some (i, value fun _ => 1) → value (fun _ => 1) ≠ 0 →
      PartialInverse.inverse (value fun _ => 1) = .ok b →
        (∀ f, weigh (μ.subset i) f = b * value f) → g i = weigh (μ.subset i) f) :
    outcome r g = value f := by
  cases hr with
  | vanished hz => exact (hz f).symm
  | stuck hne herror _ =>
    obtain ⟨b, hinv⟩ := hok hne
    rw [hinv] at herror
    cases herror
  | @placed b i hne hinv _ hweigh =>
    change (value fun _ => 1) * g i = value f
    rw [hplaced i b rfl hne hinv hweigh, hweigh, ← mul_assoc, hinverse _ _ hinv, one_mul]

section Runs

variable (h : A.Remembers closure μ) (hknown : ∀ p, ((A.table μ).reading x).Reachable p →
  p.left ∈ μ.explored)
variable (harrival : ∀ u, A.startValue closure (A.after closure (fun _ => 1) u) = A.arrival u)
variable {r : Option (ℕ × W)} {c : W} {u v : List L}
include h hknown harrival

/-- Where all totals can be inverted, a run on the table has the weight of the operand. -/
theorem outcome_of_invertible
    (hinverse : ∀ a b : W, PartialInverse.inverse a = .ok b → a * b = 1) (hok : A.Invertible x)
    (hx : x = u ++ v) (hc : A.Factor u c) (hr : Settles μ (A.scaled closure c u) r)
    (hreach : ∀ p ∈ r, ((A.table μ).reading x).Reachable ⟨p.1, u.length, .free⟩) :
    outcome r (fun i => A.tableRest μ x i u.length) =
      A.scaled closure c u (A.after closure A.exit v) := by
  have htotal (u : List L) (c : W) : A.scaled closure c u (fun _ => 1) = c * A.arrival u := by
    rw [scaled, harrival]
  induction v generalizing u c r with
  | nil =>
    have hend : u.length = x.length := by rw [hx, List.append_nil]
    apply hr.outcome_eq hinverse (htotal u c ▸ hok u c (hx ▸ List.prefix_append u []) hc)
    intro i b hplaced _ _ _
    rw [hend] at hreach ⊢
    exact h.tableRest_end (hreach _ hplaced)
  | cons a v ih =>
    apply hr.outcome_eq hinverse (htotal u c ▸ hok u c (hx ▸ List.prefix_append u _) hc)
    intro i b hplaced hne hinv hweigh
    rw [htotal] at hne hinv
    have hget : x[u.length]? = some a := by simp [hx]
    obtain ⟨r', hr', hrest, hreach'⟩ := h.tableRest_step hknown (hreach _ hplaced) hget
    rw [stepValue_scaled hweigh] at hr'
    have hnext := ih (by simp [hx]) (hc.snoc hne hinv) hr' (by simpa using hreach')
    rw [← stepValue_scaled hweigh, List.length_append, List.length_singleton] at hnext
    exact hrest.trans hnext

/-- Where a total has no inverse, a run on the table ends there, and the failure is remembered. -/
theorem outcome_of_stuck {w : W} {e : InverseError} (hx : u ++ v <+: x) (hw : A.Factor (u ++ v) w)
    (hne : w * A.arrival (u ++ v) ≠ 0)
    (herror : PartialInverse.inverse (w * A.arrival (u ++ v)) = .error e) (hc : A.Factor u c)
    (hr : Settles μ (A.scaled closure c u) r)
    (hreach : ∀ p ∈ r, ((A.table μ).reading x).Reachable ⟨p.1, u.length, .free⟩) :
    outcome r (fun i => A.tableRest μ x i u.length) = 0 ∧ μ.failure.isSome := by
  have htotal (u : List L) (c : W) : A.scaled closure c u (fun _ => 1) = c * A.arrival u := by
    rw [scaled, harrival]
  induction v generalizing u c r with
  | nil =>
    cases hr with
    | vanished hz => exact absurd ((htotal u c).symm.trans (hz _)) (hc.total_ne_zero hw hne)
    | stuck _ _ hf => exact ⟨rfl, hf⟩
    | placed _ hinv _ _ =>
      rw [List.append_nil] at hw herror
      rw [htotal, hc.unique hw, herror] at hinv
      cases hinv
  | cons a v ih =>
    cases hr with
    | vanished hz => exact absurd ((htotal u c).symm.trans (hz _)) (hc.total_ne_zero hw hne)
    | stuck _ _ hf => exact ⟨rfl, hf⟩
    | @placed b i hne' hinv _ hweigh =>
      have hget : x[u.length]? = some a := by
        obtain ⟨t, rfl⟩ := hx
        simp
      obtain ⟨r', hr', hrest, hreach'⟩ := h.tableRest_step hknown (hreach _ rfl) hget
      rw [stepValue_scaled hweigh] at hr'
      have hsplit : u ++ a :: v = (u ++ [a]) ++ v := by simp
      rw [hsplit] at hx hw hne herror
      rw [htotal] at hne' hinv
      obtain ⟨hzero, hf⟩ := ih hx hw hne herror (hc.snoc hne' hinv) hr' (by simpa using hreach')
      rw [List.length_append, List.length_singleton] at hzero
      refine ⟨?_, hf⟩
      change _ * A.tableRest μ x i u.length = 0
      rw [hrest.trans hzero, mul_zero]

end Runs

section Determinize

variable [Monad m] [LawfulMonad m] [StepLimited m] [LawfulBEq S] [Hashable S]
variable (hinverse : ∀ a b : W, PartialInverse.inverse a = .ok b → a * b = 1)
variable (hzero : ZeroSumFree W)
include hinverse hzero

/-- The weight of one string, asked for whatever the memory holds already. -/
theorem Remembers.stringWeight_run (h : A.Remembers closure μ) {B : Automaton m L S T W}
    {budget : ℕ} (hB : B.Answers A A.Reachable) (hcloses : B.Closes A closure budget)
    (harrival : ∀ u, A.startValue closure (A.after closure (fun _ => 1) u) = A.arrival u)
    (queue : Queue W) (x : List L) {steps : ℕ} (hsteps : x.length + 2 < steps) : ∃ w ν,
      A.Remembers closure ν ∧ μ.Extends ν ∧
        ((B.determinize budget).stringWeight steps ⟨queue, .exact⟩ x).run μ = pure (w, ν) ∧
          (A.Invertible x → w = A.startValue closure (A.after closure A.exit x)) ∧
            (¬A.Invertible x → w = 0 ∧ ν.failure.isSome) := by
  rcases follows_stringWeight hzero hB hcloses steps ⟨queue, .exact⟩ x μ h with
    ⟨w, ν, hν, hext, hrun, hlater⟩ | ⟨ν, hν, -, hnone⟩
  · refine ⟨w, ν, hν, hext, hrun, ?_⟩
    have hweight :=
      (hν.recalled_stringWeight queue x hsteps).symm.trans (hlater ν hν (.refl ν) false)
    obtain ⟨hstart, hknown⟩ := hν.known_of_recalled (hlater ν hν (.refl ν) true)
    obtain ⟨r, hstart⟩ := Option.isSome_iff_exists.1 hstart
    have hone : A.scaled closure 1 [] = A.startValue closure := by
      funext g
      rw [scaled, one_mul]
      rfl
    have hr : Settles ν (A.scaled closure 1 []) r := by
      rw [hone]
      exact hν.start r hstart
    have hreach : ∀ p ∈ r, ((A.table ν).reading x).Reachable ⟨p.1, 0, .free⟩ := by
      intro p hp
      refine .start ?_
      rw [starts_reading hν.lawful_table]
      exact List.mem_map.2 ⟨p.1, mem_starts_table.2 ⟨p.2, by rw [hstart, ← hp]⟩, rfl⟩
    rw [hstart, Option.join_some, Option.some_inj] at hweight
    rw [← hweight]
    constructor
    · intro hok
      rw [← hone]
      exact outcome_of_invertible hν hknown harrival hinverse hok rfl .nil hr hreach
    · intro hstuck
      simp only [Invertible, not_forall, exists_prop] at hstuck
      obtain ⟨u, c, hu, hc, hne, herror⟩ := hstuck
      cases hinv : PartialInverse.inverse (c * A.arrival u) with
      | ok b => exact absurd ⟨b, hinv⟩ herror
      | error e =>
        exact outcome_of_stuck hν hknown harrival (u := []) hu hc hne hinv .nil hr hreach
  · cases (hν.recalled_stringWeight queue x hsteps).symm.trans hnone

/-- The weights of strings asked for one after the other. -/
theorem Remembers.stringWeights_run (h : A.Remembers closure μ) {B : Automaton m L S T W}
    {budget : ℕ} (hB : B.Answers A A.Reachable) (hcloses : B.Closes A closure budget)
    (harrival : ∀ u, A.startValue closure (A.after closure (fun _ => 1) u) = A.arrival u)
    (queue : Queue W) {steps : ℕ} {xs : List (List L)} (hsteps : ∀ x ∈ xs, x.length + 2 < steps) :
    ∃ ws ν, A.Remembers closure ν ∧ μ.Extends ν ∧
      (xs.mapM ((B.determinize budget).stringWeight steps ⟨queue, .exact⟩)).run μ = pure (ws, ν) ∧
        List.Forall₂ (fun x w =>
          (A.Invertible x → w = A.startValue closure (A.after closure A.exit x)) ∧
            (¬A.Invertible x → w = 0 ∧ ν.failure.isSome)) xs ws := by
  induction xs generalizing μ with
  | nil => exact ⟨[], μ, h, .refl μ, by simp, .nil⟩
  | cons x xs ih =>
    obtain ⟨w, ν, hν, hext, hrun, hok, hstuck⟩ := h.stringWeight_run hinverse hzero hB hcloses
      harrival queue x (hsteps x List.mem_cons_self)
    obtain ⟨ws, ξ, hξ, hext', hrun', hall⟩ := ih hν fun y hy => hsteps y (List.mem_cons_of_mem x hy)
    refine ⟨w :: ws, ξ, hξ, hext.trans hext', ?_, .cons ⟨hok, fun hnot => ?_⟩ hall⟩
    · simp only [List.mapM_cons, StateT.run_bind, StateT.run_pure, hrun, hrun', pure_bind]
    · exact ⟨(hstuck hnot).1, hext'.isSome_failure (hstuck hnot).2⟩

end Determinize

variable [Monad m] [LawfulMonad m] [StepLimited m] [LawfulBEq S] [Hashable S]

variable (m) in
/-- Strings are asked for one after the other. A string on which every total has an inverse keeps
the weight that it has in the operand; any other string gets weight zero, and a failure is recorded
from then on. -/
theorem determinize_stringWeight (A : Automaton Id L S T W) (hA : A.Lawful)
    (hfinite : {s | A.Reachable s}.Finite) (hepsilon : A.EpsilonAcyclic)
    (hinverse : ∀ a b : W, PartialInverse.inverse a = .ok b → a * b = 1) (hzero : ZeroSumFree W)
    (queue : Queue W) (xs : List (List L)) : ∃ n, ∀ inner budget, n ≤ inner → n ≤ budget →
      ∃ ws memory, (xs.mapM (((A.lift : Automaton m L S T W).determinize inner).stringWeight budget
        ⟨queue, .exact⟩)).run .empty = pure (ws, memory) ∧
          List.Forall₂ (fun x w =>
            (A.Invertible x → (A.lift : Automaton m L S T W).stringWeight budget ⟨queue, .exact⟩ x =
              pure w) ∧
            (¬A.Invertible x → w = 0 ∧ memory.failure.isSome)) xs ws := by
  obtain ⟨closure, hc⟩ := exists_bounded_epsilonPart hfinite hepsilon
  have hlift := lift_answers_reachable m A
  obtain ⟨n, hn⟩ := hlift.exists_closes hA hfinite hc
  have hoperand (x : List L) : ∃ k, ∀ budget, k ≤ budget →
      (A.lift : Automaton m L S T W).stringWeight budget ⟨queue, .exact⟩ x =
        pure (A.startValue closure (A.after closure A.exit x)) :=
    hlift.exists_stringWeight_eq hA hfinite hepsilon hc queue x
  choose k hk using hoperand
  refine ⟨n + (xs.map fun x => k x + x.length + 3).sum, fun inner budget hinner hbudget => ?_⟩
  have henough : ∀ x ∈ xs, k x + x.length + 3 ≤ budget := by
    intro x hx
    have hle : k x + x.length + 3 ≤ (xs.map fun x => k x + x.length + 3).sum :=
      List.le_sum_of_mem (List.mem_map.2 ⟨x, hx, rfl⟩)
    omega
  have hsteps : ∀ x ∈ xs, x.length + 2 < budget := by
    intro x hx
    have hle := henough x hx
    omega
  obtain ⟨ws, memory, -, -, hrun, hall⟩ := remembers_empty.stringWeights_run hinverse hzero hlift
    (hn inner (by omega)) (fun u => (arrival_eq hA hfinite hepsilon hc u).symm) queue hsteps
  refine ⟨ws, memory, hrun, ((List.forall₂_and_left xs ws).2 ⟨henough, hall⟩).imp ?_⟩
  rintro x w ⟨hle, hok, hstuck⟩
  refine ⟨fun hinvertible => ?_, hstuck⟩
  rw [hk x budget (by omega), hok hinvertible]

/-- Reads its label in a loop or on the way to a final state, from which an epsilon transition leads
back. -/
def loopOrDetour : Automaton Id Unit Bool (Fin 3) BooleanWeight where
  initialStates := pure [false]
  outgoing s := pure (if s then [2] else [0, 1])
  initialWeight s := pure (if s then 0 else 1)
  finalWeight s := pure (if s then 1 else 0)
  weight _ := pure 1
  source t := t = 2
  target t := t = 1
  label t := if t = 2 then none else some ()

theorem determinize_loopOrDetour : ∃ n, ∀ inner budget, n ≤ inner → n ≤ budget →
    ∃ ws memory, ([[], [(), ()]].mapM (((loopOrDetour.lift : Automaton Option _ _ _ _).determinize
      inner).stringWeight budget ⟨.fifo, .exact⟩)).run .empty = some (ws, memory) ∧
        List.Forall₂ (fun x w =>
          (loopOrDetour.Invertible x → (loopOrDetour.lift : Automaton Option _ _ _ _).stringWeight
            budget ⟨.fifo, .exact⟩ x = some w) ∧
          (¬loopOrDetour.Invertible x → w = 0 ∧ memory.failure.isSome)) [[], [(), ()]] ws := by
  refine determinize_stringWeight Option loopOrDetour ⟨by decide, by decide, by decide⟩
    (Set.toFinite _) ?_ ?_ ?_ .fifo [[], [(), ()]]
  · intro s _ ts hne hpath hlabels hend
    have hlabeled : ∀ t ∈ loopOrDetour.leaving false, loopOrDetour.label t ≠ none := by decide
    have hback : ∀ t ∈ loopOrDetour.leaving true, loopOrDetour.target t = false := by decide
    have hnone := List.filterMap_eq_nil_iff.1 hlabels
    match s, ts with
    | s, [] => exact hne rfl
    | false, t :: ts => exact hlabeled t hpath.1 (hnone t List.mem_cons_self)
    | true, [t] => exact absurd ((hback t hpath.1).symm.trans hend) nofun
    | true, t :: u :: ts =>
      refine hlabeled u ?_ (hnone u (by simp))
      rw [← hback t hpath.1]
      exact hpath.2.1
  · rintro ⟨_ | _⟩ b h
    · cases h
    · cases h
      rfl
  · rintro ⟨_ | _⟩ ⟨_ | _⟩ h
    · exact ⟨rfl, rfl⟩
    · cases h
    · cases h
    · cases h

end WeightedAutomata.Automaton
