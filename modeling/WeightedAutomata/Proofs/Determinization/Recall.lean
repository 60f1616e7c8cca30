import WeightedAutomata.Proofs.Determinization.Queries
import WeightedAutomata.Proofs.Determinization.Table
import WeightedAutomata.Proofs.Hoist

/-!
Whatever is computed from the answers of a determinization could be computed from what it remembers
in the end. A run that asks its queries as it goes is followed side by side with a run on the final
memory.
-/
namespace WeightedAutomata.Automaton

variable {m : Type → Type} {L S T W : Type} [BEq L] [BEq S] [Semiring W] [BEq W] [PartialInverse W]

/-- The table of a memory, asked about known subsets; with `strict`, only for answers that have been
given before. -/
def recalled (A : Automaton Id L S T W) (μ : SubsetMemory L S W) (strict : Bool) :
    Automaton Option L ℕ (SubsetTransition L W) W where
  initialStates := if strict → μ.start.isSome then some (A.table μ).starts else none
  outgoing i :=
    if i < μ.subsets.size ∧ (strict → i ∈ μ.explored) then some ((A.table μ).leaving i)
    else none
  initialWeight i := if strict → μ.start.isSome then some ((A.table μ).entry i) else none
  finalWeight i := if i < μ.subsets.size then some ((A.table μ).exit i) else none
  weight t := some t.weight
  source := SubsetTransition.source
  target := SubsetTransition.target
  label t := some t.label

/-- From every memory, `x` comes to an answer that `y` gives at every later memory; or `y` has none
at some later memory. -/
def Follows [Monad m] (A : Automaton Id L S T W) (closure : S → ℕ) {α : Type}
    (x : Subsets m L S W α) (y : SubsetMemory L S W → Bool → Option α) : Prop :=
  ∀ μ, A.Remembers closure μ →
    (∃ a ν, A.Remembers closure ν ∧ μ.Extends ν ∧ x.run μ = pure (a, ν) ∧
      ∀ ξ, A.Remembers closure ξ → ν.Extends ξ → ∀ strict, y ξ strict = some a) ∨
    ∃ ν, A.Remembers closure ν ∧ μ.Extends ν ∧ y ν false = none

namespace Follows

variable [Monad m] {A : Automaton Id L S T W} {closure : S → ℕ} {α β : Type}

theorem pure (a : α) :
    A.Follows closure (Pure.pure a : Subsets m L S W α) fun _ _ => some a :=
  fun μ h => .inl ⟨a, μ, h, .refl μ, rfl, fun _ _ _ _ => rfl⟩

theorem outOfSteps [StepLimited m] :
    A.Follows closure (StepLimited.outOfSteps : Subsets m L S W α) fun _ _ => none :=
  fun μ h => .inr ⟨μ, h, .refl μ, rfl⟩

theorem bind [LawfulMonad m] {x : Subsets m L S W α} {y : SubsetMemory L S W → Bool → Option α}
    {f : α → Subsets m L S W β} {g : α → SubsetMemory L S W → Bool → Option β}
    (hx : A.Follows closure x y) (hf : ∀ a, A.Follows closure (f a) (g a)) :
    A.Follows closure (x >>= f) fun μ strict => (y μ strict).bind fun a => g a μ strict := by
  intro μ h
  rcases hx μ h with ⟨a, ν, hν, hext, hrun, hlater⟩ | ⟨ν, hν, hext, hnone⟩
  · rcases hf a ν hν with ⟨b, ξ, hξ, hext', hrun', hlater'⟩ | ⟨ξ, hξ, hext', hnone⟩
    · refine .inl ⟨b, ξ, hξ, hext.trans hext', ?_, fun ω hω hext'' strict => ?_⟩
      · rw [StateT.run_bind, hrun, pure_bind]
        exact hrun'
      · dsimp only
        rw [hlater ω hω (hext'.trans hext''), Option.bind_some]
        exact hlater' ω hω hext'' strict
    · refine .inr ⟨ξ, hξ, hext.trans hext', ?_⟩
      dsimp only
      rw [hlater ξ hξ hext', Option.bind_some]
      exact hnone
  · refine .inr ⟨ν, hν, hext, ?_⟩
    dsimp only
    rw [hnone, Option.bind_none]

end Follows

/-- A run of queries together with what it amounts to on a memory. -/
structure Tandem (A : Automaton Id L S T W) (closure : S → ℕ) (m : Type → Type) [Monad m]
    (α : Type) where
  ask : Subsets m L S W α
  answer : SubsetMemory L S W → Bool → Option α
  follows : A.Follows closure ask answer

namespace Tandem

variable [Monad m] [LawfulMonad m] {A : Automaton Id L S T W} {closure : S → ℕ}

instance : Monad (Tandem A closure m) where
  pure a := ⟨pure a, fun _ _ => some a, .pure a⟩
  bind x f := ⟨x.ask >>= fun a => (f a).ask,
    fun μ strict => (x.answer μ strict).bind fun a => (f a).answer μ strict,
    x.follows.bind fun a => (f a).follows⟩

variable [StepLimited m]

instance : StepLimited (Tandem A closure m) :=
  ⟨⟨StepLimited.outOfSteps, fun _ _ => none, .outOfSteps⟩⟩

def asking : Translation (Tandem A closure m) (Subsets m L S W) where
  map := ask
  pure _ := rfl
  bind _ _ := rfl
  outOfSteps := rfl

def answering (μ : SubsetMemory L S W) (strict : Bool) :
    Translation (Tandem A closure m) Option where
  map x := x.answer μ strict
  pure _ := rfl
  bind _ _ := rfl
  outOfSteps := rfl

end Tandem

section Determinize

variable [Monad m] [LawfulMonad m] [StepLimited m] [LawfulBEq L] [LawfulBEq S] [Hashable S]
variable [LawfulBEq W] {A : Automaton Id L S T W} {closure : S → ℕ} {B : Automaton m L S T W}
variable {budget : ℕ} (hzero : ZeroSumFree W) (hB : B.Answers A A.Reachable)
variable (hcloses : B.Closes A closure budget)
include hzero hB hcloses

omit [LawfulBEq L] in
theorem follows_initialStates : A.Follows closure (B.determinize budget).initialStates
    fun μ strict => (A.recalled μ strict).initialStates := by
  intro μ h
  obtain ⟨r, ν, hν, hext, hstart, hrun⟩ := h.startSubset_run hzero hB hcloses
  refine .inl ⟨(r.map Prod.fst).toList, ν, hν, hext, ?_, fun ξ _ hext' strict => ?_⟩
  · simp only [determinize, StateT.run_bind, StateT.run_pure, hrun, pure_bind]
    cases r <;> rfl
  · have hlater : ξ.start = some r := hext'.start r hstart
    simp [recalled, starts_table, hlater]

omit [LawfulBEq L] in
theorem follows_initialWeight (i : ℕ) : A.Follows closure ((B.determinize budget).initialWeight i)
    fun μ strict => (A.recalled μ strict).initialWeight i := by
  intro μ h
  obtain ⟨r, ν, hν, hext, hstart, hrun⟩ := h.startSubset_run hzero hB hcloses
  refine .inl ⟨r.elim 0 fun p => if p.1 = i then p.2 else 0, ν, hν, hext, ?_,
    fun ξ _ hext' strict => ?_⟩
  · simp only [determinize, StateT.run_bind, hrun, pure_bind]
    cases r <;> rfl
  · have hlater : ξ.start = some r := hext'.start r hstart
    simp [recalled, entry_table, hlater]

theorem follows_outgoing (i : ℕ) : A.Follows closure ((B.determinize budget).outgoing i)
    fun μ strict => (A.recalled μ strict).outgoing i := by
  intro μ h
  by_cases hi : i < μ.subsets.size
  · obtain ⟨ts, ν, hν, hext, hknown, hrun⟩ := h.outgoing_run hzero hB hcloses hi
    refine .inl ⟨ts, ν, hν, hext, hrun, fun ξ _ hext' strict => ?_⟩
    have hlater : ξ.explored[i]? = some ts := hext'.explored i ts hknown
    have hlt : i < ξ.subsets.size := lt_of_lt_of_le hi (hext.trans hext').size_le
    have hmem : i ∈ ξ.explored := by
      rw [Std.HashMap.mem_iff_isSome_getElem?, hlater]
      rfl
    dsimp only [recalled]
    rw [if_pos ⟨hlt, fun _ => hmem⟩, leaving_table, Std.HashMap.getD_eq_getD_getElem?, hlater]
    rfl
  · exact .inr ⟨μ, h, .refl μ, if_neg fun hlt => hi hlt.1⟩

omit [LawfulBEq L] [LawfulBEq S] [LawfulBEq W] hzero hcloses in
theorem follows_finalWeight (i : ℕ) : A.Follows closure ((B.determinize budget).finalWeight i)
    fun μ strict => (A.recalled μ strict).finalWeight i := by
  intro μ h
  by_cases hi : i < μ.subsets.size
  · refine .inl ⟨weigh (μ.subset i) A.exit, μ, h, .refl μ, h.finalWeight_run hB i,
      fun ξ _ hext strict => ?_⟩
    have hlt : i < ξ.subsets.size := lt_of_lt_of_le hi hext.size_le
    simp [recalled, exit_table, hlt, hext.subset_eq i hi]
  · exact .inr ⟨μ, h, .refl μ, if_neg hi⟩

/-- The determinization side by side with the table of what it remembers. -/
def tandem : Automaton (Tandem A closure m) L ℕ (SubsetTransition L W) W where
  initialStates := ⟨_, _, follows_initialStates hzero hB hcloses⟩
  outgoing i := ⟨_, _, follows_outgoing hzero hB hcloses i⟩
  initialWeight i := ⟨_, _, follows_initialWeight hzero hB hcloses i⟩
  finalWeight i := ⟨(B.determinize budget).finalWeight i, _, follows_finalWeight hB i⟩
  weight t := pure t.weight
  source := SubsetTransition.source
  target := SubsetTransition.target
  label t := some t.label

theorem hoist_asking_tandem :
    (tandem hzero hB hcloses).hoist Tandem.asking.map = B.determinize budget := rfl

theorem hoist_answering_tandem (μ : SubsetMemory L S W) (strict : Bool) :
    (tandem hzero hB hcloses).hoist (Tandem.answering μ strict).map = A.recalled μ strict := rfl

/-- A string weight computed by a determinization is the one that its memory gives. -/
theorem follows_stringWeight (steps : ℕ) (solver : Solver W) (x : List L) : A.Follows closure
    ((B.determinize budget).stringWeight steps solver x)
      fun μ strict => (A.recalled μ strict).stringWeight steps solver x := by
  simp only [← hoist_asking_tandem hzero hB hcloses, ← hoist_answering_tandem hzero hB hcloses,
    hoist_stringWeight]
  exact ((tandem hzero hB hcloses).stringWeight steps solver x).follows

/-- The best paths of a determinization are those that its memory gives. -/
theorem follows_shortestPaths [Ord W] (steps k : ℕ)
    (solver : Solver (KBest k ℕ (SubsetTransition L W) W)) : A.Follows closure
      ((B.determinize budget).shortestPaths steps k solver)
        fun μ strict => (A.recalled μ strict).shortestPaths steps k solver := by
  simp only [← hoist_asking_tandem hzero hB hcloses, ← hoist_answering_tandem hzero hB hcloses,
    hoist_shortestPaths]
  exact ((tandem hzero hB hcloses).shortestPaths steps k solver).follows

end Determinize

end WeightedAutomata.Automaton
