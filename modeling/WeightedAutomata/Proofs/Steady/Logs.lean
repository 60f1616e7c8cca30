import WeightedAutomata.Proofs.Steady.Viewed

/-!
Logs of queries, asked one after another in any order, with their answers. Whatever the order, the
answers of nested views honour the contract of automata.
-/
namespace WeightedAutomata

/-- What an automaton can be asked. -/
inductive Query (S T : Type) where
  | initialStates
  | outgoing (state : S)
  | initialWeight (state : S)
  | finalWeight (state : S)
  | weight (transition : T)
  | finalStates
  | incoming (state : S)

inductive Answer (S T W : Type) where
  | states (states : List S)
  | transitions (transitions : List T)
  | weight (weight : W)

variable {m n : Type → Type} {σ L S T W : Type}

namespace Automaton

/-- Final states and incoming transitions are known only with backward access. -/
def query [Monad m] [StepLimited m] (A : Automaton m L S T W) : Query S T → m (Answer S T W)
  | .initialStates => return .states (← A.initialStates)
  | .outgoing s => return .transitions (← A.outgoing s)
  | .initialWeight s => return .weight (← A.initialWeight s)
  | .finalWeight s => return .weight (← A.finalWeight s)
  | .weight t => return .weight (← A.weight t)
  | .finalStates => do
    match A.backward with
    | some back => return .states (← back.finalStates)
    | none => StepLimited.outOfSteps
  | .incoming s => do
    match A.backward with
    | some back => return .transitions (← back.incoming s)
    | none => StepLimited.outOfSteps

theorem hoist_query [Monad m] [StepLimited m] [Monad n] [StepLimited n] (φ : Translation m n)
    (A : Automaton m L S T W) (q : Query S T) :
    (A.hoist φ.map).query q = φ.map (A.query q) := by
  cases q with
  | finalStates =>
    unfold query hoist
    cases A.backward with
    | none => exact φ.outOfSteps.symm
    | some back => exact ((φ.bind _ _).trans (congrArg _ (funext fun _ => φ.pure _))).symm
  | incoming s =>
    unfold query hoist
    cases A.backward with
    | none => exact φ.outOfSteps.symm
    | some back => exact ((φ.bind _ _).trans (congrArg _ (funext fun _ => φ.pure _))).symm
  | _ => exact ((φ.bind _ _).trans (congrArg _ (funext fun _ => φ.pure _))).symm

/-- The log of the queries asked so far, the latest first, with their answers, and the memory that
they have led to. -/
inductive Told (A : Automaton (StateT σ Option) L S T W) (start : σ) :
    List (Query S T × Answer S T W) → σ → Prop
  | start : Told A start [] start
  | ask {log : List (Query S T × Answer S T W)} {μ ν : σ} {q : Query S T} {a : Answer S T W}
    (before : Told A start log μ) (run : (A.query q).run μ = some (a, ν)) :
    Told A start ((q, a) :: log) ν

open scoped Classical in
/-- The contract of automata, for the answers in a log. A state is initial iff its initial weight is
not zero, and final iff its final weight is not; each such state is listed once. Transitions are
listed at their sources, and as often at their targets. -/
structure Contract [Zero W] (A : Automaton m L S T W) (log : List (Query S T × Answer S T W)) :
    Prop where
  initial_nodup : ∀ ss, (.initialStates, .states ss) ∈ log → ss.Nodup
  mem_initial : ∀ ss, (.initialStates, .states ss) ∈ log →
    ∀ s w, (.initialWeight s, .weight w) ∈ log → (s ∈ ss ↔ w ≠ 0)
  source_eq : ∀ q ts, (.outgoing q, .transitions ts) ∈ log → ∀ t ∈ ts, A.source t = q
  final_nodup : ∀ ss, (.finalStates, .states ss) ∈ log → ss.Nodup
  mem_final : ∀ ss, (.finalStates, .states ss) ∈ log →
    ∀ s w, (.finalWeight s, .weight w) ∈ log → (s ∈ ss ↔ w ≠ 0)
  target_eq : ∀ q us, (.incoming q, .transitions us) ∈ log → ∀ t ∈ us, A.target t = q
  count_incoming : ∀ q us, (.incoming q, .transitions us) ∈ log →
    ∀ t ts, (.outgoing (A.source t), .transitions ts) ∈ log →
      us.count t = if A.target t = q then ts.count t else 0

section Recall

variable [Zero W] [One W] {r : Regime σ} {A : Automaton (StateT σ Option) L S T W} {K : σ → S → Prop}
variable {V : Automaton (Steady r) L S T W} {log : List (Query S T × Answer S T W)} {μ : σ}

/-- The answer to the query lasts: only final weights need not, without backward access. -/
def LastingQuery (A : Automaton m L S T W) (q : Query S T) : Prop :=
  ∀ s, q = .finalWeight s → A.backward.isSome

theorem Steadies.query_eq (h : Steadies A K V) {q : Query S T} (hq : A.LastingQuery q) :
    A.query q = (V.query q).ask := by
  have hreversible := h.reversible
  obtain ⟨f, rfl⟩ := h.exists_final
  refine .trans ?_ (hoist_query Steady.asking V q)
  cases q with
  | finalWeight s =>
    exact congrArg (fun w => Answer.weight <$> w) (hreversible (hq s rfl) s)
  | _ => rfl

theorem Steadies.keeps_query (h : Steadies A K V) (q : Query S T) : r.Keeps (A.query q) := by
  by_cases hq : A.LastingQuery q
  · rw [h.query_eq hq]
    exact (V.query q).keeps
  · cases q with
    | finalWeight s => exact (h.finalWeight_keeps s).bind fun _ => Regime.keeps_pure _
    | _ => exact absurd (fun _ => nofun) hq

/-- What has been answered is the answer from then on. -/
theorem Told.recollect (h : Steadies A K V) {ξ : σ} (hξ : r.Sound ξ) (hlog : A.Told ξ log μ) :
    r.Sound μ ∧ r.Later ξ μ ∧ ∀ e ∈ log, A.LastingQuery e.1 → ∀ ν, r.Later μ ν →
      WeightedAutomata.recollect ν (V.query e.1).ask = some e.2 := by
  induction hlog with
  | start => exact ⟨hξ, r.refl ξ, nofun⟩
  | @ask log μ ν q a _ hrun ih =>
    obtain ⟨hμ, hbefore, hall⟩ := ih
    obtain ⟨hν, hlater⟩ := h.keeps_query q μ a ν hμ hrun
    refine ⟨hν, r.trans hbefore hlater, fun e he hq ω hω => ?_⟩
    rcases List.mem_cons.1 he with rfl | he
    · rw [h.query_eq hq] at hrun
      exact (V.query q).recollect_of_run hμ hrun hω
    · exact hall e he hq ω (r.trans hlater hω)

end Recall

section Honours

variable {B : Automaton Option L S T W}

theorem mem_initialStates {ss : List S} (h : B.query .initialStates = some (.states ss)) :
    ss ∈ B.initialStates := by
  obtain ⟨_, hss, heq⟩ := Option.bind_eq_some_iff.1 h
  cases heq
  exact hss

theorem mem_outgoing {s : S} {ts : List T} (h : B.query (.outgoing s) = some (.transitions ts)) :
    ts ∈ B.outgoing s := by
  obtain ⟨_, hts, heq⟩ := Option.bind_eq_some_iff.1 h
  cases heq
  exact hts

theorem mem_initialWeight {s : S} {w : W} (h : B.query (.initialWeight s) = some (.weight w)) :
    w ∈ B.initialWeight s := by
  obtain ⟨_, hw, heq⟩ := Option.bind_eq_some_iff.1 h
  cases heq
  exact hw

theorem mem_finalWeight {s : S} {w : W} (h : B.query (.finalWeight s) = some (.weight w)) :
    w ∈ B.finalWeight s := by
  obtain ⟨_, hw, heq⟩ := Option.bind_eq_some_iff.1 h
  cases heq
  exact hw

theorem exists_finalStates {ss : List S} (h : B.query .finalStates = some (.states ss)) :
    ∃ back ∈ B.backward, ss ∈ back.finalStates := by
  unfold query at h
  cases hback : B.backward with
  | none =>
    rw [hback] at h
    cases h
  | some back =>
    rw [hback] at h
    obtain ⟨_, hss, heq⟩ := Option.bind_eq_some_iff.1 h
    cases heq
    exact ⟨back, rfl, hss⟩

theorem exists_incoming {s : S} {us : List T} (h : B.query (.incoming s) = some (.transitions us)) :
    ∃ back ∈ B.backward, us ∈ back.incoming s := by
  unfold query at h
  cases hback : B.backward with
  | none =>
    rw [hback] at h
    cases h
  | some back =>
    rw [hback] at h
    obtain ⟨_, hus, heq⟩ := Option.bind_eq_some_iff.1 h
    cases heq
    exact ⟨back, rfl, hus⟩

open scoped Classical in
/-- Answers that honour the contract, all given by one automaton, make up a log that does. -/
theorem contract_of_honours [Zero W] [One W] (hone : (1 : W) ≠ 0) {K : S → Prop} (h : Honours B K)
    {A : Automaton m L S T W} (hsource : A.source = B.source) (htarget : A.target = B.target)
    {log : List (Query S T × Answer S T W)}
    (hlog : ∀ e ∈ log, (∀ s, e.1 = .finalWeight s → B.backward.isSome) → B.query e.1 = some e.2) :
    A.Contract log where
  initial_nodup ss hss := h.forward.nodup ss (mem_initialStates (hlog _ hss nofun))
  mem_initial ss hss s w hw := h.forward.mem_iff hone ss (mem_initialStates (hlog _ hss nofun)) s w
    (mem_initialWeight (hlog _ hw nofun))
  source_eq q ts hts t ht := by
    rw [hsource]
    exact h.forward.near_eq q ts (mem_outgoing (hlog _ hts nofun)) t ht
  final_nodup ss hss := by
    obtain ⟨back, hback, hss⟩ := exists_finalStates (hlog _ hss nofun)
    exact (h.backward back hback).nodup ss hss
  mem_final ss hss s w hw := by
    obtain ⟨back, hback, hss⟩ := exists_finalStates (hlog _ hss nofun)
    refine (h.backward back hback).mem_iff hone ss hss s w (mem_finalWeight (hlog _ hw fun _ _ => ?_))
    rw [Option.mem_def.1 hback]
    rfl
  target_eq q us hus t ht := by
    obtain ⟨back, hback, hus⟩ := exists_incoming (hlog _ hus nofun)
    rw [htarget]
    exact (h.backward back hback).near_eq q us hus t ht
  count_incoming q us hus t ts hts := by
    obtain ⟨back, hback, hus⟩ := exists_incoming (hlog _ hus nofun)
    have hts := mem_outgoing (hlog _ hts nofun)
    rw [hsource] at hts
    rw [htarget]
    split
    · next hq =>
      subst hq
      exact h.count_incoming back hback t us hus ts hts
    · next hq =>
      exact List.count_eq_zero.2 fun ht => hq ((h.backward back hback).near_eq q us hus t ht)

end Honours

/-- Lasting answers honour the contract, whatever is asked. -/
theorem Steadies.contract [Zero W] [One W] (hone : (1 : W) ≠ 0) {r : Regime σ}
    {A : Automaton (StateT σ Option) L S T W} {K : σ → S → Prop} {V : Automaton (Steady r) L S T W}
    (h : Steadies A K V) {log : List (Query S T × Answer S T W)} {μ : σ}
    (hlog : A.Told r.start log μ) : A.Contract log := by
  obtain ⟨hμ, -, hall⟩ := hlog.recollect h r.sound_start
  have hhonours := h.honours μ hμ
  obtain ⟨f, rfl⟩ := h.exists_final
  refine contract_of_honours (A := V.asked f) hone hhonours rfl rfl fun e he hq => ?_
  rw [hoist_query]
  refine hall e he (fun s hs => ?_) μ (r.refl μ)
  exact (Option.isSome_map ..).trans ((Option.isSome_map ..).symm.trans (hq s hs))

end Automaton

variable [Semiring W] [BEq W] [LawfulBEq W]

/-- Automata that an expression builds honour the contract, whatever they are asked. -/
theorem Expression.contract_of_build [BEq L] [PartialInverse W] (hone : (0 : W) ≠ 1)
    {e : Expression L W} {budget : ℕ} {a : AnyAutomaton L W} (h : e.build budget = .ok a)
    {log : List (Query a.State a.Transition × Answer a.State a.Transition W)} {μ : a.Memory}
    (hlog : a.automaton.Told a.memory log μ) : a.automaton.Contract log := by
  obtain ⟨r, K, hstart, hviewed⟩ := isViewed_of_build e h
  obtain ⟨V, hV⟩ := hviewed.exists_steadies
  rw [← hstart] at hlog
  exact hV.contract hone.symm hlog

/-- Nested views honour the contract, whatever they are asked. -/
theorem Viewed.honours_contract {r : Regime σ} {A : Automaton (StateT σ Option) L S T W}
    {K : σ → S → Prop} (h : Viewed r A K) (hone : (0 : W) ≠ 1)
    {log : List (Query S T × Answer S T W)} {μ : σ} (hlog : A.Told r.start log μ) :
    A.Contract log := by
  obtain ⟨V, hV⟩ := h.exists_steadies
  exact hV.contract hone.symm hlog

/-- Two transitions between the same states, with the same label. -/
def twins : Explicit Bool ℕ := Graph.explicit
  { states := #[⟨2, 0⟩, ⟨0, 1⟩]
    edges := #[⟨0, 1, some true, 1⟩, ⟨0, 1, some true, 0⟩]
    endpoints := by decide }

/-- The twins beside a string, read backwards. -/
def backwards : Automaton (StateT Unit Option) Bool (Tagged fun _ : Fin 2 => ℕ)
    (Tagged fun _ : Fin 2 => ℕ) ℕ :=
  let besides : Automaton (StateT Unit Option) Bool (Tagged fun _ : Fin 2 => ℕ)
    (Tagged fun _ : Fin 2 => ℕ) ℕ :=
    union fun i => if i = 0 then twins.automaton else singleString [false]
  besides.reversal (besides.backward.get rfl)

theorem viewed_backwards : ∃ K, Viewed .stateless backwards K := by
  have hoperand (i : Fin 2) : ∃ K : Unit → ℕ → Prop, Viewed (.stateless : Regime Unit)
      (if i = 0 then twins.automaton else singleString [false] :
        Automaton (StateT Unit Option) Bool ℕ ℕ ℕ) K := by
    split
    · exact ⟨_, .explicit twins⟩
    · exact ⟨_, .string [false]⟩
  choose K hK using hoperand
  exact ⟨_, .reversal rfl (.union hK)⟩

theorem told_backwards : backwards.Told ()
    [(.incoming ⟨0, 0⟩, .transitions [⟨0, 0⟩, ⟨0, 1⟩]), (.initialWeight ⟨1, 1⟩, .weight 1),
      (.outgoing ⟨0, 1⟩, .transitions [⟨0, 0⟩, ⟨0, 1⟩]),
      (.initialStates, .states [⟨0, 1⟩, ⟨1, 1⟩])] () :=
  .ask (.ask (.ask (.ask .start rfl) rfl) rfl) rfl

theorem honours_contract_backwards : (0 : ℕ) ≠ 1 ∧ (∃ K, Viewed .stateless backwards K) ∧
    ∃ log, backwards.Told () log () ∧
      (.outgoing ⟨0, 1⟩, .transitions [⟨0, 0⟩, ⟨0, 1⟩]) ∈ log ∧
      (.incoming ⟨0, 0⟩, .transitions [⟨0, 0⟩, ⟨0, 1⟩]) ∈ log ∧ backwards.Contract log := by
  obtain ⟨K, hK⟩ := viewed_backwards
  exact ⟨Nat.zero_ne_one, ⟨K, hK⟩, _, told_backwards, by simp, by simp,
    hK.honours_contract Nat.zero_ne_one told_backwards⟩

end WeightedAutomata
