import Mathlib.Algebra.Order.Ring.NNRat
import Mathlib.Logic.Relation
import WeightedAutomata.Proofs.Determinization.Endings
import WeightedAutomata.Proofs.Determinization.Lasting

/-!
Sessions with a determinization: queries one after another, in any order, about states that earlier
answers have given. Whatever is asked, the answers are those of one deterministic automaton.
-/
namespace WeightedAutomata

variable {L S T W : Type}

/-- What a determinization can be asked. A traversal visits fewer than `steps` states. -/
inductive SubsetQuery where
  | initialStates
  | outgoing (state : ℕ)
  | initialWeight (state : ℕ)
  | finalWeight (state : ℕ)
  | subset (state : ℕ)
  | failure
  | states (steps : ℕ)
  | transitions (steps : ℕ)

/-- The states that a query is about. -/
def SubsetQuery.about : SubsetQuery → List ℕ
  | .outgoing i | .initialWeight i | .finalWeight i | .subset i => [i]
  | _ => []

/-- Exploring comes to an end only if there are finitely many subsets. -/
def SubsetQuery.Explores : SubsetQuery → Prop
  | .states _ | .transitions _ => True
  | _ => False

inductive SubsetAnswer (L S W : Type) where
  | states (states : List ℕ)
  | transitions (transitions : List (SubsetTransition L W))
  | weight (weight : W)
  | subset (subset : WeightedStates S W)
  | failure (failure : Option InverseError)

/-- The states that an answer gives. -/
def SubsetAnswer.given : SubsetAnswer L S W → List ℕ
  | .states is => is
  | .transitions ts => ts.flatMap fun t => [t.source, t.target]
  | _ => []

/-- The queries of a session with their answers, the latest first, and what has been found. -/
structure Session (L S W : Type) where
  log : List (SubsetQuery × SubsetAnswer L S W)
  memory : SubsetMemory L S W

namespace Session

def start : Session L S W := ⟨[], .empty⟩

/-- Some answer has given the state. -/
def Knows (s : Session L S W) (i : ℕ) : Prop := ∃ e ∈ s.log, i ∈ e.2.given

end Session

namespace Automaton

variable [Semiring W] [BEq S] [BEq W] [Hashable S] [PartialInverse W] [BEq L]

section Definitions

variable (A : Automaton Id L S T W)

/-- Asks the determinization, with a budget for its epsilon closures. -/
def ask (budget : ℕ) (query : SubsetQuery) : Subsets Option L S W (SubsetAnswer L S W) :=
  let D := (A.lift : Automaton Option L S T W).determinize budget
  match query with
  | .initialStates => return .states (← D.initialStates)
  | .outgoing i => return .transitions (← D.outgoing i)
  | .initialWeight i => return .weight (← D.initialWeight i)
  | .finalWeight i => return .weight (← D.finalWeight i)
  | .subset i => return .subset ((← get).subset i)
  | .failure => return .failure (← get).failure
  | .states steps => return .states (← D.states steps)
  | .transitions steps => return .transitions (← D.transitions steps)

/-- One more query that has come to an end, about states that the session knows. -/
inductive Asks (s : Session L S W) : Session L S W → Prop
  | ask {budget : ℕ} {query : SubsetQuery} {answer : SubsetAnswer L S W} {ν : SubsetMemory L S W} :
      (∀ i ∈ query.about, s.Knows i) → (A.ask budget query).run s.memory = some (answer, ν) →
      Asks s ⟨(query, answer) :: s.log, ν⟩

/-- Any number of queries. -/
def Continues : Session L S W → Session L S W → Prop := Relation.ReflTransGen A.Asks

/-- What an answer says about the memory. -/
def Tells (μ : SubsetMemory L S W) : SubsetQuery → SubsetAnswer L S W → Prop
  | .initialStates, .states is => ∃ r, μ.start = some r ∧ is = (r.map Prod.fst).toList
  | .outgoing i, .transitions ts => μ.explored[i]? = some ts
  | .initialWeight i, .weight w =>
    ∃ r, μ.start = some r ∧ w = r.elim 0 fun p => if p.1 = i then p.2 else 0
  | .finalWeight i, .weight w => w = weigh (μ.subset i) A.exit
  | .subset i, .subset ws => ws = μ.subset i
  | .failure, .failure f => ∀ e ∈ f, μ.failure = some e
  | .states _, .states _ => True
  | .transitions _, .transitions _ => True
  | _, _ => False

/-- The answers of a session fit its memory and will be given again. -/
structure Faithful (s : Session L S W) : Prop where
  consistent : A.Consistent s.memory
  about_lt : ∀ e ∈ s.log, ∀ i ∈ e.1.about, i < s.memory.subsets.size
  given_lt : ∀ e ∈ s.log, ∀ i ∈ e.2.given, i < s.memory.subsets.size
  tells : ∀ e ∈ s.log, A.Tells s.memory e.1 e.2
  again : ∀ e ∈ s.log, e.2 ≠ .failure none → ∀ budget ξ, s.memory.Extends ξ →
    (A.ask budget e.1).run ξ = some (e.2, ξ)

end Definitions

variable {A : Automaton Id L S T W} {μ ν : SubsetMemory L S W}

omit [BEq S] [BEq W] [Hashable S] [PartialInverse W] [BEq L] in
theorem Tells.mono {query : SubsetQuery} {answer : SubsetAnswer L S W}
    (h : A.Tells μ query answer) (habout : ∀ i ∈ query.about, i < μ.subsets.size)
    (hext : μ.Extends ν) : A.Tells ν query answer := by
  unfold Tells at h ⊢
  split at h
  · obtain ⟨r, hr, his⟩ := h
    exact ⟨r, hext.start r hr, his⟩
  · exact hext.explored _ _ h
  · obtain ⟨r, hr, hw⟩ := h
    exact ⟨r, hext.start r hr, hw⟩
  · rwa [hext.subset_eq _ (habout _ List.mem_cons_self)]
  · rwa [hext.subset_eq _ (habout _ List.mem_cons_self)]
  · exact fun e he => hext.failure e (h e he)
  · trivial
  · trivial
  · exact h

theorem faithful_start : A.Faithful (.start : Session L S W) where
  consistent := consistent_empty
  about_lt := nofun
  given_lt := nofun
  tells := nofun
  again := nofun

variable [LawfulBEq S] [LawfulBEq W] [LawfulBEq L]

/-- What a session knows of can be asked about. -/
theorem Faithful.exists_answer {s : Session L S W} (hs : A.Faithful s) (hA : A.Lawful)
    (hepsilon : A.EpsilonAcyclic) (hfinite : A.EpsilonFinite) {query : SubsetQuery}
    (hquery : ¬query.Explores) (habout : ∀ i ∈ query.about, s.Knows i) :
    ∃ budget answer ν, (A.ask budget query).run s.memory = some (answer, ν) := by
  obtain ⟨budget, r, ν, hstart⟩ := startSubset_ends hA hepsilon hfinite s.memory
  cases query with
  | initialStates =>
    exact ⟨budget, .states (r.toList.map Prod.fst), ν, by simp [ask, determinize, hstart]⟩
  | outgoing i =>
    obtain ⟨e, he, hi⟩ := habout i List.mem_cons_self
    obtain ⟨budget, ts, ν, hrun⟩ := outgoing_ends hA hepsilon hfinite
      (hs.consistent.normal i (hs.given_lt e he i hi)).reachable
    exact ⟨budget, .transitions ts, ν, by simp [ask, hrun]⟩
  | initialWeight i =>
    cases r with
    | none => exact ⟨budget, .weight 0, ν, by simp [ask, determinize, hstart]⟩
    | some p => exact ⟨budget, .weight (if p.1 = i then p.2 else 0), ν,
        by simp [ask, determinize, hstart]⟩
  | finalWeight i =>
    exact ⟨0, .weight (weigh (s.memory.subset i) A.exit), s.memory,
      by simp [ask, finalWeight_determinize]⟩
  | subset i => exact ⟨0, .subset (s.memory.subset i), s.memory, rfl⟩
  | failure => exact ⟨0, .failure s.memory.failure, s.memory, rfl⟩
  | states => exact absurd trivial hquery
  | transitions => exact absurd trivial hquery

variable (hinverse : LawfulInverse W)
include hinverse

/-- Every query but the one for the failure has an answer that lasts. -/
theorem lasts_ask {query : SubsetQuery} (hquery : query ≠ .failure) :
    A.Lasts (fun μ => ∀ i ∈ query.about, i < μ.subsets.size) (fun n => A.ask n query)
      fun answer μ => (∀ i ∈ answer.given, i < μ.subsets.size) ∧ A.Tells μ query answer := by
  cases query with
  | failure => exact absurd rfl hquery
  | initialStates =>
    refine (A.lasts_initialStates hinverse).map (fun _ _ => trivial) fun is μ hμ ⟨r, hr, his⟩ =>
      ⟨fun i hi => ?_, r, hr, his⟩
    rw [SubsetAnswer.given, his, Option.mem_toList, Option.map_eq_some_iff] at hi
    obtain ⟨p, rfl, rfl⟩ := hi
    exact (hμ.start _ hr).target_lt_size
  | outgoing i =>
    refine (A.lasts_outgoing hinverse i).map (fun μ hμ => hμ i List.mem_cons_self)
      fun ts μ hμ hts => ⟨fun j hj => ?_, hts⟩
    obtain ⟨hi, hsettled⟩ := hμ.explored i ts hts
    obtain ⟨t, ht, hj⟩ := List.mem_flatMap.1 hj
    obtain ⟨hsource, ht⟩ := hsettled.settled_of_mem ht
    rcases List.mem_pair.1 hj with rfl | rfl
    · rwa [hsource]
    · exact ht.target_lt_size
  | initialWeight i =>
    exact (A.lasts_initialWeight hinverse i).map (fun _ _ => trivial) fun _ _ _ hw => ⟨nofun, hw⟩
  | finalWeight i =>
    exact (A.lasts_finalWeight i).map (fun μ hμ => hμ i List.mem_cons_self)
      fun _ _ _ hw => ⟨nofun, hw⟩
  | subset i =>
    exact (A.lasts_subset i id).map (fun μ hμ => hμ i List.mem_cons_self)
      fun _ _ _ hw => ⟨nofun, hw⟩
  | states steps =>
    exact (A.lasts_states hinverse steps).map (fun _ _ => trivial)
      fun _ _ _ h => ⟨h, trivial⟩
  | transitions steps =>
    refine (A.lasts_transitions hinverse steps).map (fun _ _ => trivial)
      fun ts μ _ h => ⟨fun i hi => ?_, trivial⟩
    obtain ⟨t, ht, hi⟩ := List.mem_flatMap.1 hi
    rcases List.mem_pair.1 hi with rfl | rfl
    · exact (h t ht).1
    · exact (h t ht).2

theorem ask_run {query : SubsetQuery} {answer : SubsetAnswer L S W} {budget : ℕ}
    (hμ : A.Consistent μ) (habout : ∀ i ∈ query.about, i < μ.subsets.size)
    (hrun : (A.ask budget query).run μ = some (answer, ν)) : A.Consistent ν ∧ μ.Extends ν ∧
      (∀ i ∈ answer.given, i < ν.subsets.size) ∧ A.Tells ν query answer ∧
        (answer ≠ .failure none → ∀ budget' ξ, ν.Extends ξ →
          (A.ask budget' query).run ξ = some (answer, ξ)) := by
  by_cases hquery : query = .failure
  · subst hquery
    cases hrun
    refine ⟨hμ, .refl μ, nofun, fun e he => he, fun hsome budget' ξ hξ => ?_⟩
    cases hf : μ.failure with
    | none => exact absurd (by rw [hf]) hsome
    | some e =>
      change some (SubsetAnswer.failure ξ.failure, ξ) = _
      rw [hξ.failure e hf]
  · obtain ⟨hν, hext, ⟨hgiven, htells⟩, hagain⟩ :=
      lasts_ask hinverse hquery budget μ answer ν hμ habout hrun
    exact ⟨hν, hext, hgiven, htells, fun _ => hagain⟩

/-- One query keeps a session faithful and extends its memory. -/
theorem Asks.faithful {s s' : Session L S W} (h : A.Asks s s') (hs : A.Faithful s) :
    A.Faithful s' ∧ s.memory.Extends s'.memory ∧ s.log ⊆ s'.log := by
  obtain ⟨habout, hrun⟩ := h
  rename_i query answer ν
  have hknown : ∀ i ∈ query.about, i < s.memory.subsets.size := fun i hi => by
    obtain ⟨e, he, hi⟩ := habout i hi
    exact hs.given_lt e he i hi
  obtain ⟨hν, hext, hgiven, htells, hagain⟩ := ask_run hinverse hs.consistent hknown hrun
  have hle := hext.size_le
  refine ⟨⟨hν, ?_, ?_, ?_, ?_⟩, hext, List.subset_cons_self _ _⟩
  · exact List.forall_mem_cons.2 ⟨fun i hi => lt_of_lt_of_le (hknown i hi) hle,
      fun e he i hi => lt_of_lt_of_le (hs.about_lt e he i hi) hle⟩
  · exact List.forall_mem_cons.2 ⟨hgiven,
      fun e he i hi => lt_of_lt_of_le (hs.given_lt e he i hi) hle⟩
  · exact List.forall_mem_cons.2 ⟨htells,
      fun e he => (hs.tells e he).mono (hs.about_lt e he) hext⟩
  · exact List.forall_mem_cons.2 ⟨hagain,
      fun e he hne n ξ hξ => hs.again e he hne n ξ (hext.trans hξ)⟩

theorem Continues.faithful {s s' : Session L S W} (h : A.Continues s s') (hs : A.Faithful s) :
    A.Faithful s' ∧ s.memory.Extends s'.memory ∧ s.log ⊆ s'.log := by
  induction h with
  | refl => exact ⟨hs, .refl _, List.Subset.refl _⟩
  | tail _ hask ih =>
    obtain ⟨hfaithful, hext, hlog⟩ := ih
    obtain ⟨hfaithful', hext', hlog'⟩ := hask.faithful hinverse hfaithful
    exact ⟨hfaithful', hext.trans hext', List.Subset.trans hlog hlog'⟩

omit hinverse

section Questions

variable {s : Session L S W} (h : A.Continues .start s) (hA : A.Lawful)
variable (hepsilon : A.EpsilonAcyclic) (hfinite : A.EpsilonFinite)
include hinverse h hA hepsilon hfinite

/-- Any question about what has come up continues the session. -/
theorem Continues.exists_ask (query : SubsetQuery) (hquery : ¬query.Explores)
    (habout : ∀ i ∈ query.about, s.Knows i) :
    ∃ answer ν, A.Continues s ⟨(query, answer) :: s.log, ν⟩ ∧ A.Tells ν query answer := by
  obtain ⟨hs, -, -⟩ := h.faithful hinverse faithful_start
  obtain ⟨budget, answer, ν, hrun⟩ := hs.exists_answer hA hepsilon hfinite hquery habout
  have hask : A.Continues s ⟨(query, answer) :: s.log, ν⟩ := .single (.ask habout hrun)
  obtain ⟨hν, -, -⟩ := hask.faithful hinverse hs
  exact ⟨answer, ν, hask, hν.tells _ List.mem_cons_self⟩

/-- Where the initial weights have a sum, there is an initial state, and transitions of it. -/
theorem Continues.exists_initial (hzero : ZeroSumFree W)
    (hinvert : ∀ a : W, a ≠ 0 → ∃ b, PartialInverse.inverse a = .ok b)
    (hne : weigh A.startSeeds (fun _ => 1) ≠ 0) : ∃ i ts μ, A.Continues s
      ⟨(.outgoing i, .transitions ts) :: (.initialStates, .states [i]) :: s.log, μ⟩ := by
  obtain ⟨answer, μ, h₁, htells⟩ :=
    h.exists_ask hinverse hA hepsilon hfinite .initialStates nofun nofun
  have h₁' : A.Continues .start _ := h.trans h₁
  cases answer with
  | states is =>
    obtain ⟨r, hr, his⟩ := htells
    obtain ⟨hs, -, -⟩ := h₁'.faithful hinverse faithful_start
    obtain ⟨⟨i, w⟩, rfl⟩ := (hs.consistent.start r hr).exists_place hA hepsilon
      reachable_startSeeds hzero hinvert hne
    obtain rfl : is = [i] := his
    obtain ⟨answer, ν, h₂, htells⟩ := h₁'.exists_ask hinverse hA hepsilon hfinite
      (.outgoing i) nofun (List.forall_mem_singleton.2 ⟨_, List.mem_cons_self, List.mem_cons_self⟩)
    cases answer with
    | transitions ts => exact ⟨i, ts, ν, h₁.trans h₂⟩
    | _ => exact htells.elim
  | _ => exact htells.elim

end Questions

/-- Whatever is asked, in whatever order: subsets are normalized, stored once and never changed;
transitions have different labels, leave the state asked about and lead to stored subsets; answers
are given again; a failure, once recorded, remains; and where closures are finite, there is an
answer. -/
theorem determinize_consistent (A : Automaton Id L S T W)
    (hfield : ∀ a : W, a ≠ 0 → ∃ b, a * b = 1)
    (hinverse : ∀ a b : W, PartialInverse.inverse a = .ok b → a * b = 1) {s s' : Session L S W}
    (h : A.Continues .start s) (h' : A.Continues s s') :
    (∀ i < s.memory.subsets.size, ((s.memory.subset i).map Prod.fst).Nodup ∧
      (∀ e ∈ s.memory.subset i, e.2 ≠ 0) ∧ Weight.sum ((s.memory.subset i).map Prod.snd) = 1) ∧
    (∀ i < s.memory.subsets.size, ∀ j < s.memory.subsets.size,
      (∀ e, e ∈ s.memory.subset i ↔ e ∈ s.memory.subset j) → i = j) ∧
    (∀ i < s.memory.subsets.size, i < s'.memory.subsets.size ∧
      s'.memory.subset i = s.memory.subset i) ∧
    (∀ i ts, (.outgoing i, .transitions ts) ∈ s.log → (ts.map SubsetTransition.label).Nodup ∧
      ∀ t ∈ ts, t.source = i ∧ t.target < s.memory.subsets.size ∧ ∀ budget,
        ((A.lift : Automaton Option L S T W).determinize budget).label t = some t.label) ∧
    (∀ e ∈ s.log, e.2 ≠ .failure none → ∀ budget,
      (A.ask budget e.1).run s'.memory = some (e.2, s'.memory)) ∧
    (∀ e, s.memory.failure = some e → s'.memory.failure = some e) ∧
    (A.Lawful → A.EpsilonAcyclic → A.EpsilonFinite → ∀ query : SubsetQuery, ¬query.Explores →
      (∀ i ∈ query.about, s.Knows i) →
        ∃ budget answer ν, (A.ask budget query).run s.memory = some (answer, ν)) := by
  have hinv := lawfulInverse_of_semifield hfield hinverse
  obtain ⟨hs, -, -⟩ := Continues.faithful hinv h faithful_start
  obtain ⟨-, hext, -⟩ := Continues.faithful hinv h' hs
  refine ⟨fun i hi => ?_, fun i hi j hj heq => ?_, fun i hi => ?_, fun i ts hts => ?_,
    fun e he hne budget => hs.again e he hne budget _ hext, hext.failure,
    fun hA hepsilon hfinite query => hs.exists_answer hA hepsilon hfinite⟩
  · obtain ⟨hnodup, hnonzero, htotal, -⟩ := hs.consistent.normal i hi
    exact ⟨hnodup, hnonzero, (total_eq _).trans htotal⟩
  · have hi' := List.Nodup.of_map _ (hs.consistent.normal i hi).nodup
    have hj' := List.Nodup.of_map _ (hs.consistent.normal j hj).nodup
    exact hs.consistent.distinct i hi j hj ((List.perm_ext_iff_of_nodup hi' hj').2 heq)
  · exact ⟨lt_of_lt_of_le hi hext.size_le, hext.subset_eq i hi⟩
  · obtain ⟨-, hsettled⟩ := hs.consistent.explored i ts (hs.tells _ hts)
    refine ⟨hsettled.nodup_labels, fun t ht => ?_⟩
    obtain ⟨hsource, ht⟩ := hsettled.settled_of_mem ht
    exact ⟨hsource, ht.target_lt_size, fun _ => rfl⟩

section Fork

instance : PartialInverse ℚ≥0 := ⟨fun a => if a = 0 then .error .zero else .ok a⁻¹⟩

/-- Two transitions with the same label, the second of which has three times the weight. -/
def unevenFork : Automaton Id Unit (Option Bool) Bool ℚ≥0 where
  initialStates := pure [none]
  outgoing s := pure (if s.isNone then [false, true] else [])
  initialWeight s := pure (if s.isNone then 1 else 0)
  finalWeight s := pure (if s.isNone then 0 else 1)
  weight t := pure (if t then 3 else 1)
  source _ := none
  target := some
  label _ := some ()

theorem inverse_nnrat {a b : ℚ≥0} (h : PartialInverse.inverse a = .ok b) : a * b = 1 := by
  change (if a = 0 then .error .zero else .ok a⁻¹ : Except InverseError ℚ≥0) = .ok b at h
  split at h
  · cases h
  · next ha =>
    cases h
    exact mul_inv_cancel₀ ha

theorem lawfulInverse_nnrat : LawfulInverse ℚ≥0 :=
  lawfulInverse_of_semifield (fun a ha => ⟨a⁻¹, mul_inv_cancel₀ ha⟩) fun _ _ => inverse_nnrat

theorem epsilonAcyclic_unevenFork : unevenFork.EpsilonAcyclic := by
  intro s _ ts hne _ hlabels
  cases ts with
  | nil => exact absurd rfl hne
  | cons t ts => exact absurd hlabels nofun

theorem lawful_unevenFork : unevenFork.Lawful := ⟨by decide, by decide, by decide⟩

section Questions

variable {s : Session Unit (Option Bool) ℚ≥0} (h : unevenFork.Continues .start s)
include h

theorem unevenFork_ask (query : SubsetQuery) (hquery : ¬query.Explores)
    (habout : ∀ i ∈ query.about, s.Knows i) :
    ∃ answer μ, unevenFork.Continues s ⟨(query, answer) :: s.log, μ⟩ := by
  obtain ⟨answer, μ, h, -⟩ := h.exists_ask lawfulInverse_nnrat lawful_unevenFork
    epsilonAcyclic_unevenFork (fun _ _ => Set.toFinite _) query hquery habout
  exact ⟨answer, μ, h⟩

theorem unevenFork_initial : ∃ i ts μ, unevenFork.Continues s
    ⟨(.outgoing i, .transitions ts) :: (.initialStates, .states [i]) :: s.log, μ⟩ := by
  refine h.exists_initial lawfulInverse_nnrat lawful_unevenFork epsilonAcyclic_unevenFork
    (fun _ _ => Set.toFinite _) ?_ ?_ ?_
  · exact fun a b => add_eq_zero.1
  · exact fun a ha => ⟨a⁻¹, if_neg ha⟩
  · decide +kernel

end Questions

theorem determinize_consistent_unevenFork : ∃ (s s' : Session Unit (Option Bool) ℚ≥0) (i : ℕ)
    (ts : List (SubsetTransition Unit ℚ≥0)) (answer : SubsetAnswer Unit (Option Bool) ℚ≥0),
    unevenFork.Continues .start s ∧ unevenFork.Continues s s' ∧
      s.log = [(.outgoing i, .transitions ts), (.initialStates, .states [i])] ∧
      s'.log = (.finalWeight i, answer) :: s.log ∧
      (∀ j < s.memory.subsets.size, Weight.sum ((s.memory.subset j).map Prod.snd) = 1 ∧
        s'.memory.subset j = s.memory.subset j) ∧
      (∀ t ∈ ts, t.source = i ∧ t.target < s.memory.subsets.size) ∧
      ∀ budget, (unevenFork.ask budget (.outgoing i)).run s'.memory =
        some (.transitions ts, s'.memory) := by
  obtain ⟨i, ts, μ, h⟩ := unevenFork_initial .refl
  obtain ⟨answer, ν, h'⟩ := unevenFork_ask h (.finalWeight i) nofun
    (List.forall_mem_singleton.2 ⟨(.initialStates, .states [i]), by simp, List.mem_cons_self⟩)
  obtain ⟨hnormal, -, hsame, htransitions, hagain, -⟩ := determinize_consistent unevenFork
    (fun a ha => ⟨a⁻¹, mul_inv_cancel₀ ha⟩) (fun _ _ => inverse_nnrat) h h'
  refine ⟨_, _, i, ts, answer, h, h', rfl, rfl, fun j hj => ⟨(hnormal j hj).2.2, (hsame j hj).2⟩,
    fun t ht => ?_, hagain _ List.mem_cons_self nofun⟩
  obtain ⟨hsource, htarget, -⟩ := (htransitions i ts List.mem_cons_self).2 t ht
  exact ⟨hsource, htarget⟩

end Fork

end Automaton

end WeightedAutomata
