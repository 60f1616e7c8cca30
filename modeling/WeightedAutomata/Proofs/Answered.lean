import WeightedAutomata.Proofs.Nesting.Ensures
import WeightedAutomata.Proofs.Traversal

/-!
Automata whose queries may stay without an answer, and what is computed from the answers there are.
-/
namespace WeightedAutomata

section Ensures

variable {α β : Type} {p : α → Prop}

theorem ensures_option {x : Option α} : Ensures x p ↔ ∀ a ∈ x, p a := by
  constructor
  · rintro ⟨y, rfl⟩ a ha
    obtain ⟨b, -, rfl⟩ := Option.map_eq_some_iff.1 ha
    exact b.2
  · intro h
    cases x with
    | none => exact ⟨none, rfl⟩
    | some a => exact ⟨some ⟨a, h a rfl⟩, rfl⟩

theorem Ensures.foldlM {m : Type → Type} [Monad m] [LawfulMonad m] {f : β → α → m β}
    {q : β → Prop} {l : List α} (hf : ∀ a ∈ l, ∀ b, q b → Ensures (f b a) q) {b : β} (hb : q b) :
    Ensures (l.foldlM f b) q := by
  induction l generalizing b with
  | nil => exact .pure hb
  | cons a l ih =>
    rw [List.foldlM_cons]
    exact (hf a List.mem_cons_self b hb).bind fun c hc =>
      ih (fun d hd => hf d (List.mem_cons_of_mem a hd)) hc

end Ensures

variable {L S T W : Type}

namespace Automaton

/-- The answers of an automaton, with empty lists and zeros in place of missing ones. -/
def answered [Zero W] (A : Automaton Option L S T W) : Automaton Id L S T W where
  initialStates := A.initialStates.getD []
  outgoing s := (A.outgoing s).getD []
  initialWeight s := (A.initialWeight s).getD 0
  finalWeight s := (A.finalWeight s).getD 0
  weight t := (A.weight t).getD 0
  source := A.source
  target := A.target
  label := A.label
  order := A.order

section Answered

variable [Zero W] {A : Automaton Option L S T W}

theorem starts_answered {ss : List S} (h : A.initialStates = some ss) : A.answered.starts = ss := by
  change A.initialStates.getD [] = ss
  rw [h]
  rfl

theorem leaving_answered {s : S} {ts : List T} (h : A.outgoing s = some ts) :
    A.answered.leaving s = ts := by
  change (A.outgoing s).getD [] = ts
  rw [h]
  rfl

/-- What reachable states keep along answers. -/
theorem Reachable.answered_induction {K : S → Prop} (hstart : ∀ ss ∈ A.initialStates, ∀ s ∈ ss, K s)
    (hstep : ∀ s, K s → ∀ ts ∈ A.outgoing s, ∀ t ∈ ts, K (A.target t)) {s : S}
    (hs : A.answered.Reachable s) : K s := by
  induction hs with
  | @start s hs =>
    change s ∈ A.initialStates.getD [] at hs
    cases hstarts : A.initialStates with
    | none => simp [hstarts] at hs
    | some ss => exact hstart ss hstarts s (by simpa [hstarts] using hs)
  | @step s t _ ht ih =>
    change t ∈ (A.outgoing s).getD [] at ht
    cases hout : A.outgoing s with
    | none => simp [hout] at ht
    | some ts => exact hstep s ih ts hout t (by simpa [hout] using ht)

variable [BEq S] [LawfulBEq S] [Hashable S] {budget : ℕ}

/-- A traversal that has come to an end lists the states that the answers lead to, once each, with
the transitions there. -/
theorem explore_answered {visited : List (S × List T)} (h : A.explore budget = some visited) :
    (visited.map Prod.fst).Nodup ∧
      (∀ s, s ∈ visited.map Prod.fst ↔ A.answered.Reachable s) ∧
        ∀ e ∈ visited, A.outgoing e.1 = some e.2 :=
  explore_spec (fun _ hss => (starts_answered hss).symm) (fun _ _ hts => (leaving_answered hts).symm)
    rfl h

theorem states_answered {states : List S} (h : A.states budget = some states) :
    states.Nodup ∧ ∀ s, s ∈ states ↔ A.answered.Reachable s := by
  obtain ⟨visited, hvisited, heq⟩ := Option.bind_eq_some_iff.1 h
  obtain rfl := Option.some.inj heq
  obtain ⟨hnodup, hmem, -⟩ := explore_answered hvisited
  exact ⟨hnodup, hmem⟩

end Answered

end Automaton

end WeightedAutomata
