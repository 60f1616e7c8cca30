import Mathlib.Data.List.Forall2
import Mathlib.Data.Nat.Notation
import Mathlib.Logic.Relator
import WeightedAutomata.Automaton.Traversal

/-!
Computations that go the same way step by step, one of them on a memory that it never changes: what
the one works on corresponds to what the other one works on.
-/
namespace WeightedAutomata

variable {σ α β α' β' : Type}

/-- Both computations fail, or both have outcomes, which are related, and the second one leaves the
memory `ν` as it is. -/
def Echoes (ν : σ) (R : α → β → Prop) (x : Option α) (y : StateT σ Option β) : Prop :=
  Option.Rel (fun a p => R a p.1 ∧ p.2 = ν) x (y.run ν)

namespace Echoes

variable {ν : σ} {P : α → β → Prop} {Q : α' → β' → Prop}

theorem pure {a : α} {b : β} (h : P a b) : Echoes ν P (Pure.pure a) (Pure.pure b) :=
  Option.Rel.some ⟨h, rfl⟩

theorem bind {x : Option α} {y : StateT σ Option β} {f : α → Option α'} {g : β → StateT σ Option β'}
    (h : Echoes ν P x y) (hf : ∀ a b, P a b → Echoes ν Q (f a) (g b)) :
    Echoes ν Q (x >>= f) (y >>= g) := by
  unfold Echoes at h ⊢
  rw [StateT.run_bind]
  cases hy : y.run ν with
  | none =>
    rw [hy] at h
    cases h
    exact .none
  | some p =>
    rw [hy] at h
    cases h with
    | some h =>
      obtain ⟨b, ξ⟩ := p
      obtain ⟨hab, rfl⟩ := h
      exact hf _ b hab

theorem outOfSteps : Echoes ν P (StepLimited.outOfSteps : Option α) StepLimited.outOfSteps :=
  Option.Rel.none

theorem foldlM {f : α' → α → Option α'} {g : β' → β → StateT σ Option β'} {l : List α} {l' : List β}
    (hl : List.Forall₂ P l l') (hf : ∀ a b, P a b → ∀ c d, Q c d → Echoes ν Q (f c a) (g d b))
    {c : α'}
    {d : β'} (h : Q c d) : Echoes ν Q (l.foldlM f c) (l'.foldlM g d) := by
  induction hl generalizing c d with
  | nil => exact pure h
  | cons hab _ ih =>
    rw [List.foldlM_cons, List.foldlM_cons]
    exact (hf _ _ hab c d h).bind fun _ _ => ih

theorem mapM {f : α → Option α'} {g : β → StateT σ Option β'} {l : List α} {l' : List β}
    (hl : List.Forall₂ P l l') (hf : ∀ a b, P a b → Echoes ν Q (f a) (g b)) :
    Echoes ν (List.Forall₂ Q) (l.mapM f) (l'.mapM g) := by
  induction hl with
  | nil => exact pure .nil
  | cons hab _ ih =>
    rw [List.mapM_cons, List.mapM_cons]
    exact (hf _ _ hab).bind fun _ _ hcd => ih.bind fun _ _ hrest => pure (.cons hcd hrest)

theorem filterMapM {f : α → Option (Option α')} {g : β → StateT σ Option (Option β')} {l : List α}
    {l' : List β} (hl : List.Forall₂ P l l')
    (hf : ∀ a b, P a b → Echoes ν (Option.Rel Q) (f a) (g b)) :
    Echoes ν (List.Forall₂ Q) (l.filterMapM f) (l'.filterMapM g) := by
  induction hl with
  | nil => exact pure .nil
  | cons hab _ ih =>
    rw [List.filterMapM_cons, List.filterMapM_cons]
    refine (hf _ _ hab).bind fun o o' ho => ?_
    cases ho with
    | none => exact ih
    | some hcd => exact ih.bind fun _ _ hrest => pure (.cons hcd hrest)

theorem untilDone {step : α → Option (Option α)} {step' : β → StateT σ Option (Option β)}
    (hstep : ∀ a b, P a b → Echoes ν (Option.Rel P) (step a) (step' b)) (budget : ℕ) {a : α} {b : β}
    (h : P a b) : Echoes ν P (untilDone step budget a) (untilDone step' budget b) := by
  induction budget generalizing a b with
  | zero => exact outOfSteps
  | succ budget ih =>
    refine (hstep a b h).bind fun o o' ho => ?_
    cases ho with
    | none => exact pure h
    | some h => exact ih h

/-- The second computation has the outcome of the first one. -/
theorem run_eq {x : Option α} {y : StateT σ Option α} (h : Echoes ν Eq x y) :
    y.run ν = x.map fun a => (a, ν) := by
  unfold Echoes at h
  cases hy : y.run ν with
  | none =>
    rw [hy] at h
    cases h
    rfl
  | some p =>
    rw [hy] at h
    cases h with
    | some h =>
      obtain ⟨b, ξ⟩ := p
      obtain ⟨rfl, rfl⟩ := h
      rfl

end Echoes

variable {S S' T T' W : Type} {N : S → S' → Prop} {M : T → T' → Prop}

section Lists

theorem beq_eq_of_biUnique [BEq S] [LawfulBEq S] [BEq S'] [LawfulBEq S'] (hN : Relator.BiUnique N)
    {s q : S} {s' q' : S'} (hs : N s s') (hq : N q q') : (s == q) = (s' == q') := by
  rw [Bool.eq_iff_iff, beq_iff_eq, beq_iff_eq]
  exact Relator.rel_eq hN hs hq

theorem flatten_forall₂ {R : α → β → Prop} {rows : List (List α)} {rows' : List (List β)}
    (h : List.Forall₂ (List.Forall₂ R) rows rows') :
    List.Forall₂ R rows.flatten rows'.flatten := by
  induction h with
  | nil => exact .nil
  | cons hrow _ ih => exact List.rel_append hrow ih

end Lists

/-- Disciplines that rank entries of corresponding states and weights alike. -/
structure Discipline.Alike (N : S → S' → Prop) (Q : W → W → Prop) (d : Discipline S W)
    (d' : Discipline S' W) : Prop where
  rank_eq : ∀ s s', N s s' → ∀ q q', N q q' → ∀ v v', Q v v' → ∀ w w', Q w w' →
    d.rank (s, v) (q, w) = d'.rank (s', v') (q', w')
  reschedules_eq : d.reschedules = d'.reschedules

/-- Frontiers that hold corresponding states, with corresponding weights, in the same order. -/
structure Frontier.Alike (N : S → S' → Prop) (Q : W → W → Prop) (f : Frontier S W)
    (f' : Frontier S' W) : Prop where
  discipline : f.discipline.Alike N Q f'.discipline
  pending : List.Forall₂ (fun e e' => N e.1 e'.1 ∧ Q e.2 e'.2) f.pending f'.pending

/-- A queue that ranks corresponding weights alike. -/
def Queue.Respects (Q : W → W → Prop) : Queue W → Prop
  | .topological | .fifo => True
  | .bestFirst rank => ∀ v v', Q v v' → ∀ w w', Q w w' → rank v w = rank v' w'

theorem Queue.respects_eq (queue : Queue W) : queue.Respects Eq := by
  cases queue with
  | bestFirst rank =>
    rintro v _ rfl w _ rfl
    rfl
  | _ => trivial

section Frontier

variable {Q : W → W → Prop} {d : Discipline S W} {d' : Discipline S' W} {f : Frontier S W}
variable {f' : Frontier S' W}

theorem Discipline.Alike.queue {order : Option (S → S → Ordering)}
    {order' : Option (S' → S' → Ordering)}
    (h : Option.Rel (fun o o' => ∀ s s', N s s' → ∀ q q', N q q' → o s q = o' s' q') order order')
    {queue : Queue W} (hqueue : queue.Respects Q) :
    (queue.discipline order).Alike N Q (queue.discipline order') := by
  cases queue with
  | topological =>
    cases h with
    | none => exact ⟨fun _ _ _ _ _ _ _ _ _ _ _ _ => rfl, rfl⟩
    | some h => exact ⟨fun s s' hs q q' hq _ _ _ _ _ _ => h s s' hs q q' hq, rfl⟩
  | fifo => exact ⟨fun _ _ _ _ _ _ _ _ _ _ _ _ => rfl, rfl⟩
  | bestFirst rank => exact ⟨fun _ _ _ _ _ _ v v' hv w w' hw => hqueue v v' hv w w' hw, rfl⟩

theorem Discipline.Alike.place (h : d.Alike N Q d') {s : S} {s' : S'} (hs : N s s') {w w' : W}
    (hw : Q w w') {l : List (S × W)} {l' : List (S' × W)}
    (hl : List.Forall₂ (fun e e' => N e.1 e'.1 ∧ Q e.2 e'.2) l l') :
    List.Forall₂ (fun e e' => N e.1 e'.1 ∧ Q e.2 e'.2) (Frontier.place d.rank (s, w) l)
      (Frontier.place d'.rank (s', w') l') := by
  induction hl with
  | nil => exact .cons ⟨hs, hw⟩ .nil
  | @cons e e' rest rest' he hrest ih =>
    obtain ⟨q, v⟩ := e
    obtain ⟨q', v'⟩ := e'
    unfold Frontier.place
    rw [h.rank_eq s s' hs q q' he.1 w w' hw v v' he.2]
    split
    · exact .cons ⟨hs, hw⟩ (.cons he hrest)
    · exact .cons he ih

theorem Frontier.Alike.pop? (h : f.Alike N Q f') :
    Option.Rel (fun p p' => N p.1 p'.1 ∧ p.2.Alike N Q p'.2) f.pop? f'.pop? := by
  obtain ⟨d, l⟩ := f
  obtain ⟨d', l'⟩ := f'
  obtain ⟨hd, hl⟩ := h
  cases hl with
  | nil => exact .none
  | cons he hrest => exact .some ⟨he.1, hd, hrest⟩

variable [BEq S] [LawfulBEq S] [BEq S'] [LawfulBEq S'] (hN : Relator.BiUnique N)
include hN

theorem Frontier.Alike.insert (h : f.Alike N Q f') {s : S} {s' : S'} (hs : N s s') {w w' : W}
    (hw : Q w w') : (f.insert s w).Alike N Q (f'.insert s' w') := by
  obtain ⟨d, l⟩ := f
  obtain ⟨d', l'⟩ := f'
  obtain ⟨hd, hl⟩ := h
  dsimp only at hd hl
  have hany : l.any (·.1 == s) = l'.any (·.1 == s') := by
    induction hl with
    | nil => rfl
    | cons he _ ih => rw [List.any_cons, List.any_cons, ih, beq_eq_of_biUnique hN he.1 hs]
  have herase : List.Forall₂ (fun e e' => N e.1 e'.1 ∧ Q e.2 e'.2) (l.eraseP (·.1 == s))
      (l'.eraseP (·.1 == s')) := by
    clear hany
    induction hl with
    | nil => exact .nil
    | @cons _ e' _ _ he hrest ih =>
      rw [List.eraseP_cons, List.eraseP_cons, beq_eq_of_biUnique hN he.1 hs]
      cases e'.1 == s' with
      | true => exact hrest
      | false => exact .cons he ih
  unfold Frontier.insert
  dsimp only
  rw [hany, hd.reschedules_eq]
  split
  · split
    · exact ⟨hd, hd.place hs hw herase⟩
    · exact ⟨hd, hl⟩
  · exact ⟨hd, hd.place hs hw hl⟩

end Frontier

section Sweep

variable [BEq S] [Hashable S] [BEq S'] [Hashable S']

/-- Traversals that have come equally far. -/
structure Sweep.Alike (N : S → S' → Prop) (M : T → T' → Prop) (sweep : Sweep S T)
    (sweep' : Sweep S' T') : Prop where
  frontier : sweep.frontier.Alike N Eq sweep'.frontier
  seen : ∀ s s', N s s' → (s ∈ sweep.seen ↔ s' ∈ sweep'.seen)
  visited : List.Forall₂ (fun e e' => N e.1 e'.1 ∧ List.Forall₂ M e.2 e'.2) sweep.visited
    sweep'.visited

variable {sweep : Sweep S T} {sweep' : Sweep S' T'}

theorem Sweep.alike_start {d : Discipline S Unit} {d' : Discipline S' Unit} (h : d.Alike N Eq d') :
    (Sweep.start d : Sweep S T).Alike N M (Sweep.start d') :=
  ⟨⟨h, .nil⟩, fun _ _ _ => by simp [Sweep.start], .nil⟩

variable [LawfulBEq S] [LawfulBEq S'] (hN : Relator.BiUnique N)
include hN

theorem Sweep.Alike.discover (h : sweep.Alike N M sweep') {s : S} {s' : S'} (hs : N s s') :
    (sweep.discover s).Alike N M (sweep'.discover s') := by
  have hseen : sweep.seen.contains s = sweep'.seen.contains s' := by
    rw [Bool.eq_iff_iff, Std.HashSet.contains_iff_mem, Std.HashSet.contains_iff_mem]
    exact h.seen s s' hs
  unfold Sweep.discover
  rw [hseen]
  split
  · exact h
  · refine ⟨h.frontier.insert hN hs rfl, fun q q' hq => ?_, h.visited⟩
    rw [Std.HashSet.mem_insert, Std.HashSet.mem_insert, beq_eq_of_biUnique hN hs hq, h.seen q q' hq]

theorem Sweep.Alike.foldl_discover {ss : List S} {ss' : List S'} (hs : List.Forall₂ N ss ss')
    (h : sweep.Alike N M sweep') :
    (ss.foldl Sweep.discover sweep).Alike N M (ss'.foldl Sweep.discover sweep') := by
  induction hs generalizing sweep sweep' with
  | nil => exact h
  | cons hs _ ih => exact ih (h.discover hN hs)

end Sweep

end WeightedAutomata
