import WeightedAutomata.Proofs.Copy.Echoes
import WeightedAutomata.Proofs.Total

/-!
Automata that mirror each other: corresponding states and transitions get the same answers. What is
computed from the answers of the one is what is computed from the answers of the other.
-/
namespace WeightedAutomata

variable {σ L S S' T T' W : Type}

/-- Weights that the operations cannot tell apart. -/
structure Congruent [Zero W] [Add W] [Mul W] [BEq W] (Q : W → W → Prop) : Prop where
  refl : ∀ w, Q w w
  add : ∀ v v', Q v v' → ∀ w w', Q w w' → Q (v + w) (v' + w')
  mul : ∀ v v', Q v v' → ∀ w w', Q w w' → Q (v * w) (v' * w')
  beq_zero_eq : ∀ w w', Q w w' → (w == 0) = (w' == 0)

theorem congruent_eq [Zero W] [Add W] [Mul W] [BEq W] : Congruent (Eq : W → W → Prop) where
  refl _ := rfl
  add _ _ hv _ _ hw := by rw [hv, hw]
  mul _ _ hv _ _ hw := by rw [hv, hw]
  beq_zero_eq _ _ hw := by rw [hw]

/-- A solver that treats corresponding weights alike. -/
structure Solver.Respects (Q : W → W → Prop) (solver : Solver W) : Prop where
  queue : solver.queue.Respects Q
  converged_eq : ∀ v v', Q v v' → ∀ w w', Q w w' → solver.converged v w = solver.converged v' w'

theorem Solver.respects_eq (solver : Solver W) : solver.Respects Eq where
  queue := solver.queue.respects_eq
  converged_eq _ _ hv _ _ hw := by rw [hv, hw]

/-- Corresponding distances at corresponding states. -/
def Mirrored [BEq S] [Hashable S] [BEq S'] [Hashable S'] (N : S → S' → Prop) (Q : W → W → Prop)
    (d : Distances S W) (d' : Distances S' W) : Prop :=
  ∀ s s', N s s' → Option.Rel Q d[s]? d'[s']?

/-- Relaxations that have come equally far. -/
structure Relaxation.Alike [BEq S] [Hashable S] [BEq S'] [Hashable S'] (N : S → S' → Prop)
    (Q : W → W → Prop) (r : Relaxation S W) (r' : Relaxation S' W) : Prop where
  frontier : r.frontier.Alike N Q r'.frontier
  distances : Mirrored N Q r.distances r'.distances
  residuals : Mirrored N Q r.residuals r'.residuals

section Relaxation

variable [BEq S] [Hashable S] [BEq S'] [Hashable S'] {N : S → S' → Prop} {Q : W → W → Prop}
variable {d : Distances S W} {d' : Distances S' W} {r : Relaxation S W} {r' : Relaxation S' W}
variable [LawfulBEq S] [LawfulBEq S']

theorem Mirrored.getD (h : Mirrored N Q d d') {s : S} {s' : S'} (hs : N s s') {w : W} (hw : Q w w) :
    Q (d.getD s w) (d'.getD s' w) := by
  rw [Std.HashMap.getD_eq_getD_getElem?, Std.HashMap.getD_eq_getD_getElem?]
  have hentry := h s s' hs
  revert hentry
  generalize d[s]? = o, d'[s']? = o'
  intro hentry
  cases hentry with
  | none => exact hw
  | some hentry => exact hentry

variable (hN : Relator.BiUnique N)
include hN

theorem Mirrored.insert (h : Mirrored N Q d d') {s : S} {s' : S'} (hs : N s s') {w w' : W}
    (hw : Q w w') : Mirrored N Q (d.insert s w) (d'.insert s' w') := fun q q' hq => by
  rw [Std.HashMap.getElem?_insert, Std.HashMap.getElem?_insert, beq_eq_of_biUnique hN hs hq]
  split
  · exact .some hw
  · exact h q q' hq

theorem Relaxation.alike_start {δ : Discipline S W} {δ' : Discipline S' W} (h : δ.Alike N Q δ')
    {s : S} {s' : S'} (hs : N s s') {w w' : W} (hw : Q w w') :
    (Relaxation.start δ s w).Alike N Q (Relaxation.start δ' s' w') := by
  have hempty : Mirrored N Q (Std.HashMap.emptyWithCapacity : Distances S W)
      (Std.HashMap.emptyWithCapacity : Distances S' W) := fun _ _ _ => by
    rw [Std.HashMap.getElem?_emptyWithCapacity, Std.HashMap.getElem?_emptyWithCapacity]
    exact .none
  have hfrontier : (Frontier.empty δ).Alike N Q (Frontier.empty δ') := ⟨h, .nil⟩
  exact ⟨hfrontier.insert hN hs hw, hempty.insert hN hs hw, hempty.insert hN hs hw⟩

variable [Zero W] [Add W] [Mul W] [BEq W] (hQ : Congruent Q)
include hQ

theorem Relaxation.Alike.improve (h : r.Alike N Q r') {solver : Solver W}
    (hsolver : solver.Respects Q) {s : S} {s' : S'} (hs : N s s') {w w' : W} (hw : Q w w') :
    (r.improve solver.converged s w).Alike N Q (r'.improve solver.converged s' w') := by
  have hprevious := h.distances.getD hs (hQ.refl 0)
  have hupdated := hQ.add _ _ hprevious _ _ hw
  unfold Relaxation.improve
  dsimp only
  rw [hsolver.converged_eq _ _ hprevious _ _ hupdated]
  split
  · exact h
  · exact ⟨h.frontier.insert hN hs hupdated, h.distances.insert hN hs hupdated,
      h.residuals.insert hN hs (hQ.add _ _ (h.residuals.getD hs (hQ.refl 0)) _ _ hw)⟩

end Relaxation

namespace Automaton

/-- Corresponding states and transitions of `C` and of `A`, at the memory `ν`, get the same answers
without effect, weights up to `Q`, and these lead to corresponding states and transitions. -/
structure Mirrors (ν : σ) (Q : W → W → Prop) (C : Automaton Option L S T W)
    (A : Automaton (StateT σ Option) L S' T' W) (N : S → S' → Prop) (M : T → T' → Prop) : Prop where
  unique : Relator.BiUnique N
  initialStates : Echoes ν (List.Forall₂ N) C.initialStates A.initialStates
  outgoing : ∀ s s', N s s' → Echoes ν (List.Forall₂ M) (C.outgoing s) (A.outgoing s')
  initialWeight : ∀ s s', N s s' → Echoes ν Q (C.initialWeight s) (A.initialWeight s')
  finalWeight : ∀ s s', N s s' → Echoes ν Q (C.finalWeight s) (A.finalWeight s')
  weight : ∀ t t', M t t' → Echoes ν Q (C.weight t) (A.weight t')
  source : ∀ t t', M t t' → N (C.source t) (A.source t')
  target : ∀ t t', M t t' → N (C.target t) (A.target t')
  label_eq : ∀ t t', M t t' → C.label t = A.label t'
  order : Option.Rel (fun o o' => ∀ s s', N s s' → ∀ q q', N q q' → o s q = o' s' q') C.order
    A.order

namespace Mirrors

variable {ν : σ} {Q : W → W → Prop} {N : S → S' → Prop} {M : T → T' → Prop}
variable {C : Automaton Option L S T W} {A : Automaton (StateT σ Option) L S' T' W}

section Traversal

variable [BEq S] [LawfulBEq S] [Hashable S] [BEq S'] [LawfulBEq S'] [Hashable S']
variable (h : Mirrors ν Q C A N M)
include h

theorem visitNext {sweep : Sweep S T} {sweep' : Sweep S' T'} (hs : sweep.Alike N M sweep') :
    Echoes ν (Option.Rel (Sweep.Alike N M)) (C.visitNext sweep) (A.visitNext sweep') := by
  unfold Automaton.visitNext
  have hpop := hs.frontier.pop?
  revert hpop
  generalize sweep.frontier.pop? = p, sweep'.frontier.pop? = p'
  intro hpop
  cases hpop with
  | none => exact .pure .none
  | @some p p' hpop =>
    obtain ⟨s, f⟩ := p
    obtain ⟨s', f'⟩ := p'
    obtain ⟨hstate, hf⟩ := hpop
    refine (h.outgoing s s' hstate).bind fun out out' hout => .pure (.some ?_)
    have hvisit : Sweep.Alike N M { sweep with frontier := f, visited := (s, out) :: sweep.visited }
        { sweep' with frontier := f', visited := (s', out') :: sweep'.visited } :=
      ⟨hf, hs.seen, .cons ⟨hstate, hout⟩ hs.visited⟩
    exact hvisit.foldl_discover h.unique (List.rel_map (fun _ _ ht => h.target _ _ ht) hout)

theorem explore (budget : ℕ) :
    Echoes ν (List.Forall₂ fun e e' => N e.1 e'.1 ∧ List.Forall₂ M e.2 e'.2) (C.explore budget)
      (A.explore budget) := by
  unfold Automaton.explore
  refine h.initialStates.bind fun ss ss' hss => ?_
  have hqueue := Discipline.Alike.queue h.order (Queue.respects_eq (W := Unit) .topological)
  have hstart := (Sweep.alike_start (M := M) hqueue).foldl_discover h.unique hss
  refine (Echoes.untilDone (fun _ _ => h.visitNext) budget hstart).bind fun _ _ hdone => .pure ?_
  exact List.rel_reverse hdone.visited

theorem states (budget : ℕ) : Echoes ν (List.Forall₂ N) (C.states budget) (A.states budget) :=
  (h.explore budget).bind fun _ _ hall => .pure (List.rel_map (fun _ _ he => he.1) hall)

variable [Zero W] [Add W] [Mul W] [BEq W] (hQ : Congruent Q)
variable {solver : Solver W} (hsolver : solver.Respects Q)
include hQ hsolver

theorem relax {w w' : W} (hw : Q w w') {r : Relaxation S W} {r' : Relaxation S' W}
    (hr : r.Alike N Q r') {t : T} {t' : T'} (ht : M t t') :
    Echoes ν (Relaxation.Alike N Q) (C.relax solver.converged w r t)
      (A.relax solver.converged w' r' t') := by
  refine (h.weight t t' ht).bind fun v v' hv => .pure ?_
  have hdelta := hQ.mul _ _ hw _ _ hv
  rw [hQ.beq_zero_eq _ _ hdelta]
  split
  · exact hr
  · exact hr.improve h.unique hQ hsolver (h.target t t' ht) hdelta

theorem relaxNext {r : Relaxation S W} {r' : Relaxation S' W} (hr : r.Alike N Q r') :
    Echoes ν (Option.Rel (Relaxation.Alike N Q)) (C.relaxNext solver.converged r)
      (A.relaxNext solver.converged r') := by
  unfold Automaton.relaxNext
  have hpop := hr.frontier.pop?
  revert hpop
  generalize r.frontier.pop? = p, r'.frontier.pop? = p'
  intro hpop
  cases hpop with
  | none => exact .pure .none
  | @some p p' hpop =>
    obtain ⟨s, f⟩ := p
    obtain ⟨s', f'⟩ := p'
    obtain ⟨hstate, hf⟩ := hpop
    have hresidual := hr.residuals.getD hstate (hQ.refl 0)
    dsimp only
    rw [hQ.beq_zero_eq _ _ hresidual]
    have htaken : Relaxation.Alike N Q { r with frontier := f, residuals := r.residuals.insert s 0 }
        { r' with frontier := f', residuals := r'.residuals.insert s' 0 } :=
      ⟨hf, hr.distances, hr.residuals.insert h.unique hstate (hQ.refl 0)⟩
    split
    · exact .pure (.some htaken)
    · refine (h.outgoing s s' hstate).bind fun out out' hout => ?_
      refine Echoes.bind ?_ fun _ _ hdone => .pure (.some hdone)
      exact .foldlM hout (fun _ _ ht _ _ hcarried => h.relax hQ hsolver hresidual hcarried ht) htaken

theorem distances (budget : ℕ) {s : S} {s' : S'} (hs : N s s') :
    Echoes ν (Mirrored N Q) (C.distances budget solver s) (A.distances budget solver s') := by
  refine (h.initialWeight s s' hs).bind fun w w' hw => ?_
  dsimp only
  rw [hQ.beq_zero_eq _ _ hw]
  split
  · refine .pure fun _ _ _ => ?_
    rw [Std.HashMap.getElem?_empty, Std.HashMap.getElem?_empty]
    exact .none
  · have hstart := Relaxation.alike_start h.unique (.queue h.order hsolver.queue) hs hw
    exact (Echoes.untilDone (fun _ _ => h.relaxNext hQ hsolver) budget hstart).bind
      fun _ _ hdone => .pure hdone.distances

end Traversal

section Views

variable [Zero W] [One W] [Add W] [Mul W] [BEq W]

/-- The transitions of single-initial views correspond as those of the operands do. -/
def rooted (M : T → T' → Prop) : Rooted T → Rooted T' → Prop
  | .fused t, .fused t' => M t t'
  | .plain t, .plain t' => M t t'
  | _, _ => False

theorem rooted_map {f : T → Rooted T} {f' : T' → Rooted T'}
    (hf : ∀ t t', M t t' → rooted M (f t) (f' t')) {ts : List T} {ts' : List T'}
    (h : List.Forall₂ M ts ts') :
    List.Forall₂ (rooted M) (ts.map f) (ts'.map f') := List.rel_map (fun _ _ ht => hf _ _ ht) h

theorem singleInitial (hQ : Congruent Q) (h : Mirrors ν Q C A N M) :
    Mirrors ν Q C.singleInitial A.singleInitial (Option.Rel N) (rooted M) where
  unique :=
    ⟨fun _ _ _ hs hq => by
      cases hs with
      | none => cases hq; rfl
      | some hs => cases hq with | some hq => exact congrArg some (h.unique.1 hs hq),
    fun _ _ _ hs hq => by
      cases hs with
      | none => cases hq; rfl
      | some hs => cases hq with | some hq => exact congrArg some (h.unique.2 hs hq)⟩
  initialStates := .pure (.cons .none .nil)
  outgoing s s' hs := by
    cases hs with
    | none =>
      refine h.initialStates.bind fun ss ss' hss => ?_
      refine (Echoes.mapM hss fun s s' hs => h.outgoing s s' hs).bind fun rows rows' hrows => .pure ?_
      exact rooted_map (fun _ _ ht => ht) (flatten_forall₂ hrows)
    | some hs =>
      exact (h.outgoing _ _ hs).bind fun _ _ hts => .pure (rooted_map (fun _ _ ht => ht) hts)
  initialWeight s s' hs := by cases hs <;> exact .pure (hQ.refl _)
  finalWeight s s' hs := by
    cases hs with
    | none =>
      refine h.initialStates.bind fun ss ss' hss => ?_
      refine Echoes.foldlM hss (fun s s' hs total total' htotal => ?_) (hQ.refl 0)
      refine (h.initialWeight s s' hs).bind fun v v' hv => ?_
      refine (h.finalWeight s s' hs).bind fun w w' hw => .pure ?_
      exact hQ.add _ _ htotal _ _ (hQ.mul _ _ hv _ _ hw)
    | some hs => exact h.finalWeight _ _ hs
  weight t t' ht := by
    cases t with
    | fused t => cases t' with
      | plain t' => exact ht.elim
      | fused t' =>
        refine (h.initialWeight _ _ (h.source t t' ht)).bind fun v v' hv => ?_
        exact (h.weight t t' ht).bind fun w w' hw => .pure (hQ.mul _ _ hv _ _ hw)
    | plain t => cases t' with
      | fused t' => exact ht.elim
      | plain t' => exact h.weight t t' ht
  source t t' ht := by
    cases t with
    | fused t => cases t' with
      | plain t' => exact ht.elim
      | fused t' => exact .none
    | plain t => cases t' with
      | fused t' => exact ht.elim
      | plain t' => exact .some (h.source t t' ht)
  target t t' ht := by
    cases t <;> cases t' <;> first | exact ht.elim | exact .some (h.target _ _ ht)
  label_eq t t' ht := by
    cases t <;> cases t' <;> first | exact ht.elim | exact h.label_eq _ _ ht
  order := by
    have horder := h.order
    unfold Automaton.singleInitial
    dsimp only
    revert horder
    generalize C.order = o, A.order = o'
    intro horder
    cases horder with
    | none => exact .none
    | some horder =>
      refine .some fun s s' hs q q' hq => ?_
      cases hs <;> cases hq <;> first | rfl | exact horder _ _ ‹_› _ _ ‹_›

end Views

section Total

variable [BEq S] [LawfulBEq S] [Hashable S] [BEq S'] [LawfulBEq S'] [Hashable S']
variable [Zero W] [One W] [Add W] [Mul W] [BEq W] (h : Mirrors ν Q C A N M) (hQ : Congruent Q)
variable {solver : Solver W} (hsolver : solver.Respects Q)
include h hQ hsolver

theorem distancesFromInitial (budget : ℕ) :
    Echoes ν (Mirrored N Q) (C.distancesFromInitial budget solver)
      (A.distancesFromInitial budget solver) := by
  refine ((h.singleInitial hQ).distances hQ hsolver budget .none).bind fun d d' hd => ?_
  refine h.initialStates.bind fun ss ss' hss => ?_
  refine .foldlM hss (fun s s' hs d d' hd => ?_) fun s s' hs => ?_
  · refine (h.initialWeight s s' hs).bind fun w w' hw => .pure ?_
    exact hd.insert h.unique hs (hQ.add _ _ (hd.getD hs (hQ.refl 0)) _ _ hw)
  · rw [getElem?_ownDistances, getElem?_ownDistances]
    exact hd _ _ (.some hs)

theorem completeDistance (budget : ℕ) :
    Echoes ν Q (C.completeDistance budget solver) (A.completeDistance budget solver) := by
  refine (h.distancesFromInitial hQ hsolver budget).bind fun d d' hd => ?_
  refine (h.states budget).bind fun ss ss' hss => ?_
  refine .foldlM hss (fun s s' hs total total' htotal => ?_) (hQ.refl 0)
  have hentry := hd s s' hs
  revert hentry
  generalize d[s]? = o, d'[s']? = o'
  intro hentry
  cases hentry with
  | none => exact .pure htotal
  | some hv =>
    refine (h.finalWeight s s' hs).bind fun w w' hw => .pure ?_
    rw [hQ.beq_zero_eq _ _ hw]
    split
    · exact htotal
    · exact hQ.add _ _ htotal _ _ (hQ.mul _ _ hv _ _ hw)

end Total

section Product

variable {L₁ L₂ S₁ S₁' S₂ S₂' T₁ T₁' T₂ T₂' : Type} {N₁ : S₁ → S₁' → Prop} {N₂ : S₂ → S₂' → Prop}
variable {M₁ : T₁ → T₁' → Prop} {M₂ : T₂ → T₂' → Prop} {C₁ : Automaton Option L₁ S₁ T₁ W}
variable {C₂ : Automaton Option L₂ S₂ T₂ W} {A₁ : Automaton (StateT σ Option) L₁ S₁' T₁' W}
variable {A₂ : Automaton (StateT σ Option) L₂ S₂' T₂' W}

/-- The states of products correspond side by side. -/
structure Paired (N₁ : S₁ → S₁' → Prop) (N₂ : S₂ → S₂' → Prop) (s : PairState S₁ S₂)
    (s' : PairState S₁' S₂') : Prop where
  left : N₁ s.left s'.left
  right : N₂ s.right s'.right
  filter_eq : s.filter = s'.filter

/-- So do their transitions. -/
structure PairedMove (N₁ : S₁ → S₁' → Prop) (N₂ : S₂ → S₂' → Prop) (M₁ : T₁ → T₁' → Prop)
    (M₂ : T₂ → T₂' → Prop) (t : PairTransition S₁ S₂ T₁ T₂ L)
    (t' : PairTransition S₁' S₂' T₁' T₂' L) : Prop where
  source : Paired N₁ N₂ t.source t'.source
  target : Paired N₁ N₂ t.target t'.target
  left : Option.Rel M₁ t.left t'.left
  right : Option.Rel M₂ t.right t'.right
  label_eq : t.label = t'.label

omit W in
theorem biUnique_paired (h₁ : Relator.BiUnique N₁) (h₂ : Relator.BiUnique N₂) :
    Relator.BiUnique (Paired N₁ N₂) := by
  constructor
  · rintro ⟨l, r, f⟩ ⟨l', r', f'⟩ ⟨m, q, g⟩ ⟨hl, hr, rfl⟩ ⟨hl', hr', rfl⟩
    obtain rfl : l = l' := h₁.1 hl hl'
    obtain rfl : r = r' := h₂.1 hr hr'
    rfl
  · rintro ⟨l, r, f⟩ ⟨m, q, g⟩ ⟨m', q', g'⟩ ⟨hl, hr, rfl⟩ ⟨hl', hr', rfl⟩
    obtain rfl : m = m' := h₁.2 hl hl'
    obtain rfl : q = q' := h₂.2 hr hr'
    rfl

variable (pairing : Pairing L₁ L₂ L) (h₁ : Mirrors ν Q C₁ A₁ N₁ M₁)
variable (h₂ : Mirrors ν Q C₂ A₂ N₂ M₂)
include h₁ h₂

theorem pairMoves {s : PairState S₁ S₂} {s' : PairState S₁' S₂'} (hs : Paired N₁ N₂ s s')
    {ts : List T₁} {ts' : List T₁'} (hts : List.Forall₂ M₁ ts ts') {us : List T₂} {us' : List T₂'}
    (hus : List.Forall₂ M₂ us us') :
    List.Forall₂ (PairedMove N₁ N₂ M₁ M₂) (pairMoves pairing C₁ C₂ s ts us)
      (pairMoves pairing A₁ A₂ s' ts' us') := by
  have hattach {move : Move L} {f : Option L → PairTransition S₁ S₂ T₁ T₂ L}
      {f' : Option L → PairTransition S₁' S₂' T₁' T₂' L}
      (hf : ∀ label, PairedMove N₁ N₂ M₁ M₂ (f label) (f' label)) :
      Option.Rel (PairedMove N₁ N₂ M₁ M₂) (move.attach? f) (move.attach? f') := by
    cases move with
    | blocked => exact .none
    | emit label => exact .some (hf label)
  have hleft : List.Forall₂ (PairedMove N₁ N₂ M₁ M₂) (ts.filterMap (leftMove pairing C₁ s))
      (ts'.filterMap (leftMove pairing A₁ s')) := by
    refine List.rel_filterMap (fun t t' ht => ?_) hts
    unfold leftMove
    rw [h₁.label_eq t t' ht]
    exact hattach fun label => ⟨hs, ⟨h₁.target t t' ht, hs.right, rfl⟩, .some ht, .none, rfl⟩
  have hright : List.Forall₂ (PairedMove N₁ N₂ M₁ M₂) (us.filterMap (rightMove pairing C₂ s))
      (us'.filterMap (rightMove pairing A₂ s')) := by
    refine List.rel_filterMap (fun u u' hu => ?_) hus
    unfold rightMove
    rw [h₂.label_eq u u' hu]
    exact hattach fun label => ⟨hs, ⟨hs.left, h₂.target u u' hu, rfl⟩, .none, .some hu, rfl⟩
  have hjoint : List.Forall₂ (PairedMove N₁ N₂ M₁ M₂)
      (ts.flatMap fun t => us.filterMap (jointMove pairing C₁ C₂ s t))
      (ts'.flatMap fun t => us'.filterMap (jointMove pairing A₁ A₂ s' t)) := by
    refine List.rel_flatMap hts fun t t' ht => List.rel_filterMap (fun u u' hu => ?_) hus
    unfold jointMove
    rw [h₁.label_eq t t' ht, h₂.label_eq u u' hu]
    exact hattach fun label =>
      ⟨hs, ⟨h₁.target t t' ht, h₂.target u u' hu, rfl⟩, .some ht, .some hu, rfl⟩
  unfold Automaton.pairMoves
  rw [hs.filter_eq]
  refine List.rel_append (List.rel_append ?_ hright) hjoint
  split
  · exact hleft
  · exact .nil

theorem product [Zero W] [One W] [Add W] [Mul W] [BEq W] (hQ : Congruent Q) :
    Mirrors ν Q (C₁.product pairing C₂) (A₁.product pairing A₂) (Paired N₁ N₂)
      (PairedMove N₁ N₂ M₁ M₂) where
  unique := biUnique_paired h₁.unique h₂.unique
  initialStates := by
    refine h₂.initialStates.bind fun rs rs' hrs => h₁.initialStates.bind fun ls ls' hls => ?_
    refine Echoes.bind (.mapM hls fun l l' hl => ?_) fun _ _ hrows => .pure (flatten_forall₂ hrows)
    refine (h₁.initialWeight l l' hl).bind fun v v' hv => .filterMapM hrs fun r r' hr => ?_
    refine (h₂.initialWeight r r' hr).bind fun w w' hw => .pure ?_
    rw [hQ.beq_zero_eq _ _ (hQ.mul _ _ hv _ _ hw)]
    split
    · exact .none
    · exact .some ⟨hl, hr, rfl⟩
  outgoing s s' hs :=
    (h₁.outgoing _ _ hs.left).bind fun _ _ hts => (h₂.outgoing _ _ hs.right).bind fun _ _ hus =>
      .pure (h₁.pairMoves pairing h₂ hs hts hus)
  initialWeight s s' hs := by
    unfold Automaton.product
    dsimp only
    rw [hs.filter_eq]
    split
    · refine (h₁.initialWeight _ _ hs.left).bind fun v v' hv => ?_
      exact (h₂.initialWeight _ _ hs.right).bind fun w w' hw => .pure (hQ.mul _ _ hv _ _ hw)
    · exact .pure (hQ.refl 0)
  finalWeight s s' hs := by
    refine (h₁.finalWeight _ _ hs.left).bind fun v v' hv => ?_
    exact (h₂.finalWeight _ _ hs.right).bind fun w w' hw => .pure (hQ.mul _ _ hv _ _ hw)
  weight t t' ht := by
    obtain ⟨_, _, left, right, _⟩ := t
    obtain ⟨_, _, left', right', _⟩ := t'
    have hleft : Echoes ν Q (left.elim (pure 1) C₁.weight) (left'.elim (pure 1) A₁.weight) := by
      cases ht.left with
      | none => exact .pure (hQ.refl 1)
      | some hleft => exact h₁.weight _ _ hleft
    have hright : Echoes ν Q (right.elim (pure 1) C₂.weight) (right'.elim (pure 1) A₂.weight) := by
      cases ht.right with
      | none => exact .pure (hQ.refl 1)
      | some hright => exact h₂.weight _ _ hright
    exact hleft.bind fun v v' hv => hright.bind fun w w' hw => .pure (hQ.mul _ _ hv _ _ hw)
  source _ _ ht := ht.source
  target _ _ ht := ht.target
  label_eq _ _ ht := ht.label_eq
  order := by
    have horder₁ := h₁.order
    have horder₂ := h₂.order
    unfold Automaton.product
    dsimp only
    revert horder₁ horder₂
    generalize C₁.order = o₁, A₁.order = o₁', C₂.order = o₂, A₂.order = o₂'
    intro horder₁ horder₂
    cases horder₁ with
    | none => exact .none
    | some horder₁ =>
      cases horder₂ with
      | none => exact .none
      | some horder₂ =>
        refine .some fun s s' hs q q' hq => ?_
        unfold comparePairs
        rw [horder₁ _ _ hs.left _ _ hq.left, horder₂ _ _ hs.right _ _ hq.right, hs.filter_eq,
          hq.filter_eq]

end Product

omit S S' T T' in
theorem singleString [Zero W] [One W] (hQ : ∀ w, Q w w) (ν : σ) (x : List L) :
    Mirrors ν Q (WeightedAutomata.singleString x : Automaton Option L ℕ ℕ W)
      (WeightedAutomata.singleString x) Eq Eq where
  unique := ⟨fun _ _ _ hs hq => hs.trans hq.symm, fun _ _ _ hs hq => hs.symm.trans hq⟩
  initialStates := .pure (.cons rfl .nil)
  outgoing _ _ hs := .pure (by rw [hs, List.forall₂_eq_eq_eq])
  initialWeight _ _ hs := .pure (by rw [hs]; exact hQ _)
  finalWeight _ _ hs := .pure (by rw [hs]; exact hQ _)
  weight _ _ _ := .pure (hQ _)
  source _ _ ht := ht
  target _ _ ht := congrArg (· + 1) ht
  label_eq _ _ ht := congrArg (x[·]?) ht
  order := .some fun _ _ hs _ _ hq => by rw [hs, hq]

variable [BEq S] [LawfulBEq S] [Hashable S] [BEq S'] [LawfulBEq S'] [Hashable S']
variable [Zero W] [One W] [Add W] [Mul W] [BEq W] [BEq L]

/-- Strings have corresponding weights, and the same budgets do. -/
theorem stringWeight (h : Mirrors ν Q C A N M) (hQ : Congruent Q) {solver : Solver W}
    (hsolver : solver.Respects Q) (budget : ℕ) (x : List L) :
    Echoes ν Q (C.stringWeight budget solver x) (A.stringWeight budget solver x) :=
  (h.product .acceptor (singleString hQ.refl ν x) hQ).completeDistance hQ hsolver budget

theorem stringWeight_run_eq (h : Mirrors ν Eq C A N M) (budget : ℕ) (solver : Solver W)
    (x : List L) : (A.stringWeight budget solver x).run ν =
      (C.stringWeight budget solver x).map fun w => (w, ν) :=
  (h.stringWeight congruent_eq solver.respects_eq budget x).run_eq

end Mirrors

end Automaton

end WeightedAutomata
