import WeightedAutomata.Proofs.Explicit.Steps
import WeightedAutomata.Proofs.Explicit.Tables

/-!
Builders: an arena in which every state keeps the numbers of its transitions, changed in place by
calls that may fail half-way. No failure leaves anything behind, and the automaton that is built in
the end is what the other calls have said.
-/
namespace WeightedAutomata

variable {L W : Type}

/-- What a builder keeps for a state. -/
structure Entry (W : Type) extends Terminal W where
  outgoing : List ℕ
  incoming : List ℕ

def Entry.set (role : Role) (w : W) (x : Entry W) : Entry W :=
  { x with toTerminal := role.set w x.toTerminal }

def Entry.leave (t : ℕ) (x : Entry W) : Entry W := { x with outgoing := x.outgoing ++ [t] }

def Entry.enter (t : ℕ) (x : Entry W) : Entry W := { x with incoming := x.incoming ++ [t] }

structure Builder (L W : Type) where
  entries : Array (Entry W)
  edges : Array (Edge L W)

namespace Builder

/-- A call changes the builder in place. What it has changed before it fails stays. -/
abbrev Call (L W : Type) := ExceptT BuildError (StateM (Builder L W))

def empty : Builder L W := ⟨#[], #[]⟩

/-- Changes the entry of a state, which must be there. -/
def modifyEntry (s : ℕ) (f : Entry W → Entry W) : Call L W Unit := do
  let b ← get
  if s < b.entries.size then set { b with entries := b.entries.modify s f }
  else throw (.unknownState s b.entries.size)

def addState [Zero W] : Call L W ℕ := do
  let b ← get
  set { b with entries := b.entries.push ⟨⟨0, 0⟩, [], []⟩ }
  return b.entries.size

/-- Looks the target up, then records the transition at its source, at its target, and among the
transitions. -/
def addTransition (e : Edge L W) : Call L W ℕ := do
  modifyEntry e.target id
  let t := (← get).edges.size
  modifyEntry e.source (Entry.leave t)
  modifyEntry e.target (Entry.enter t)
  modify fun b => { b with edges := b.edges.push e }
  return t

/-- The call of a step, which answers the numbers of the states or transitions that it has added. -/
def call [Zero W] : Graph.Step L W → Call L W (List ℕ)
  | .addState => return [← addState]
  | .addStates count => (List.range count).mapM fun _ => addState
  | .setInitial s w => do
    modifyEntry s (Entry.set .initial w)
    return []
  | .setFinal s w => do
    modifyEntry s (Entry.set .final w)
    return []
  | .addTransition e => return [← addTransition e]

def answer [Zero W] (b : Builder L W) (step : Graph.Step L W) :
    Except BuildError (List ℕ) × Builder L W :=
  (call step).run.run b

theorem run_bind {α β : Type} (x : Call L W α) (k : α → Call L W β) (b : Builder L W) :
    (x >>= k).run.run b = match x.run.run b with
      | (.ok a, b') => (k a).run.run b'
      | (.error e, b') => (.error e, b') := by
  change (match x.run.run b with | (a, b') => (ExceptT.bindCont k a).run b') = _
  rcases x.run.run b with ⟨_ | _, b'⟩ <;> rfl

theorem run_modifyEntry (b : Builder L W) (s : ℕ) (f : Entry W → Entry W) :
    (modifyEntry s f).run.run b =
      if s < b.entries.size then (.ok (), { b with entries := b.entries.modify s f })
      else (.error (.unknownState s b.entries.size), b) := by
  change (if s < b.entries.size then set { b with entries := b.entries.modify s f }
    else throw (.unknownState s b.entries.size) : Call L W Unit).run.run b = _
  split <;> rfl

/-- If the target is known, it still is when the transition is recorded there. -/
theorem run_addTransition (b : Builder L W) (e : Edge L W) : (addTransition e).run.run b =
    if e.target < b.entries.size then
      if e.source < b.entries.size then
        (.ok b.edges.size, ⟨(b.entries.modify e.source (Entry.leave b.edges.size)).modify e.target
          (Entry.enter b.edges.size), b.edges.push e⟩)
      else (.error (.unknownState e.source b.entries.size), b)
    else (.error (.unknownState e.target b.entries.size), b) := by
  have hsame : b.entries.modify e.target id = b.entries :=
    Array.ext_getElem? fun i => by simp [Array.getElem?_modify]
  unfold addTransition
  rw [run_bind, run_modifyEntry]
  by_cases htarget : e.target < b.entries.size
  · rw [if_pos htarget, if_pos htarget, hsame]
    change ((modifyEntry e.source _ >>= _ : Call L W ℕ).run.run b) = _
    rw [run_bind, run_modifyEntry]
    by_cases hsource : e.source < b.entries.size
    · rw [if_pos hsource, if_pos hsource]
      dsimp only
      rw [run_bind, run_modifyEntry, Array.size_modify, if_pos htarget]
      rfl
    · rw [if_neg hsource, if_neg hsource]
  · rw [if_neg htarget, if_neg htarget]

theorem answer_setWeight [Zero W] (b : Builder L W) (role : Role) (s : ℕ) (w : W) :
    b.answer (.setWeight role s w) =
      if s < b.entries.size then
        (.ok [], { b with entries := b.entries.modify s (Entry.set role w) })
      else (.error (.unknownState s b.entries.size), b) := by
  have hbind : b.answer (.setWeight role s w) =
      (modifyEntry s (Entry.set role w) >>= fun _ => pure [] : Call L W (List ℕ)).run.run b := by
    cases role <;> rfl
  rw [hbind, run_bind, run_modifyEntry]
  by_cases hs : s < b.entries.size
  · rw [if_pos hs, if_pos hs]
    rfl
  · rw [if_neg hs, if_neg hs]

theorem run_addStates [Zero W] (b : Builder L W) (l : List ℕ) :
    (l.mapM fun _ => addState : Call L W (List ℕ)).run.run b =
      (.ok ((List.range l.length).map (b.entries.size + ·)),
        { b with entries := b.entries ++ Array.replicate l.length ⟨⟨0, 0⟩, [], []⟩ }) := by
  induction l generalizing b with
  | nil =>
    rw [List.length_nil, Array.replicate_zero, Array.append_empty]
    rfl
  | cons a l ih =>
    have hnumbers : (List.range (l.length + 1)).map (b.entries.size + ·) =
        b.entries.size :: (List.range l.length).map (b.entries.size + 1 + ·) := by
      rw [List.range_succ_eq_map, List.map_cons, List.map_map]
      congr 2
      funext i
      simp only [Function.comp_apply]
      omega
    have hentries : b.entries.push ⟨⟨0, 0⟩, [], []⟩ ++ Array.replicate l.length ⟨⟨0, 0⟩, [], []⟩ =
        b.entries ++ Array.replicate (l.length + 1) ⟨⟨0, 0⟩, [], []⟩ := by
      rw [← Array.toList_inj]
      simp [List.replicate_succ]
    rw [List.mapM_cons, run_bind]
    change ((l.mapM fun _ => addState) >>= _ : Call L W (List ℕ)).run.run
      { b with entries := b.entries.push ⟨⟨0, 0⟩, [], []⟩ } = _
    rw [run_bind, ih]
    dsimp only
    rw [List.length_cons, hnumbers, ← hentries, Array.size_push]
    rfl

end Builder

namespace Graph

variable {g : Graph L W} {endpoint : Edge L W → ℕ}

theorem edgesBy_modifyState (s : ℕ) (f : Terminal W → Terminal W) :
    (g.modifyState s f).edgesBy endpoint = g.edgesBy endpoint := by
  simp [edgesBy, modifyState]

theorem edgesBy_addStates [Zero W] (h : ∀ e ∈ g.edges.toList, endpoint e < g.states.size)
    (count : ℕ) : (g.addStates count).2.edgesBy endpoint =
      g.edgesBy endpoint ++ Array.replicate count [] := by
  refine Array.ext_getElem? fun s => ?_
  rw [Array.getElem?_append, size_edgesBy, getElem?_edgesBy, getElem?_edgesBy,
    Array.getElem?_replicate]
  change (if s < (g.states ++ Array.replicate count (⟨0, 0⟩ : Terminal W)).size then _ else _) = _
  rw [Array.size_append, Array.size_replicate]
  by_cases hs : s < g.states.size
  · rw [if_pos hs, if_pos hs, if_pos (Nat.lt_add_right count hs)]
    rfl
  · have hnone : g.edges.toList.zipIdx.filter (fun e => endpoint e.1 == s) = [] := by
      refine List.filter_eq_nil_iff.2 fun e he heq => hs ?_
      exact eq_of_beq heq ▸ h e.1 (List.fst_mem_of_mem_zipIdx he)
    rw [if_neg hs]
    by_cases hcount : s < g.states.size + count
    · rw [if_pos hcount, if_pos (by omega)]
      exact congrArg (some <| ·.map Prod.snd) hnone
    · rw [if_neg hcount, if_neg (by omega)]

/-- A new transition comes last. -/
theorem edgesBy_pushEdge {e : Edge L W} (h : e.source < g.states.size ∧ e.target < g.states.size) :
    (g.pushEdge e h).edgesBy endpoint =
      (g.edgesBy endpoint).modify (endpoint e) (· ++ [g.edges.size]) := by
  refine Array.ext_getElem? fun s => ?_
  rw [Array.getElem?_modify, getElem?_edgesBy, getElem?_edgesBy]
  change (if s < g.states.size then _ else _) = _
  have hpush : (g.pushEdge e h).edges.toList.zipIdx =
      g.edges.toList.zipIdx ++ [(e, g.edges.size)] := by
    simp [pushEdge, List.zipIdx_append]
  rw [hpush, List.filter_append, List.map_append]
  by_cases hs : s < g.states.size
  · by_cases he : endpoint e = s
    · simp [hs, he]
    · simp [hs, he]
  · simp [hs]

end Graph

namespace Builder

/-- The automaton has the states and transitions of the builder, and the same tables. -/
structure Builds (b : Builder L W) (E : Explicit L W) : Prop where
  states : E.states = b.entries.map Entry.toTerminal
  edges : E.edges = b.edges
  outgoing : E.outgoing = b.entries.map Entry.outgoing
  incoming : E.incoming = b.entries.map Entry.incoming

variable {b : Builder L W} {g : Graph L W}

theorem Builds.size (h : b.Builds g.explicit) : g.states.size = b.entries.size := by
  have hsize := congrArg Array.size h.states
  rwa [Array.size_map] at hsize

theorem builds_empty : (empty : Builder L W).Builds (Graph.empty.explicit) where
  states := Array.map_empty.symm
  edges := rfl
  outgoing := (Array.eq_empty_of_size_eq_zero (Graph.size_edgesBy ..)).trans Array.map_empty.symm
  incoming := (Array.eq_empty_of_size_eq_zero (Graph.size_edgesBy ..)).trans Array.map_empty.symm

theorem map_modify {α β : Type} {p : α → β} {f : α → α} {q : β → β}
    (h : ∀ a, p (f a) = q (p a)) (xs : Array α) (s : ℕ) :
    (xs.modify s f).map p = (xs.map p).modify s q := by
  refine Array.ext_getElem? fun i => ?_
  rw [Array.getElem?_map, Array.getElem?_modify, Array.getElem?_modify, Array.getElem?_map]
  split
  · rw [Option.map_map, Option.map_map]
    exact congrArg (xs[i]?.map ·) (funext h)
  · rfl

theorem map_modify_of_eq {α β : Type} {p : α → β} {f : α → α} (h : ∀ a, p (f a) = p a)
    (xs : Array α) (s : ℕ) : (xs.modify s f).map p = xs.map p := by
  rw [map_modify (q := id) h]
  exact Array.ext_getElem? fun i => by simp [Array.getElem?_modify]

theorem Builds.addStates [Zero W] (h : b.Builds g.explicit) (count : ℕ) :
    Builds { b with entries := b.entries ++ Array.replicate count ⟨⟨0, 0⟩, [], []⟩ }
      (g.addStates count).2.explicit where
  states := by
    rw [Array.map_append, Array.map_replicate, ← h.states]
    rfl
  edges := h.edges
  outgoing := by
    rw [Array.map_append, Array.map_replicate, ← h.outgoing]
    exact Graph.edgesBy_addStates (fun e he => g.source_lt he) count
  incoming := by
    rw [Array.map_append, Array.map_replicate, ← h.incoming]
    exact Graph.edgesBy_addStates (fun e he => g.target_lt he) count

theorem Builds.set (h : b.Builds g.explicit) (role : Role) (s : ℕ) (w : W) :
    Builds { b with entries := b.entries.modify s (Entry.set role w) }
      (g.modifyState s (role.set w)).explicit where
  states := by
    rw [map_modify (f := Entry.set role w) (q := role.set w) fun _ => rfl, ← h.states]
    rfl
  edges := h.edges
  outgoing := by
    rw [map_modify_of_eq (f := Entry.set role w) fun _ => rfl, ← h.outgoing]
    exact Graph.edgesBy_modifyState s (role.set w)
  incoming := by
    rw [map_modify_of_eq (f := Entry.set role w) fun _ => rfl, ← h.incoming]
    exact Graph.edgesBy_modifyState s (role.set w)

theorem Builds.addTransition (h : b.Builds g.explicit) (e : Edge L W)
    (he : e.source < g.states.size ∧ e.target < g.states.size) :
    Builds ⟨(b.entries.modify e.source (Entry.leave b.edges.size)).modify e.target
        (Entry.enter b.edges.size), b.edges.push e⟩
      (g.pushEdge e he).explicit := by
  have hsize : g.edges.size = b.edges.size := congrArg Array.size h.edges
  refine ⟨?_, ?_, ?_, ?_⟩
  · rw [map_modify_of_eq (f := Entry.enter b.edges.size) fun _ => rfl,
      map_modify_of_eq (f := Entry.leave b.edges.size) fun _ => rfl]
    exact h.states
  · rw [← h.edges]
    rfl
  · rw [map_modify_of_eq (f := Entry.enter b.edges.size) fun _ => rfl,
      map_modify (f := Entry.leave b.edges.size) (q := (· ++ [b.edges.size])) fun _ => rfl,
      ← h.outgoing, ← hsize]
    exact Graph.edgesBy_pushEdge he
  · rw [map_modify (f := Entry.enter b.edges.size) (q := (· ++ [b.edges.size])) fun _ => rfl,
      map_modify_of_eq (f := Entry.leave b.edges.size) fun _ => rfl, ← h.incoming, ← hsize]
    exact Graph.edgesBy_pushEdge he

/-- A call takes the step that the graph takes. If it fails it has changed nothing. -/
theorem Builds.answer [Zero W] (h : b.Builds g.explicit) (step : Graph.Step L W) :
    match g.apply step with
    | .ok (ids, g') => ∃ b', b.answer step = (.ok ids, b') ∧ b'.Builds g'.explicit
    | .error e => b.answer step = (.error e, b) := by
  have hsize := h.size
  cases step using Graph.Step.rec_setWeight with
  | addState =>
    refine ⟨_, ?_, h.addStates 1⟩
    rw [hsize]
    rfl
  | addStates count =>
    refine ⟨_, ?_, h.addStates count⟩
    have hrun := run_addStates b (List.range count)
    rw [List.length_range, ← hsize] at hrun
    exact hrun
  | setWeight role s w =>
    rw [answer_setWeight, ← hsize, Graph.apply_setWeight]
    by_cases hs : s < g.states.size
    · rw [if_pos hs, if_pos hs]
      exact ⟨_, rfl, h.set role s w⟩
    · rw [if_neg hs, if_neg hs]
  | addTransition e =>
    have hadd : b.answer (.addTransition e) = _ := run_bind _ _ b
    have hedges : b.edges.size = g.edges.size := congrArg Array.size h.edges.symm
    rw [hadd, run_addTransition, ← hsize, Graph.apply_addTransition]
    by_cases htarget : e.target < g.states.size
    · by_cases hsource : e.source < g.states.size
      · rw [if_pos htarget, if_pos hsource, dif_pos htarget, dif_pos hsource, ← hedges]
        exact ⟨_, rfl, h.addTransition e ⟨hsource, htarget⟩⟩
      · rw [if_pos htarget, if_neg hsource, dif_pos htarget, dif_neg hsource]
    · rw [if_neg htarget, dif_neg htarget]

def succeeded (log : List (Graph.Step L W × Except BuildError (List ℕ))) :
    List (Graph.Step L W) :=
  (log.filter fun call => call.2.isOk).map Prod.fst

theorem succeeded_concat (log : List (Graph.Step L W × Except BuildError (List ℕ)))
    (step : Graph.Step L W) (answer : Except BuildError (List ℕ)) :
    succeeded (log ++ [(step, answer)]) = succeeded log ++ if answer.isOk then [step] else [] := by
  unfold succeeded
  rw [List.filter_append, List.map_append]
  cases answer <;> rfl

section Run

variable [Zero W]

/-- The calls of a run with their answers, and the builder after them. -/
def run (steps : List (Graph.Step L W)) :
    List (Graph.Step L W × Except BuildError (List ℕ)) × Builder L W :=
  steps.foldl (fun r step => (r.1 ++ [(step, (r.2.answer step).1)], (r.2.answer step).2))
    ([], empty)

theorem run_concat (steps : List (Graph.Step L W)) (step : Graph.Step L W) :
    run (steps ++ [step]) = ((run steps).1 ++ [(step, ((run steps).2.answer step).1)],
      ((run steps).2.answer step).2) := by
  rw [run, List.foldl_append]
  rfl

theorem run_spec (steps : List (Graph.Step L W)) :
    (run steps).2.Builds (Graph.empty.applyPossible steps).explicit ∧
      (Graph.empty.applyPossible steps).Stores (succeeded (run steps).1) := by
  induction steps using List.reverseRecOn with
  | nil => exact ⟨builds_empty, Graph.stores_empty⟩
  | append_singleton steps step ih =>
    obtain ⟨hbuilds, hstores⟩ := ih
    have hanswer := hbuilds.answer step
    have hnext : (Graph.empty : Graph L W).applyPossible (steps ++ [step]) =
        match (Graph.empty.applyPossible steps).apply step with
        | .ok (_, g) => g
        | .error _ => Graph.empty.applyPossible steps := by
      unfold Graph.applyPossible
      rw [List.foldl_append]
      rfl
    rw [run_concat, succeeded_concat, hnext]
    cases hstep : (Graph.empty.applyPossible steps).apply step with
    | error e =>
      rw [hstep] at hanswer
      rw [hanswer]
      exact ⟨hbuilds, (List.append_nil _).symm ▸ hstores⟩
    | ok r =>
      rw [hstep] at hanswer
      obtain ⟨b', hb', hbuilds'⟩ := hanswer
      rw [hb']
      exact ⟨hbuilds', hstores.apply hstep⟩

end Run

end Builder

namespace Graph

variable {g : Graph L W} {done : List (Step L W)}

theorem Stores.statesWhere [Zero W] [BEq W] (h : g.Stores done) (role : Role) :
    g.statesWhere role.get = (List.range (done.map Step.added).sum).filter fun s =>
      !Step.lastWeight role done s == 0 := by
  unfold Graph.statesWhere
  rw [h.size]
  refine List.filter_congr fun s hs => ?_
  have hget := Array.getElem?_eq_getElem (h.size ▸ List.mem_range.1 hs)
  rw [← h.weight, hget]
  rfl

end Graph

/-- What an automaton answers that has been put together by the steps `done`. -/
structure Automaton.Reports {m : Type → Type} [Monad m] [Zero W] [BEq W]
    (done : List (Graph.Step L W)) (A : Automaton m L ℕ ℕ W) : Prop where
  initialWeight : ∀ s, A.initialWeight s = pure (Graph.Step.lastWeight .initial done s)
  finalWeight : ∀ s, A.finalWeight s = pure (Graph.Step.lastWeight .final done s)
  initialStates : A.initialStates = pure ((List.range (done.map Graph.Step.added).sum).filter
    fun s => !Graph.Step.lastWeight .initial done s == 0)
  edge : ∀ t e, (done.filterMap Graph.Step.edge?)[t]? = some e → A.source t = e.source ∧
    A.target t = e.target ∧ A.label t = e.label ∧ A.weight t = pure e.weight
  outgoing : ∀ s, A.outgoing s = pure ((List.range (done.filterMap Graph.Step.edge?).length).filter
    fun t => A.source t == s)
  backward : A.backward = some
    { finalStates := pure ((List.range (done.map Graph.Step.added).sum).filter
        fun s => !Graph.Step.lastWeight .final done s == 0)
      incoming := fun s => pure ((List.range (done.filterMap Graph.Step.edge?).length).filter
        fun t => A.target t == s) }

theorem Graph.Stores.reports {m : Type → Type} [Monad m] [Zero W] [BEq W] {g : Graph L W}
    {done : List (Graph.Step L W)} (h : g.Stores done) :
    (g.explicit.automaton : Automaton m L ℕ ℕ W).Reports done := by
  have hlength : (done.filterMap Graph.Step.edge?).length = g.edges.size := by
    rw [← h.edges, Array.length_toList]
  refine ⟨fun s => congrArg pure (h.weight .initial s), fun s => congrArg pure (h.weight .final s),
    congrArg pure (h.statesWhere .initial), fun t e he => ?_, fun s => ?_, ?_⟩
  · rw [← h.edges, Array.getElem?_toList] at he
    change g.edges[t]?.elim _ _ = _ ∧ g.edges[t]?.elim _ _ = _ ∧ g.edges[t]?.bind _ = _ ∧
      pure (g.edges[t]?.elim _ _) = _
    rw [he]
    exact ⟨rfl, rfl, rfl, rfl⟩
  · rw [hlength]
    exact congrArg pure (g.getD_edgesBy_eq_filter (fun e he => g.source_lt he) s)
  · rw [hlength, ← h.statesWhere]
    refine congrArg some (congrArg₂ Backward.mk rfl (funext fun s => congrArg pure ?_))
    exact g.getD_edgesBy_eq_filter (fun e he => g.target_lt he) s

namespace Builder

variable {m : Type → Type} [Monad m] [Zero W] [BEq W]

/-- After any calls, failed or not, a further call fails at the first state it mentions that is not
there, says so, and changes nothing. The automaton that is built holds the tables of the builder,
and answers what the calls say that have succeeded. -/
theorem run_faithful (steps : List (Graph.Step L W)) :
    let g : Graph L W := .applyPossible .empty steps
    let b := (run steps).2
    let done := succeeded (run steps).1
    (∀ step : Graph.Step L W, (b.answer step).1 = (g.apply step).map Prod.fst) ∧
    (∀ step : Graph.Step L W, match step.mentions.find? (b.entries.size ≤ ·) with
      | some s => b.answer step = (.error (.unknownState s b.entries.size), b)
      | none => ∃ ids b', b.answer step = (.ok ids, b')) ∧
    b.Builds g.explicit ∧
    b.entries.size = (done.map Graph.Step.added).sum ∧
    b.edges.toList = done.filterMap Graph.Step.edge? ∧
    (g.explicit.automaton : Automaton m L ℕ ℕ W).Reports done := by
  obtain ⟨hbuilds, hstores⟩ := run_spec steps
  refine ⟨fun step => ?_, fun step => ?_, hbuilds, ?_, ?_, hstores.reports⟩
  · have hanswer := hbuilds.answer step
    cases hstep : (Graph.empty.applyPossible steps).apply step with
    | error e =>
      rw [hstep] at hanswer
      rw [hanswer]
      rfl
    | ok r =>
      rw [hstep] at hanswer
      obtain ⟨b', hb', -⟩ := hanswer
      rw [hb']
      rfl
  · have hanswer := hbuilds.answer step
    have hstep := (Graph.empty.applyPossible steps).apply_eq step
    rw [hbuilds.size] at hstep
    cases hfind : step.mentions.find? ((run steps).2.entries.size ≤ ·) with
    | some s =>
      simp only [hfind] at hstep
      rw [hstep] at hanswer
      exact hanswer
    | none =>
      simp only [hfind] at hstep
      obtain ⟨ids, g', hstep⟩ := hstep
      rw [hstep] at hanswer
      obtain ⟨b', hb', -⟩ := hanswer
      exact ⟨ids, b', hb'⟩
  · rw [← hbuilds.size]
    exact hstores.size
  · rw [← hbuilds.edges]
    exact hstores.edges

end Builder

end WeightedAutomata
