import Std.Data.HashSet.Lemmas
import WeightedAutomata.Proofs.Frontier.Heaps
import WeightedAutomata.Proofs.Frontier.Listed

/-!
Work lists in which a pending state keeps its place: a line, and a heap in an order of the states.
Beside it stands the set of the states that are in it, so that none comes in twice.
-/
namespace WeightedAutomata

variable {S W H : Type} [BEq S] [Hashable S]

/-- First in, first out: a line of states, and which of them wait in it. -/
structure FifoFrontier (S : Type) [BEq S] [Hashable S] where
  queue : List S
  pending : Std.HashSet S

namespace FifoFrontier

def empty : FifoFrontier S := ⟨[], ∅⟩

def insert (f : FifoFrontier S) (state : S) : FifoFrontier S :=
  if f.pending.contains state then f else ⟨f.queue ++ [state], f.pending.insert state⟩

def pop (f : FifoFrontier S) : Option S × FifoFrontier S :=
  match f.queue with
  | [] => (none, f)
  | state :: rest => (some state, ⟨rest, f.pending.erase state⟩)

def worklist : Worklist S W (FifoFrontier S) where
  empty := empty
  insert f state _ := f.insert state
  pop := pop
  isEmpty f := f.queue.isEmpty
  held := queue

/-- The line is that of a frontier without ranks. -/
structure Keeps (f : FifoFrontier S) (r : Roster S W) : Prop where
  mem_pending : ∀ s, s ∈ f.pending ↔ s ∈ f.queue
  listed : ∃ g : Frontier S W, g.Lists .fifo r ∧ g.states = f.queue

namespace Keeps

variable {f : FifoFrontier S} {g : Frontier S W} {r : Roster S W}

theorem empty : (empty : FifoFrontier S).Keeps (.empty : Roster S W) where
  mem_pending s := by simp [FifoFrontier.empty]
  listed := ⟨.empty .fifo, .empty .fifo, rfl⟩

theorem pop_alike (h : g.states = f.queue) :
    f.pop.1 = ((Frontier.worklist .fifo).pop g).1 ∧
      ((Frontier.worklist .fifo).pop g).2.states = f.pop.2.queue := by
  cases hpending : g.pending with
  | nil =>
    have hqueue : f.queue = [] := by rw [← h, Frontier.states, hpending]; rfl
    rw [Frontier.pop_worklist_of_nil hpending]
    simp [FifoFrontier.pop, hqueue, h]
  | cons e rest =>
    have hqueue : f.queue = e.1 :: rest.map Prod.fst := by rw [← h, Frontier.states, hpending]; rfl
    rw [Frontier.pop_worklist_of_cons hpending]
    simp [FifoFrontier.pop, hqueue, Frontier.states]

theorem answers (h : f.Keeps r) : worklist.Answers .fifo f r := by
  obtain ⟨g, hg, hqueue⟩ := h.listed
  have hplaces : (Discipline.fifo : Discipline S W).PlacesStates := fun _ _ _ _ _ _ _ => rfl
  refine (hg.answers hplaces).mirror hqueue.symm ?_ (pop_alike hqueue).1
  rw [Bool.eq_iff_iff]
  simp [worklist, Frontier.worklist, Frontier.isEmpty, ← hqueue, Frontier.states]

variable [LawfulBEq S]

theorem insert (h : f.Keeps r) (s : S) (w : W) : (f.insert s).Keeps (r.enter s w) := by
  obtain ⟨g, hg, hqueue⟩ := h.listed
  have hlisted := hg.insert s w
  unfold FifoFrontier.insert
  split
  · next hs =>
    have hmem : s ∈ g.states := hqueue ▸ (h.mem_pending s).1 (Std.HashSet.contains_iff_mem.1 hs)
    refine ⟨h.mem_pending, g, ?_, hqueue⟩
    rwa [Frontier.insert_of_mem hmem (by rw [hg.discipline]; rfl)] at hlisted
  · next hs =>
    have hmem : s ∉ g.states := by rwa [hqueue, ← h.mem_pending, ← Std.HashSet.contains_iff_mem]
    refine ⟨fun q => ?_, g.insert s w, hlisted, ?_⟩
    · simp only [Std.HashSet.mem_insert, beq_iff_eq, h.mem_pending, List.mem_append,
        List.mem_singleton]
      exact or_comm.trans (or_congr_right eq_comm)
    · rw [Frontier.states_insert_fifo hg.discipline hmem, hqueue]

theorem pop (h : f.Keeps r) : f.pop.2.Keeps (f.pop.1.elim r r.leave) := by
  obtain ⟨g, hg, hqueue⟩ := h.listed
  obtain ⟨hsame, hstates⟩ := pop_alike hqueue
  refine ⟨fun q => ?_, _, hsame ▸ hg.pop, hstates⟩
  have hnodup := hg.nodup
  rw [hqueue] at hnodup
  unfold FifoFrontier.pop
  split
  · exact h.mem_pending q
  · next s rest hq =>
    rw [hq, List.nodup_cons] at hnodup
    simp only [Std.HashSet.mem_erase, beq_eq_false_iff_ne, h.mem_pending, hq, List.mem_cons]
    refine ⟨fun hq => hq.2.resolve_left (Ne.symm hq.1), fun hq => ⟨?_, .inr hq⟩⟩
    rintro rfl
    exact hnodup.1 hq

end Keeps

theorem worklist_serves [LawfulBEq S] :
    (worklist : Worklist S W (FifoFrontier S)).Serves .fifo :=
  Worklist.serves_of_keeps Keeps.empty (fun _ _ s w (h : Keeps _ _) => h.insert s w)
    (fun _ _ (h : Keeps _ _) => h.pop) fun _ _ (h : Keeps _ _) => h.answers

end FifoFrontier

/-- The state that comes first in an order: a heap of states, and which of them are in it. -/
structure OrderedFrontier (S H : Type) [BEq S] [Hashable S] where
  heap : H
  pending : Std.HashSet S
  nextSeq : ℕ

namespace OrderedFrontier

structure Entry (S : Type) where
  state : S
  seq : ℕ

/-- The state first in the order is the greatest, of equal ones the earlier. -/
def Entry.cmp (order : S → S → Ordering) (a b : Entry S) : Ordering :=
  (order b.state a.state).then (compare b.seq a.seq)

instance (order : S → S → Ordering) [Std.TransCmp order] : Std.TransCmp (Entry.cmp order) :=
  transCmp_descending order Entry.state Entry.seq

variable {order : S → S → Ordering} (heaps : MaxHeap (Entry S) H (Entry.cmp order))

def empty : OrderedFrontier S H := ⟨heaps.empty, ∅, 0⟩

def insert (f : OrderedFrontier S H) (state : S) : OrderedFrontier S H :=
  if f.pending.contains state then f
  else
    { heap := heaps.push f.heap ⟨state, f.nextSeq⟩
      pending := f.pending.insert state
      nextSeq := f.nextSeq + 1 }

def pop (f : OrderedFrontier S H) : Option S × OrderedFrontier S H :=
  match heaps.pop? f.heap with
  | none => (none, f)
  | some (e, heap) => (some e.state, { f with heap, pending := f.pending.erase e.state })

def worklist : Worklist S W (OrderedFrontier S H) where
  empty := empty heaps
  insert f state _ := insert heaps f state
  pop := pop heaps
  isEmpty f := heaps.isEmpty f.heap
  held f := (heaps.entries f.heap).map (·.state)

/-- The heap has one entry for each pending state, numbered in the order of the entrances. -/
structure Keeps (f : OrderedFrontier S H) (r : Roster S W) : Prop where
  nextSeq : f.nextSeq = r.entrances
  mem_pending : ∀ s, s ∈ f.pending ↔ (r.standing s).isSome = true
  mem_entries : ∀ e, e ∈ heaps.entries f.heap ↔ ∃ σ, r.standing e.state = some σ ∧ σ.since = e.seq
  numbered : Numbered Entry.seq f.nextSeq (heaps.entries f.heap)

namespace Keeps

variable {heaps} {f : OrderedFrontier S H} {r : Roster S W}

theorem empty : (empty heaps).Keeps heaps (.empty : Roster S W) where
  nextSeq := rfl
  mem_pending s := by simp [OrderedFrontier.empty, Roster.empty]
  mem_entries e := by simp [OrderedFrontier.empty, Roster.empty, heaps.entries_empty]
  numbered := by
    rw [OrderedFrontier.empty, heaps.entries_empty]
    exact .nil

theorem entry_mem (h : f.Keeps heaps r) {s : S} {σ : Standing W} (hσ : r.standing s = some σ) :
    ⟨s, σ.since⟩ ∈ heaps.entries f.heap :=
  (h.mem_entries _).2 ⟨σ, hσ, rfl⟩

theorem eq_of_state_eq (h : f.Keeps heaps r) {a b : Entry S} (ha : a ∈ heaps.entries f.heap)
    (hb : b ∈ heaps.entries f.heap) (hstate : a.state = b.state) : a = b := by
  obtain ⟨σ, hσ, hseq⟩ := (h.mem_entries a).1 ha
  obtain ⟨τ, hτ, hseq'⟩ := (h.mem_entries b).1 hb
  obtain rfl : σ = τ := Option.some.inj (hσ.symm.trans (hstate ▸ hτ))
  exact h.numbered.eq_of_seq_eq ha hb (hseq.symm.trans hseq')

theorem entries_eq_nil (h : f.Keeps heaps r) : heaps.entries f.heap = [] ↔ r.Idle := by
  refine ⟨fun hnil s => ?_, fun hidle => List.eq_nil_iff_forall_not_mem.2 fun e he => ?_⟩
  · cases hs : r.standing s with
    | none => rfl
    | some σ => exact absurd (h.entry_mem hs) (hnil ▸ List.not_mem_nil)
  · obtain ⟨σ, hσ, -⟩ := (h.mem_entries e).1 he
    rw [hidle] at hσ
    cases hσ

theorem first (h : f.Keeps heaps r) {e : Entry S} {heap : H}
    (hpop : heaps.pop? f.heap = some (e, heap)) : r.First (.ordered order) e.state := by
  have hperm := heaps.entries_pop? hpop
  obtain ⟨σ, hσ, hseq⟩ := (h.mem_entries e).1 (hperm.mem_iff.2 List.mem_cons_self)
  refine ⟨σ, hσ, fun q τ hτ hne => ?_⟩
  have hrest : ⟨q, τ.since⟩ ∈ heaps.entries heap := by
    refine (List.mem_cons.1 (hperm.mem_iff.1 (h.entry_mem hτ))).resolve_left fun heq => hne ?_
    rw [← heq]
  have hne : e.seq ≠ τ.since := (h.numbered.pop hperm).2 _ hrest
  have hle := heaps.greatest hpop _ hrest
  rw [← hseq] at hne
  rw [Entry.cmp, ← hseq] at hle
  exact then_compare_eq_lt hle hne

theorem answers (h : f.Keeps heaps r) : (worklist heaps).Answers (.ordered order) f r where
  nodup := List.Nodup.map_on (fun _ ha _ hb => h.eq_of_state_eq ha hb)
    (List.Nodup.of_map _ h.numbered.nodup)
  mem_held s := by
    refine List.mem_map.trans ⟨?_, fun hs => ?_⟩
    · rintro ⟨e, he, rfl⟩
      obtain ⟨σ, hσ, -⟩ := (h.mem_entries e).1 he
      rw [hσ]
      rfl
    · obtain ⟨σ, hσ⟩ := Option.isSome_iff_exists.1 hs
      exact ⟨_, h.entry_mem hσ, rfl⟩
  isEmpty := (heaps.isEmpty_iff _).trans h.entries_eq_nil
  pop_none := by
    rw [← h.entries_eq_nil]
    change (pop heaps f).1 = none ↔ _
    unfold pop
    split
    · next hpop => exact ⟨fun _ => heaps.eq_nil_of_pop? hpop, fun _ => rfl⟩
    · next hpop => simpa using fun hnil => by simpa [hnil] using heaps.entries_pop? hpop
  pop_some p hp := by
    change (pop heaps f).1 = some p at hp
    unfold pop at hp
    split at hp
    · cases hp
    · next hpop =>
      cases hp
      exact h.first hpop

variable [LawfulBEq S]

theorem insert (h : f.Keeps heaps r) (s : S) (w : W) :
    (insert heaps f s).Keeps heaps (r.enter s w) := by
  unfold OrderedFrontier.insert
  split
  · next hs =>
    have hsome : (r.standing s).isSome = true :=
      (h.mem_pending s).1 (Std.HashSet.contains_iff_mem.1 hs)
    obtain ⟨σ, hσ⟩ := Option.isSome_iff_exists.1 hsome
    refine ⟨?_, fun q => ?_, fun e => ?_, h.numbered⟩
    · rw [h.nextSeq, Roster.enter, if_pos hsome]
    · rw [h.mem_pending, Roster.isSome_standing_enter]
      exact ⟨.inr, fun hq => hq.elim (fun heq => heq ▸ hsome) id⟩
    · rw [h.mem_entries]
      by_cases he : s = e.state
      · simp [← he, hσ]
      · rw [Roster.standing_enter_of_ne he]
  · next hs =>
    have hnone : r.standing s = none := by
      rwa [Std.HashSet.contains_iff_mem, h.mem_pending, Bool.not_eq_true,
        Option.isSome_eq_false_iff, Option.isNone_iff_eq_none] at hs
    have hperm := heaps.entries_push f.heap ⟨s, f.nextSeq⟩
    refine ⟨?_, fun q => ?_, fun e => ?_, h.numbered.push rfl hperm⟩
    · simp [h.nextSeq, Roster.enter, hnone]
    · rw [Roster.isSome_standing_enter, ← h.mem_pending, Std.HashSet.mem_insert, beq_iff_eq,
        eq_comm]
    · rw [hperm.mem_iff, List.mem_cons, h.mem_entries]
      by_cases he : s = e.state
      · obtain ⟨_, n⟩ := e
        obtain rfl := he
        simp [hnone, h.nextSeq, eq_comm]
      · rw [Roster.standing_enter_of_ne he]
        exact or_iff_right fun heq => he (heq ▸ rfl)

theorem pop (h : f.Keeps heaps r) :
    (pop heaps f).2.Keeps heaps ((pop heaps f).1.elim r r.leave) := by
  unfold OrderedFrontier.pop
  split
  · exact h
  · next e heap hpop =>
    have hperm := heaps.entries_pop? hpop
    have hmem : e ∈ heaps.entries f.heap := hperm.mem_iff.2 List.mem_cons_self
    refine ⟨h.nextSeq, fun q => ?_, fun x => ?_, (h.numbered.pop hperm).1⟩
    · rw [Option.elim_some, Roster.isSome_standing_leave, ← h.mem_pending,
        Std.HashSet.mem_erase, beq_eq_false_iff_ne, ne_comm]
    · -- another entry of the state that leaves would have the same number
      by_cases hx : e.state = x.state
      · rw [Option.elim_some, ← hx, Roster.standing_leave_self]
        refine iff_of_false (fun hrest => ?_) (by simp)
        have heq := h.eq_of_state_eq hmem (hperm.mem_iff.2 (List.mem_cons_of_mem e hrest)) hx
        exact (h.numbered.pop hperm).2 x hrest (heq ▸ rfl)
      · rw [Option.elim_some, Roster.standing_leave_of_ne hx, ← h.mem_entries, hperm.mem_iff,
          List.mem_cons]
        exact (or_iff_right fun heq => hx (congrArg Entry.state heq).symm).symm

end Keeps

theorem worklist_serves [LawfulBEq S] :
    (worklist heaps : Worklist S W (OrderedFrontier S H)).Serves (.ordered order) :=
  Worklist.serves_of_keeps Keeps.empty (fun _ _ s w (h : Keeps ..) => h.insert s w)
    (fun _ _ (h : Keeps ..) => h.pop) fun _ _ (h : Keeps ..) => h.answers

end OrderedFrontier

end WeightedAutomata
