import Std.Data.HashMap.Lemmas
import WeightedAutomata.Proofs.Frontier.Keeping

/-!
The work list by distances. Each insertion comes into the heap, and the last one of a pending state
counts. What is left behind by a later insertion is passed over when it comes up.
-/
namespace WeightedAutomata

variable {S W H : Type} [BEq S] [Hashable S]

/-- The state with the best distance: a heap of the insertions, and which of them counts for each
pending state. -/
structure PriorityFrontier (S H : Type) [BEq S] [Hashable S] where
  heap : H
  live : Std.HashMap S ℕ
  nextSeq : ℕ

namespace PriorityFrontier

structure Entry (S W : Type) where
  state : S
  distance : W
  seq : ℕ

/-- The best distance is the greatest, of equal ones the earlier. -/
def Entry.cmp (rank : W → W → Ordering) (a b : Entry S W) : Ordering :=
  (rank b.distance a.distance).then (compare b.seq a.seq)

instance (rank : W → W → Ordering) [Std.TransCmp rank] :
    Std.TransCmp (Entry.cmp rank : Entry S W → Entry S W → Ordering) :=
  transCmp_descending rank Entry.distance Entry.seq

variable {rank : W → W → Ordering} (heaps : MaxHeap (Entry S W) H (Entry.cmp rank))

def empty : PriorityFrontier S H := ⟨heaps.empty, ∅, 0⟩

def insert (f : PriorityFrontier S H) (state : S) (distance : W) : PriorityFrontier S H where
  heap := heaps.push f.heap ⟨state, distance, f.nextSeq⟩
  live := f.live.insert state f.nextSeq
  nextSeq := f.nextSeq + 1

/-- Whether an entry is the one that counts for its state. -/
def isLive (f : PriorityFrontier S H) (e : Entry S W) : Bool := f.live[e.state]? == some e.seq

def pop (f : PriorityFrontier S H) : Option S × PriorityFrontier S H :=
  match _hpop : heaps.pop? f.heap with
  | none => (none, f)
  | some (e, heap) =>
    if f.isLive e then (some e.state, { f with heap, live := f.live.erase e.state })
    else pop { f with heap }
termination_by (heaps.entries f.heap).length
decreasing_by
  rw [(heaps.entries_pop? _hpop).length_eq]
  exact Nat.lt_succ_self _

def worklist : Worklist S W (PriorityFrontier S H) where
  empty := empty heaps
  insert := insert heaps
  pop := pop heaps
  isEmpty f := f.live.isEmpty
  held f := ((heaps.entries f.heap).filter f.isLive).map (·.state)

/-- The heap has the last insertion of each pending state, whatever else is in it. -/
structure Keeps (f : PriorityFrontier S H) (r : Roster S W) : Prop where
  nextSeq : f.nextSeq = r.insertions
  live : ∀ s, f.live[s]? = (r.standing s).map (·.latest)
  mem_entries : ∀ s σ, r.standing s = some σ → ⟨s, σ.distance, σ.latest⟩ ∈ heaps.entries f.heap
  numbered : Numbered Entry.seq f.nextSeq (heaps.entries f.heap)

namespace Keeps

variable {heaps} {f : PriorityFrontier S H} {r : Roster S W}

theorem empty : (empty heaps).Keeps heaps (.empty : Roster S W) where
  nextSeq := rfl
  live s := by simp [PriorityFrontier.empty, Roster.empty]
  mem_entries s σ h := by cases h
  numbered := by
    rw [PriorityFrontier.empty, heaps.entries_empty]
    exact .nil

theorem isLive_iff (h : f.Keeps heaps r) {e : Entry S W} (he : e ∈ heaps.entries f.heap) :
    f.isLive e = true ↔ ∃ σ, r.standing e.state = some σ ∧ e = ⟨e.state, σ.distance, σ.latest⟩ := by
  rw [isLive, beq_iff_eq, h.live, Option.map_eq_some_iff]
  refine exists_congr fun σ => and_congr_right fun hσ => ⟨fun hseq => ?_, fun heq => ?_⟩
  · exact h.numbered.eq_of_seq_eq he (h.mem_entries _ σ hσ) hseq.symm
  · exact (congrArg Entry.seq heq).symm

theorem isEmpty_iff [LawfulBEq S] (h : f.Keeps heaps r) : f.live.isEmpty = true ↔ r.Idle := by
  simp only [Std.HashMap.isEmpty_iff_forall_not_mem, Std.HashMap.mem_iff_isSome_getElem?, h.live,
    Option.isSome_map, Bool.not_eq_true, Option.isSome_eq_false_iff, Option.isNone_iff_eq_none]
  rfl

theorem held [LawfulBEq S] (h : f.Keeps heaps r) : ((worklist heaps).held f).Nodup ∧
    ∀ s, s ∈ (worklist heaps).held f ↔ (r.standing s).isSome = true := by
  have hnodup := (List.Nodup.of_map _ h.numbered.nodup).filter f.isLive
  refine ⟨hnodup.map_on fun a ha b hb hstate => ?_, fun s => List.mem_map.trans ⟨?_, fun hs => ?_⟩⟩
  · obtain ⟨ha, hlive⟩ := List.mem_filter.1 ha
    obtain ⟨hb, hlive'⟩ := List.mem_filter.1 hb
    obtain ⟨σ, hσ, heq⟩ := (h.isLive_iff ha).1 hlive
    obtain ⟨τ, hτ, heq'⟩ := (h.isLive_iff hb).1 hlive'
    obtain rfl : σ = τ := Option.some.inj (hσ.symm.trans (hstate ▸ hτ))
    rw [heq, heq', hstate]
  · rintro ⟨e, he, rfl⟩
    obtain ⟨he, hlive⟩ := List.mem_filter.1 he
    obtain ⟨σ, hσ, -⟩ := (h.isLive_iff he).1 hlive
    rw [hσ]
    rfl
  · obtain ⟨σ, hσ⟩ := Option.isSome_iff_exists.1 hs
    have he := h.mem_entries s σ hσ
    exact ⟨_, List.mem_filter.2 ⟨he, (h.isLive_iff he).2 ⟨σ, hσ, rfl⟩⟩, rfl⟩

/-- An entry that is left behind is no loss. -/
theorem skip (h : f.Keeps heaps r) {e : Entry S W} {heap : H}
    (hpop : heaps.pop? f.heap = some (e, heap)) (hstale : f.isLive e = false) :
    { f with heap }.Keeps heaps r := by
  have hperm := heaps.entries_pop? hpop
  refine ⟨h.nextSeq, h.live, fun s σ hσ => ?_, (h.numbered.pop hperm).1⟩
  have he := h.mem_entries s σ hσ
  refine (List.mem_cons.1 (hperm.mem_iff.1 he)).resolve_left fun heq => ?_
  rw [← heq, (h.isLive_iff he).2 ⟨σ, hσ, rfl⟩] at hstale
  cases hstale

theorem first (h : f.Keeps heaps r) {e : Entry S W} {heap : H}
    (hpop : heaps.pop? f.heap = some (e, heap)) (hlive : f.isLive e = true) :
    r.First (.bestFirst rank) e.state := by
  have hperm := heaps.entries_pop? hpop
  obtain ⟨σ, hσ, heq⟩ := (h.isLive_iff (hperm.mem_iff.2 List.mem_cons_self)).1 hlive
  refine ⟨σ, hσ, fun q τ hτ hne => ?_⟩
  have hrest : ⟨q, τ.distance, τ.latest⟩ ∈ heaps.entries heap := by
    refine (List.mem_cons.1 (hperm.mem_iff.1 (h.mem_entries q τ hτ))).resolve_left fun heq => hne ?_
    rw [← heq]
  have hne : e.seq ≠ τ.latest := (h.numbered.pop hperm).2 _ hrest
  have hle := heaps.greatest hpop _ hrest
  rw [heq] at hne hle
  exact then_compare_eq_lt hle hne

variable [LawfulBEq S]

theorem leave (h : f.Keeps heaps r) {e : Entry S W} {heap : H}
    (hpop : heaps.pop? f.heap = some (e, heap)) :
    { f with heap, live := f.live.erase e.state }.Keeps heaps (r.leave e.state) := by
  have hperm := heaps.entries_pop? hpop
  refine ⟨h.nextSeq, fun q => ?_, fun q τ hτ => ?_, (h.numbered.pop hperm).1⟩
  · rw [Std.HashMap.getElem?_erase]
    split
    · next hq => rw [← eq_of_beq hq, Roster.standing_leave_self, Option.map_none]
    · next hq => rw [Roster.standing_leave_of_ne (by simpa using hq), h.live]
  · by_cases hq : e.state = q
    · rw [← hq, Roster.standing_leave_self] at hτ
      cases hτ
    · rw [Roster.standing_leave_of_ne hq] at hτ
      refine (List.mem_cons.1 (hperm.mem_iff.1 (h.mem_entries q τ hτ))).resolve_left ?_
      exact fun heq => hq (heq ▸ rfl)

/-- What comes up first among the entries that count, if there are any. -/
theorem pop (h : f.Keeps heaps r) :
    (pop heaps f).2.Keeps heaps ((pop heaps f).1.elim r r.leave) ∧
      ((pop heaps f).1 = none ↔ r.Idle) ∧
      ∀ p, (pop heaps f).1 = some p → r.First (.bestFirst rank) p := by
  -- along the entries that come up, until one of them counts
  fun_induction PriorityFrontier.pop heaps f with
  | case1 f hpop =>
    refine ⟨h, iff_of_true rfl fun s => ?_, fun p hp => by cases hp⟩
    cases hs : r.standing s with
    | none => rfl
    | some σ =>
      have he := h.mem_entries s σ hs
      rw [heaps.eq_nil_of_pop? hpop] at he
      cases he
  | case2 f e heap hpop hlive =>
    have hfirst := h.first hpop hlive
    obtain ⟨σ, hσ, -⟩ := hfirst
    refine ⟨h.leave hpop, iff_of_false (fun hnone => by cases hnone) fun hidle => ?_, ?_⟩
    · rw [hidle] at hσ
      cases hσ
    · rintro p hp
      cases hp
      exact h.first hpop hlive
  | case3 f e heap hpop hstale ih => exact ih (h.skip hpop (Bool.eq_false_iff.2 hstale))

theorem answers (h : f.Keeps heaps r) : (worklist heaps).Answers (.bestFirst rank) f r :=
  ⟨h.held.1, h.held.2, h.isEmpty_iff, h.pop.2.1, h.pop.2.2⟩

theorem insert (h : f.Keeps heaps r) (s : S) (w : W) :
    (insert heaps f s w).Keeps heaps (r.enter s w) := by
  have hperm := heaps.entries_push f.heap ⟨s, w, f.nextSeq⟩
  refine ⟨?_, fun q => ?_, fun q τ hτ => ?_, h.numbered.push rfl hperm⟩
  · rw [PriorityFrontier.insert, h.nextSeq, Roster.enter]
  · rw [PriorityFrontier.insert, Std.HashMap.getElem?_insert]
    split
    · next hq => rw [← eq_of_beq hq, Roster.standing_enter_self, h.nextSeq, Option.map_some]
    · next hq => rw [Roster.standing_enter_of_ne (by simpa using hq), h.live]
  · refine hperm.mem_iff.2 (List.mem_cons.2 ?_)
    by_cases hq : s = q
    · rw [← hq, Roster.standing_enter_self] at hτ
      cases hτ
      exact .inl (by rw [hq, h.nextSeq])
    · rw [Roster.standing_enter_of_ne hq] at hτ
      exact .inr (h.mem_entries q τ hτ)

end Keeps

theorem worklist_serves [LawfulBEq S] :
    (worklist heaps : Worklist S W (PriorityFrontier S H)).Serves (.bestFirst rank) :=
  Worklist.serves_of_keeps Keeps.empty (fun _ _ s w (h : Keeps ..) => h.insert s w)
    (fun _ _ (h : Keeps ..) => h.pop.1) fun _ _ (h : Keeps ..) => h.answers

end PriorityFrontier

namespace Worklist

variable {φ : Type} {F : Worklist S W φ} {d : Discipline S W} {before : Precedence S W}

/-- `F` and the frontier of a discipline are work lists for one precedence, and give back the same
states. -/
structure Implements (F : Worklist S W φ) (d : Discipline S W) (before : Precedence S W) :
    Prop where
  serves : F.Serves before
  listed : (Frontier.worklist d).Serves before
  same : ∀ calls, (F.run calls).2 = ((Frontier.worklist d).run calls).2

omit [Hashable S] in
theorem Serves.implements [LawfulBEq S] [Std.TransCmp d.rank] [Std.TransCmp d.precedence]
    (h : F.Serves d.precedence) (hd : d.PlacesStates) : F.Implements d d.precedence :=
  have hlisted := Frontier.worklist_serves d hd
  ⟨h, hlisted, h.roster_eq hlisted⟩

/-- After any calls each of the three frontiers holds the states inserted since they last left,
each once, and gives back one of them as long as there are any: the one that became pending first,
the one first in the order, or the one whose last distance is best, whatever it was before. -/
theorem frontiers_serve [LawfulBEq S] {G : Type} {order : S → S → Ordering}
    {rank : W → W → Ordering} [Std.TransCmp order] [Std.TransCmp rank]
    (ordered : MaxHeap (OrderedFrontier.Entry S) H (OrderedFrontier.Entry.cmp order))
    (prioritized : MaxHeap (PriorityFrontier.Entry S W) G (PriorityFrontier.Entry.cmp rank)) :
    (FifoFrontier.worklist : Worklist S W (FifoFrontier S)).Implements .fifo .fifo ∧
    (OrderedFrontier.worklist ordered).Implements (.ordered order) (.ordered (W := W) order) ∧
    (PriorityFrontier.worklist prioritized).Implements (.bestFirst rank) (.bestFirst rank) := by
  refine ⟨?_, ?_, ?_⟩
  · exact FifoFrontier.worklist_serves.implements fun _ _ _ _ _ _ _ => rfl
  · exact (OrderedFrontier.worklist_serves ordered).implements fun _ _ _ _ _ _ _ => rfl
  · exact (PriorityFrontier.worklist_serves prioritized).implements fun h => by cases h

theorem frontiers_serve_numbers :
    LawfulBEq ℕ ∧ Std.TransCmp (compare : ℕ → ℕ → Ordering) ∧
    Std.TransCmp (compare : ℕ → ℕ → Ordering) ∧
    (FifoFrontier.worklist : Worklist ℕ ℕ (FifoFrontier ℕ)).Implements .fifo .fifo ∧
    (OrderedFrontier.worklist (.descending (OrderedFrontier.Entry.cmp compare))).Implements
      (.ordered compare) (.ordered (S := ℕ) (W := ℕ) compare) ∧
    (PriorityFrontier.worklist (.descending (PriorityFrontier.Entry.cmp compare))).Implements
      (.bestFirst compare) (.bestFirst (S := ℕ) (W := ℕ) compare) :=
  ⟨inferInstance, inferInstance, inferInstance, frontiers_serve _ _⟩

/-- A state that is inserted with a worse distance gives up its place. -/
example :
    let calls : List (Call Char ℕ) := [.insert 'a' 1, .insert 'b' 2, .insert 'a' 3]
    (((Frontier.worklist (.bestFirst compare)).run calls).1.states = ['b', 'a']) := by decide

end Worklist

end WeightedAutomata
