import WeightedAutomata.Proofs.Frontier
import WeightedAutomata.Proofs.Frontier.Worklist

/-!
A frontier as a work list. Its pending states stand in the order in which they come first: an entry
goes behind those that are as good, and these took their places before.
-/
namespace WeightedAutomata

variable {S W : Type}

namespace Discipline

variable (d : Discipline S W)

/-- When a pending state took its place. -/
def time (σ : Standing W) : ℕ := if d.reschedules then σ.latest else σ.since

/-- The time of the next place. -/
def now (r : Roster S W) : ℕ := if d.reschedules then r.insertions else r.entrances

/-- The state that the rank puts first, of equal ones the one that took its place first. -/
def precedence : Precedence S W :=
  compareLex (fun a b => d.rank (a.1, a.2.distance) (b.1, b.2.distance)) (compareOn (d.time ·.2))

instance [Std.TransCmp d.rank] : Std.TransCmp d.precedence :=
  have := transCmp_comap d.rank fun a : S × Standing W => (a.1, a.2.distance)
  inferInstanceAs (Std.TransCmp (compareLex _ _))

/-- Where a state keeps its place, that does not depend on its distance. -/
def PlacesStates : Prop :=
  d.reschedules = false → ∀ p q w x w' x', d.rank (p, w) (q, x) = d.rank (p, w') (q, x')

end Discipline

namespace Roster

/-- When `s` took its place, if it is pending. -/
def time (d : Discipline S W) (r : Roster S W) (s : S) : ℕ := (r.standing s).elim 0 d.time

variable [BEq S] [LawfulBEq S] {d : Discipline S W} {r : Roster S W} {s q : S} {w : W}

theorem time_enter_of_ne (h : s ≠ q) : (r.enter s w).time d q = r.time d q :=
  congrArg (Option.elim · 0 d.time) (standing_enter_of_ne h)

/-- A pending state keeps its place unless it is rescheduled. -/
theorem time_enter_of_isSome (hs : (r.standing s).isSome = true) (hd : d.reschedules = false) :
    (r.enter s w).time d s = r.time d s ∧ d.now (r.enter s w) = d.now r := by
  obtain ⟨σ, hσ⟩ := Option.isSome_iff_exists.1 hs
  simp [time, Discipline.time, Discipline.now, hd, hσ, enter]

theorem time_enter (h : (r.standing s).isSome = true → d.reschedules = true) :
    (r.enter s w).time d s = d.now r ∧ d.now (r.enter s w) = d.now r + 1 := by
  cases hd : d.reschedules with
  | true => simp [time, Discipline.time, Discipline.now, hd, enter]
  | false =>
    have hs : r.standing s = none := by
      by_contra hs
      rw [h (Option.isSome_iff_ne_none.2 hs)] at hd
      cases hd
    simp [time, Discipline.time, Discipline.now, hd, hs, enter]

end Roster

namespace Frontier

section Pop

variable [BEq S] {d : Discipline S W} {f : Frontier S W} {s : S} {w : W} {rest : List (S × W)}

/-- A frontier as a work list. -/
def worklist (d : Discipline S W) : Worklist S W (Frontier S W) where
  empty := .empty d
  insert := .insert
  pop f := f.pop?.elim (none, f) fun (s, f) => (some s, f)
  isEmpty := isEmpty
  held := states

theorem pop_worklist_of_nil (h : f.pending = []) : (worklist d).pop f = (none, f) := by
  simp [worklist, pop?, h]

theorem pop_worklist_of_cons (h : f.pending = (s, w) :: rest) :
    (worklist d).pop f = (some s, { f with pending := rest }) := by
  simp [worklist, pop?, h]

end Pop

/-- What is placed later comes after all that are as good. -/
theorem pairwise_place_stamped {rank : S × W → S × W → Ordering} [Std.TransCmp rank]
    {time : S × W → ℕ} {l : List (S × W)} {entry : S × W}
    (h : l.Pairwise fun a b => compareLex rank (compareOn time) a b = .lt)
    (hlast : ∀ e ∈ l, time e < time entry) :
    (place rank entry l).Pairwise fun a b => compareLex rank (compareOn time) a b = .lt := by
  have : IsTrans (S × W) fun a b => compareLex rank (compareOn time) a b = .lt :=
    ⟨fun _ _ _ => Std.TransCmp.lt_trans⟩
  refine pairwise_place_of h (fun e _ hlt => by simp [compareLex, hlt]) fun e he hge => ?_
  have hrank : rank e entry ≠ .gt := fun hgt => hge (Std.OrientedCmp.lt_of_gt hgt)
  simp only [compareLex, compareOn, Nat.compare_eq_lt.2 (hlast e he)]
  cases hc : rank e entry
  · rfl
  · rfl
  · exact absurd hc hrank

/-- The pending states of `r` are listed once, the first in front. -/
structure Lists (d : Discipline S W) (f : Frontier S W) (r : Roster S W) : Prop where
  discipline : f.discipline = d
  nodup : f.states.Nodup
  mem_states : ∀ s, s ∈ f.states ↔ (r.standing s).isSome = true
  past : ∀ s, (r.standing s).isSome = true → r.time d s < d.now r
  distance : d.reschedules = true → ∀ e ∈ f.pending, ∀ σ, r.standing e.1 = some σ → e.2 = σ.distance
  sorted : f.pending.Pairwise fun a b =>
    compareLex d.rank (compareOn fun e => r.time d e.1) a b = .lt

namespace Lists

variable {d : Discipline S W} {f : Frontier S W} {r : Roster S W}

theorem empty (d : Discipline S W) : (Frontier.empty d).Lists d .empty where
  discipline := rfl
  nodup := .nil
  mem_states s := by simp [Roster.empty]
  past s h := by cases h
  distance _ e he := by cases he
  sorted := .nil

theorem pending_eq_nil (h : f.Lists d r) : f.pending = [] ↔ r.Idle := by
  rw [← List.map_eq_nil_iff (f := Prod.fst), List.eq_nil_iff_forall_not_mem]
  exact forall_congr' fun s => (h.mem_states s).not.trans (by simp)

theorem first (h : f.Lists d r) (hd : d.PlacesStates) {p : S} {w : W} {rest : List (S × W)}
    (hpending : f.pending = (p, w) :: rest) : r.First d.precedence p := by
  have hmem : (p, w) ∈ f.pending := hpending ▸ List.mem_cons_self
  obtain ⟨σ, hσ⟩ := Option.isSome_iff_exists.1 ((h.mem_states p).1 (List.mem_map_of_mem hmem))
  refine ⟨σ, hσ, fun q τ hτ hne => ?_⟩
  obtain ⟨⟨q, x⟩, hx, rfl⟩ := List.mem_map.1 ((h.mem_states q).2 (by rw [hτ]; rfl))
  have hrest : (q, x) ∈ rest := by
    rw [hpending] at hx
    exact (List.mem_cons.1 hx).resolve_left fun heq => hne (congrArg Prod.fst heq)
  have hsorted := h.sorted
  rw [hpending] at hsorted
  have hlt := List.rel_of_pairwise_cons hsorted hrest
  have hrank : d.rank (p, w) (q, x) = d.rank (p, σ.distance) (q, τ.distance) := by
    cases hr : d.reschedules with
    | false => exact hd hr ..
    | true =>
      have hw : w = σ.distance := h.distance hr (p, w) hmem σ hσ
      have hx : x = τ.distance := h.distance hr (q, x) hx τ hτ
      rw [hw, hx]
  simpa [Discipline.precedence, compareLex, compareOn, Roster.time, hσ, hτ, hrank] using hlt

variable [BEq S]

theorem answers (h : f.Lists d r) (hd : d.PlacesStates) :
    (worklist d).Answers d.precedence f r where
  nodup := h.nodup
  mem_held := h.mem_states
  isEmpty := List.isEmpty_iff.trans h.pending_eq_nil
  pop_none := by
    rw [← h.pending_eq_nil]
    cases hpending : f.pending with
    | nil => simp [pop_worklist_of_nil hpending]
    | cons e rest => simp [pop_worklist_of_cons hpending]
  pop_some p hp := by
    cases hpending : f.pending with
    | nil => simp [pop_worklist_of_nil hpending] at hp
    | cons e rest =>
      rw [pop_worklist_of_cons hpending] at hp
      cases hp
      exact h.first hd hpending

variable [LawfulBEq S]

theorem pop (h : f.Lists d r) :
    ((worklist d).pop f).2.Lists d (((worklist d).pop f).1.elim r r.leave) := by
  cases hpending : f.pending with
  | nil =>
    rw [pop_worklist_of_nil hpending]
    exact h
  | cons e rest =>
    obtain ⟨s, w⟩ := e
    rw [pop_worklist_of_cons hpending]
    have hstates : f.states = s :: rest.map Prod.fst := by rw [states, hpending]; rfl
    have hnodup := h.nodup
    have hsorted := h.sorted
    rw [hstates] at hnodup
    rw [hpending] at hsorted
    obtain ⟨hs, hnodup⟩ := List.nodup_cons.1 hnodup
    have hne (e : S × W) (he : e ∈ rest) : s ≠ e.1 := fun heq => hs (heq ▸ List.mem_map_of_mem he)
    have htime (q : S) (hq : s ≠ q) : (r.leave s).time d q = r.time d q :=
      congrArg (Option.elim · 0 d.time) (Roster.standing_leave_of_ne hq)
    refine ⟨h.discipline, hnodup, fun q => ?_, fun q hq => ?_, fun hr e he σ hσ => ?_, ?_⟩
    · rw [Option.elim_some, Roster.isSome_standing_leave, ← h.mem_states, hstates, List.mem_cons]
      refine ⟨fun hq => ⟨?_, .inr hq⟩, fun hq => hq.2.resolve_left hq.1⟩
      rintro rfl
      exact hs hq
    · obtain ⟨hq, hsome⟩ := Roster.isSome_standing_leave.1 hq
      rw [Option.elim_some, htime q (Ne.symm hq)]
      exact h.past q hsome
    · rw [Option.elim_some, Roster.standing_leave_of_ne (hne e he)] at hσ
      exact h.distance hr e (hpending ▸ List.mem_cons_of_mem _ he) σ hσ
    · refine hsorted.of_cons.imp_of_mem fun {a b} ha hb hab => ?_
      rwa [Option.elim_some, compareLex, compareOn, htime a.1 (hne a ha), htime b.1 (hne b hb)]

/-- A pending state that keeps its place. -/
theorem insert_of_isSome (h : f.Lists d r) {s : S} (hs : (r.standing s).isSome = true)
    (hd : d.reschedules = false) (w : W) : (f.insert s w).Lists d (r.enter s w) := by
  obtain ⟨hself, hnow⟩ := Roster.time_enter_of_isSome (w := w) hs hd
  have htime (q : S) : (r.enter s w).time d q = r.time d q := by
    by_cases hq : s = q
    · exact hq ▸ hself
    · exact Roster.time_enter_of_ne hq
  rw [Frontier.insert_of_mem ((h.mem_states s).2 hs) (h.discipline ▸ hd)]
  refine ⟨h.discipline, h.nodup, fun q => ?_, fun q hq => ?_, fun hr => ?_, ?_⟩
  · rw [Roster.isSome_standing_enter, ← h.mem_states]
    exact ⟨.inr, fun hq => hq.elim (fun heq => heq ▸ (h.mem_states s).2 hs) id⟩
  · rw [htime, hnow]
    refine h.past q ?_
    exact (Roster.isSome_standing_enter.1 hq).elim (fun heq => heq ▸ hs) id
  · rw [hd] at hr
    cases hr
  · simpa only [htime] using h.sorted

/-- A state that takes a new place, behind all that are as good. -/
theorem insert_of_place [Std.TransCmp d.rank] (h : f.Lists d r) {s : S}
    (hs : (r.standing s).isSome = true → d.reschedules = true) (w : W) :
    (f.insert s w).Lists d (r.enter s w) := by
  obtain ⟨hself, hnow⟩ := Roster.time_enter (w := w) hs
  have hpending : (f.insert s w).pending = place d.rank (s, w) (f.pending.filter (·.1 != s)) := by
    obtain rfl := h.discipline
    exact pending_insert h.nodup (fun hmem => hs ((h.mem_states s).1 hmem)) w
  have hold (e : S × W) (he : e ∈ f.pending.filter (·.1 != s)) : e ∈ f.pending ∧ s ≠ e.1 := by
    obtain ⟨he, hne⟩ := List.mem_filter.1 he
    exact ⟨he, Ne.symm (bne_iff_ne.1 hne)⟩
  -- the place that `s` takes is later than all others, whether or not it had one before
  have hlast (e : S × W) (he : e ∈ f.pending.filter (·.1 != s)) :
      (r.enter s w).time d e.1 < (r.enter s w).time d s := by
    obtain ⟨he, hne⟩ := hold e he
    rw [Roster.time_enter_of_ne hne, hself]
    exact h.past e.1 ((h.mem_states e.1).1 (List.mem_map_of_mem he))
  refine ⟨(discipline_insert ..).trans h.discipline, nodup_states_insert h.nodup s w,
    fun q => ?_, fun q hq => ?_, fun hr e he σ hσ => ?_, ?_⟩
  · rw [mem_states_insert, h.mem_states, Roster.isSome_standing_enter]
  · rw [hnow]
    by_cases hsq : s = q
    · rw [← hsq, hself]
      exact Nat.lt_succ_self _
    · rw [Roster.time_enter_of_ne hsq]
      refine Nat.lt_succ_of_lt (h.past q ?_)
      exact (Roster.isSome_standing_enter.1 hq).resolve_left (Ne.symm hsq)
  · rw [hpending, (place_perm ..).mem_iff, List.mem_cons] at he
    rcases he with rfl | he
    · rw [Roster.standing_enter_self] at hσ
      cases hσ
      rfl
    · obtain ⟨he, hne⟩ := hold e he
      rw [Roster.standing_enter_of_ne hne] at hσ
      exact h.distance hr e he σ hσ
  · rw [hpending]
    refine pairwise_place_stamped ((h.sorted.filter _).imp_of_mem fun {a b} ha hb hab => ?_) hlast
    simp only [compareLex, compareOn, Roster.time_enter_of_ne (hold a ha).2,
      Roster.time_enter_of_ne (hold b hb).2]
    exact hab

theorem insert [Std.TransCmp d.rank] (h : f.Lists d r) (s : S) (w : W) :
    (f.insert s w).Lists d (r.enter s w) := by
  by_cases hs : (r.standing s).isSome = true → d.reschedules = true
  · exact h.insert_of_place hs w
  · obtain ⟨hsome, hd⟩ := Classical.not_imp.1 hs
    exact h.insert_of_isSome hsome (Bool.eq_false_iff.2 hd) w

end Lists

/-- A frontier gives back what comes first by its discipline. -/
theorem worklist_serves [BEq S] [LawfulBEq S] (d : Discipline S W) [Std.TransCmp d.rank]
    (hd : d.PlacesStates) : (worklist d).Serves d.precedence :=
  Worklist.serves_of_keeps (Lists.empty d) (fun _ _ s w h => h.insert s w) (fun _ _ h => h.pop)
    fun _ _ h => h.answers hd

end Frontier

end WeightedAutomata
