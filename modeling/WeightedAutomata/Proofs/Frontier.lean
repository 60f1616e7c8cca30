import Mathlib.Algebra.BigOperators.Group.List.Basic
import Mathlib.Algebra.Order.Ring.Nat
import Mathlib.Data.List.Nodup
import WeightedAutomata.Frontier

/-!
The pending states of a frontier as a list without repetition, whatever the discipline: insertion
adds a state that is not pending yet, and what leaves is one of them. Where the rank is a total
preorder, what leaves ranks no later than what stays.
-/
namespace WeightedAutomata

variable {S W : Type}

/-- Comparing by a part of what is compared. -/
theorem transCmp_comap {α : Type} (order : S → S → Ordering) [Std.TransCmp order] (f : α → S) :
    Std.TransCmp fun a b => order (f a) (f b) where
  eq_swap := Std.OrientedCmp.eq_swap
  isLE_trans := Std.TransCmp.isLE_trans

namespace Discipline

instance : Std.TransCmp (fifo : Discipline S W).rank where
  eq_swap := rfl
  isLE_trans _ _ := rfl

instance (order : S → S → Ordering) [Std.TransCmp order] :
    Std.TransCmp (ordered order : Discipline S W).rank := transCmp_comap order Prod.fst

instance (rank : W → W → Ordering) [Std.TransCmp rank] :
    Std.TransCmp (bestFirst rank : Discipline S W).rank := transCmp_comap rank Prod.snd

end Discipline

namespace Frontier

def states (f : Frontier S W) : List S := f.pending.map Prod.fst

@[simp] theorem states_empty (discipline : Discipline S W) : (empty discipline).states = [] := rfl

theorem place_perm (rank : S × W → S × W → Ordering) (entry : S × W) (l : List (S × W)) :
    (place rank entry l).Perm (entry :: l) := by
  induction l with
  | nil => exact .refl _
  | cons e rest ih =>
    rw [place]
    split
    · exact .refl _
    · exact (ih.cons e).trans (.swap entry e rest)

theorem place_fifo (entry : S × W) (l : List (S × W)) :
    place (Discipline.fifo : Discipline S W).rank entry l = l ++ [entry] := by
  induction l with
  | nil => rfl
  | cons e rest ih => exact congrArg (e :: ·) ih

/-- No entry ranks before one that leaves earlier. -/
def Sorted (f : Frontier S W) : Prop := f.pending.Pairwise fun a b => (f.discipline.rank a b).isLE

theorem sorted_ordered_iff {f : Frontier S W} {order : S → S → Ordering}
    (h : f.discipline = .ordered order) :
    f.Sorted ↔ f.states.Pairwise fun p q => (order p q).isLE := by
  rw [Sorted, h, states, List.pairwise_map]
  rfl

section Place

variable {rank : S × W → S × W → Ordering} {entry : S × W} {l : List (S × W)}

theorem pairwise_place_of {R : S × W → S × W → Prop} [IsTrans (S × W) R] (h : l.Pairwise R)
    (hbefore : ∀ e ∈ l, rank entry e = .lt → R entry e)
    (hbehind : ∀ e ∈ l, rank entry e ≠ .lt → R e entry) : (place rank entry l).Pairwise R := by
  induction l with
  | nil => exact List.pairwise_singleton _ _
  | cons e rest ih =>
    obtain ⟨he, hrest⟩ := List.pairwise_cons.1 h
    obtain ⟨hfirst, hbefore⟩ := List.forall_mem_cons.1 hbefore
    obtain ⟨hlast, hbehind⟩ := List.forall_mem_cons.1 hbehind
    rw [place]
    split
    · next hlt =>
      have hentry : R entry e := hfirst (eq_of_beq hlt)
      refine List.pairwise_cons.2 ⟨fun x hx => ?_, h⟩
      rcases List.mem_cons.1 hx with rfl | hx
      · exact hentry
      · exact IsTrans.trans _ _ _ hentry (he x hx)
    · next hge =>
      have hentry : R e entry := hlast fun hlt => hge (beq_iff_eq.2 hlt)
      refine List.pairwise_cons.2 ⟨fun x hx => ?_, ih hrest hbefore hbehind⟩
      rcases List.mem_cons.1 ((place_perm rank entry rest).mem_iff.1 hx) with rfl | hx
      · exact hentry
      · exact he x hx

theorem pairwise_place [Std.TransCmp rank] (h : l.Pairwise fun a b => (rank a b).isLE)
    (entry : S × W) : (place rank entry l).Pairwise fun a b => (rank a b).isLE := by
  have : IsTrans (S × W) fun a b => (rank a b).isLE := ⟨fun _ _ _ => Std.TransCmp.isLE_trans⟩
  refine pairwise_place_of h (fun e _ hlt => by rw [hlt]; rfl) fun e _ hge => ?_
  rw [(Std.OrientedCmp.eq_swap : rank e entry = (rank entry e).swap)]
  cases hc : rank entry e
  · exact absurd hc hge
  · rfl
  · rfl

end Place

theorem pop?_eq_none {f : Frontier S W} (h : f.pop? = none) : f.states = [] := by
  unfold pop? at h
  split at h
  · next hp => simp [states, hp]
  · cases h

theorem pending_of_pop? {f f' : Frontier S W} {s : S} (h : f.pop? = some (s, f')) :
    ∃ w, f.pending = (s, w) :: f'.pending := by
  unfold pop? at h
  split at h
  · cases h
  · next w rest hp =>
    cases h
    exact ⟨w, hp⟩

theorem states_of_pop? {f f' : Frontier S W} {s : S} (h : f.pop? = some (s, f')) :
    f.states = s :: f'.states := by
  obtain ⟨w, hp⟩ := pending_of_pop? h
  simp [states, hp]

theorem discipline_of_pop? {f f' : Frontier S W} {s : S} (h : f.pop? = some (s, f')) :
    f'.discipline = f.discipline := by
  unfold pop? at h
  split at h
  · cases h
  · cases h
    rfl

theorem Sorted.of_pop? {f f' : Frontier S W} {s : S} (hs : f.Sorted)
    (h : f.pop? = some (s, f')) : f'.Sorted := by
  obtain ⟨w, hp⟩ := pending_of_pop? h
  rw [Sorted, hp, ← discipline_of_pop? h] at hs
  exact hs.of_cons

variable [BEq S]

theorem discipline_insert {f : Frontier S W} (s : S) (w : W) :
    (f.insert s w).discipline = f.discipline := by
  unfold insert
  split
  · split <;> rfl
  · rfl

theorem Sorted.insert {f : Frontier S W} [Std.TransCmp f.discipline.rank] (h : f.Sorted) (s : S)
    (w : W) : (f.insert s w).Sorted := by
  unfold Frontier.insert
  split
  · split
    · exact pairwise_place (h.sublist List.eraseP_sublist) _
    · exact h
  · exact pairwise_place h _

variable [LawfulBEq S]

theorem states_eraseP_perm {l : List (S × W)} {s : S} (hs : s ∈ l.map Prod.fst) :
    (s :: (l.eraseP (·.1 == s)).map Prod.fst).Perm (l.map Prod.fst) := by
  induction l with
  | nil => simp at hs
  | cons e rest ih =>
    by_cases he : e.1 = s
    · simp [he]
    · have hr : s ∈ rest.map Prod.fst := by simpa [Ne.symm he] using hs
      rw [List.eraseP_cons_of_neg (by simpa using he)]
      exact (List.Perm.swap _ _ _).trans ((ih hr).cons _)

theorem eraseP_eq_filter {l : List (S × W)} (hl : (l.map Prod.fst).Nodup) (s : S) :
    l.eraseP (·.1 == s) = l.filter (·.1 != s) := by
  induction l with
  | nil => rfl
  | cons e rest ih =>
    obtain ⟨he, hrest⟩ := List.nodup_cons.1 hl
    by_cases hs : e.1 = s
    · have hkeep : ∀ x ∈ rest, (x.1 != s) = true := by
        intro x hx
        have hne : x.1 ≠ s := fun hxs => he (hs ▸ hxs ▸ List.mem_map_of_mem hx)
        simpa using hne
      rw [List.eraseP_cons_of_pos (by simpa using hs), List.filter_cons_of_neg (by simpa using hs),
        List.filter_eq_self.2 hkeep]
    · rw [List.eraseP_cons_of_neg (by simpa using hs), List.filter_cons_of_pos (by simpa using hs),
        ih hrest]

theorem any_pending {f : Frontier S W} {s : S} :
    f.pending.any (·.1 == s) = true ↔ s ∈ f.states := by
  simp only [List.any_eq_true, beq_iff_eq, states, List.mem_map]

theorem insert_of_mem {f : Frontier S W} {s : S} (hs : s ∈ f.states)
    (hd : f.discipline.reschedules = false) (w : W) : f.insert s w = f := by
  simp [insert, any_pending.2 hs, hd]

theorem pending_insert_of_not_mem {f : Frontier S W} {s : S} (hs : s ∉ f.states) (w : W) :
    (f.insert s w).pending = place f.discipline.rank (s, w) f.pending := by
  simp [insert, mt any_pending.1 hs]

/-- Unless it keeps its place, an entry replaces that of its state, if there is one. -/
theorem pending_insert {f : Frontier S W} {s : S} (hf : f.states.Nodup)
    (hs : s ∈ f.states → f.discipline.reschedules = true) (w : W) : (f.insert s w).pending =
      place f.discipline.rank (s, w) (f.pending.filter (·.1 != s)) := by
  by_cases hmem : s ∈ f.states
  · simp only [insert, any_pending.2 hmem, hs hmem, if_true, eraseP_eq_filter hf s]
  · have hkeep : f.pending.filter (·.1 != s) = f.pending := List.filter_eq_self.2 fun e he =>
      bne_iff_ne.2 fun heq => hmem (heq ▸ List.mem_map_of_mem he)
    rw [hkeep, pending_insert_of_not_mem hmem]

theorem states_insert_fifo {f : Frontier S W} (h : f.discipline = .fifo) {s : S}
    (hs : s ∉ f.states) (w : W) : (f.insert s w).states = f.states ++ [s] := by
  rw [states, pending_insert_of_not_mem hs, h, place_fifo, List.map_append]
  rfl

theorem states_insert_perm (f : Frontier S W) (s : S) (w : W) :
    (f.insert s w).states.Perm (f.states.insert s) := by
  have hplace (l : List (S × W)) :
      ((place f.discipline.rank (s, w) l).map Prod.fst).Perm (s :: l.map Prod.fst) :=
    (place_perm _ _ l).map _
  by_cases hs : s ∈ f.states
  · rw [List.insert_of_mem hs]
    cases hd : f.discipline.reschedules with
    | false => rw [insert_of_mem hs hd]
    | true =>
      simp only [insert, any_pending.2 hs, hd, if_true]
      exact (hplace _).trans (states_eraseP_perm hs)
  · rw [List.insert_of_not_mem hs, states, pending_insert_of_not_mem hs]
    exact hplace _

theorem mem_states_insert {f : Frontier S W} {s q : S} {w : W} :
    q ∈ (f.insert s w).states ↔ q = s ∨ q ∈ f.states := by
  rw [(f.states_insert_perm s w).mem_iff, List.mem_insert_iff]

theorem nodup_states_insert {f : Frontier S W} (h : f.states.Nodup) (s : S) (w : W) :
    (f.insert s w).states.Nodup := by
  rw [(f.states_insert_perm s w).nodup_iff]
  by_cases hs : s ∈ f.states
  · rwa [List.insert_of_mem hs]
  · rw [List.insert_of_not_mem hs]
    exact List.nodup_cons.2 ⟨hs, h⟩

theorem sum_states_insert_le (f : Frontier S W) (s : S) (w : W) (size : S → ℕ) :
    ((f.insert s w).states.map size).sum ≤ (f.states.map size).sum + size s := by
  rw [((f.states_insert_perm s w).map size).sum_eq]
  by_cases hs : s ∈ f.states
  · rw [List.insert_of_mem hs]
    exact Nat.le_add_right _ _
  · rw [List.insert_of_not_mem hs, List.map_cons, List.sum_cons, Nat.add_comm]

end Frontier

end WeightedAutomata
