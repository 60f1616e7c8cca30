import Mathlib.Data.List.Sort
import WeightedAutomata.Proofs.Frontier

/-!
Heaps that give back a greatest entry. Entries that are numbered as they come in are told apart by
their numbers, and of equally good ones that came in first is the greatest.
-/
namespace WeightedAutomata

variable {E H : Type}

/-- A heap over entries `E`, which gives back a greatest one. -/
structure MaxHeap (E H : Type) (cmp : E → E → Ordering) where
  empty : H
  push : H → E → H
  pop? : H → Option (E × H)
  isEmpty : H → Bool
  entries : H → List E
  entries_empty : entries empty = []
  entries_push : ∀ h e, (entries (push h e)).Perm (e :: entries h)
  entries_pop? : ∀ {h e h'}, pop? h = some (e, h') → (entries h).Perm (e :: entries h')
  greatest : ∀ {h e h'}, pop? h = some (e, h') → ∀ x ∈ entries h', (cmp x e).isLE
  eq_nil_of_pop? : ∀ {h}, pop? h = none → entries h = []
  isEmpty_iff : ∀ h, isEmpty h = true ↔ entries h = []

namespace MaxHeap

/-- A heap that keeps its entries in descending order. -/
def descending (cmp : E → E → Ordering) [Std.TransCmp cmp] :
    MaxHeap E { l : List E // l.Pairwise fun a b => (cmp b a).isLE } cmp where
  empty := ⟨[], .nil⟩
  push h e := ⟨h.1.orderedInsert (fun a b => (cmp b a).isLE) e, by
    have : Std.Total fun a b : E => (cmp b a).isLE = true := ⟨fun a b => by
      rw [(Std.OrientedCmp.eq_swap : cmp b a = (cmp a b).swap)]
      cases cmp a b <;> simp⟩
    have : IsTrans E fun a b => (cmp b a).isLE = true :=
      ⟨fun _ _ _ hab hbc => Std.TransCmp.isLE_trans hbc hab⟩
    exact h.2.orderedInsert e _⟩
  pop?
    | ⟨[], _⟩ => none
    | ⟨e :: rest, h⟩ => some (e, ⟨rest, h.of_cons⟩)
  isEmpty h := h.1.isEmpty
  entries := Subtype.val
  entries_empty := rfl
  entries_push h e := List.perm_orderedInsert _ e h.1
  entries_pop? {h e h'} hpop := by
    obtain ⟨_ | ⟨x, rest⟩, hl⟩ := h
    · cases hpop
    · cases hpop
      exact .refl _
  greatest {h e h'} hpop := by
    obtain ⟨_ | ⟨x, rest⟩, hl⟩ := h
    · cases hpop
    · cases hpop
      exact fun y hy => List.rel_of_pairwise_cons hl hy
  eq_nil_of_pop? {h} hpop := by
    obtain ⟨_ | ⟨x, rest⟩, hl⟩ := h
    · rfl
    · cases hpop
  isEmpty_iff h := List.isEmpty_iff

end MaxHeap

/-- The better one is the greater, of equally good ones the earlier. -/
theorem transCmp_descending {α : Type} (rank : α → α → Ordering) [Std.TransCmp rank] (key : E → α)
    (seq : E → ℕ) :
    Std.TransCmp fun a b => (rank (key b) (key a)).then (compare (seq b) (seq a)) :=
  have := transCmp_comap rank key
  have : Std.TransCmp (compareLex (fun a b => rank (key a) (key b)) (compareOn seq)) :=
    inferInstance
  this.opposite

/-- Entries with different numbers, all below the next one. -/
structure Numbered (seq : E → ℕ) (next : ℕ) (l : List E) : Prop where
  nodup : (l.map seq).Nodup
  lt : ∀ e ∈ l, seq e < next

namespace Numbered

variable {seq : E → ℕ} {next : ℕ} {l l' : List E} {e : E}

theorem nil : Numbered seq next [] := ⟨.nil, List.forall_mem_nil _⟩

theorem push (h : Numbered seq next l) (he : seq e = next) (hl : l'.Perm (e :: l)) :
    Numbered seq (next + 1) l' := by
  refine ⟨(hl.map seq).nodup_iff.2 (List.nodup_cons.2 ⟨fun hmem => ?_, h.nodup⟩), fun x hx => ?_⟩
  · obtain ⟨x, hx, hseq⟩ := List.mem_map.1 hmem
    exact absurd (h.lt x hx) (by omega)
  · rcases List.mem_cons.1 (hl.mem_iff.1 hx) with rfl | hx
    · omega
    · exact Nat.lt_succ_of_lt (h.lt x hx)

theorem pop (h : Numbered seq next l) (hl : l.Perm (e :: l')) :
    Numbered seq next l' ∧ ∀ x ∈ l', seq e ≠ seq x := by
  obtain ⟨he, hnodup⟩ := List.nodup_cons.1 ((hl.map seq).nodup_iff.1 h.nodup)
  refine ⟨⟨hnodup, fun x hx => h.lt x (hl.mem_iff.2 (List.mem_cons_of_mem e hx))⟩, fun x hx => ?_⟩
  exact fun heq => he (heq ▸ List.mem_map_of_mem hx)

theorem eq_of_seq_eq (h : Numbered seq next l) {a b : E} (ha : a ∈ l) (hb : b ∈ l)
    (hseq : seq a = seq b) : a = b :=
  List.inj_on_of_nodup_map h.nodup ha hb hseq

end Numbered

theorem then_compare_eq_lt {o : Ordering} {m n : ℕ} (h : (o.then (compare m n)).isLE)
    (hne : m ≠ n) : o.then (compare m n) = .lt := by
  refine (Ordering.isLE_iff_eq_lt_or_eq_eq.1 h).resolve_right fun heq => hne ?_
  exact Nat.compare_eq_eq.1 (Ordering.then_eq_eq.1 heq).2

end WeightedAutomata
