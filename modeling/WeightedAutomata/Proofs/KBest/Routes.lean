import WeightedAutomata.Proofs.KBest.Followed
import WeightedAutomata.Proofs.Paths.Visits

/-!
Paths of automata whose weights are lists of at most one entry, and the entries they end with. Paths
that visit no state too often are finitely many.
-/
namespace WeightedAutomata

open KBest

theorem nodup_inits {α : Type} (l : List α) : l.inits.Nodup := by
  induction l using List.reverseRecOn with
  | nil => simp
  | append_singleton l a ih =>
    rw [List.inits_append]
    refine List.nodup_append.2 ⟨ih, by simp, fun m hm m' hm' => ?_⟩
    obtain rfl : m' = l ++ [a] := by simpa using hm'
    have hlen := ((List.mem_inits m l).1 hm).length_le
    rintro rfl
    rw [List.length_append, List.length_singleton] at hlen
    omega

namespace Automaton

variable {L S T U V W : Type} [Zero W] [One W] [Mul W] [BEq W] {k : ℕ}

/-- The entry of a path that starts with the weight one. None if it becomes zero. -/
def value (Q : Automaton Id L U V (KBest k S T W)) (ts : List V) : Option (PathWeight S T W) :=
  ts.foldlM (fun e t => (Q.cost t).followed e) ⟨1, none, []⟩

/-- A path from `o` to `q` and its entry. -/
structure Route (Q : Automaton Id L U V (KBest k S T W)) (o : U) (ts : List V) (q : U)
    (e : PathWeight S T W) : Prop where
  path : Q.IsPath o ts
  ends : Q.endpoint o ts = q
  value : Q.value ts = some e

/-- The entry of a route tells the route, and no route that comes back to a state is better than
what it started from there. -/
structure Routed [Ord W] (Q : Automaton Id L U V (KBest k S T W)) (o : U) : Prop where
  few : ∀ t, (Q.cost t).entries.length ≤ 1
  distinct : ∀ ts us q s e, Q.Route o ts q e → Q.Route o us s e → ts = us
  settles : ∀ ts us q e x, Q.Route o ts q e → Q.Route o (ts ++ us) q x → precedes e x

section Route

variable {Q : Automaton Id L U V (KBest k S T W)} {o p q : U} {ts us : List V} {t : V}
variable {e x z : PathWeight S T W}

theorem value_append (ts us : List V) : Q.value (ts ++ us) =
    (Q.value ts).bind fun e => us.foldlM (fun e t => (Q.cost t).followed e) e := by
  unfold value
  rw [List.foldlM_append]
  rfl

theorem value_append_singleton (ts : List V) (t : V) :
    Q.value (ts ++ [t]) = (Q.value ts).bind (Q.cost t).followed := by
  rw [value_append]
  congr 1
  funext e
  exact bind_pure _

theorem Route.nil (o : U) : Q.Route o [] o ⟨1, none, []⟩ := ⟨trivial, rfl, rfl⟩

theorem Route.snoc (h : Q.Route o ts p z) (ht : t ∈ Q.leaving p)
    (hx : (Q.cost t).followed z = some x) : Q.Route o (ts ++ [t]) (Q.target t) x where
  path := isPath_append.2 ⟨h.path, by rw [h.ends]; exact ⟨ht, trivial⟩⟩
  ends := by rw [endpoint_append, h.ends]; rfl
  value := by rw [value_append_singleton, h.value]; exact hx

theorem Route.of_append (h : Q.Route o (ts ++ us) q e) :
    ∃ z, Q.Route o ts (Q.endpoint o ts) z := by
  have hvalue := h.value
  rw [value_append] at hvalue
  obtain ⟨z, hz, -⟩ := Option.bind_eq_some_iff.1 hvalue
  exact ⟨z, (isPath_append.1 h.path).1, rfl, hz⟩

theorem Route.of_snoc (h : Q.Route o (ts ++ [t]) q x) : ∃ p z, Q.Route o ts p z ∧
    t ∈ Q.leaving p ∧ (Q.cost t).followed z = some x ∧ Q.target t = q := by
  have hvalue := h.value
  have hpath := isPath_append.1 h.path
  rw [value_append_singleton] at hvalue
  obtain ⟨z, hz, hx⟩ := Option.bind_eq_some_iff.1 hvalue
  refine ⟨_, z, ⟨hpath.1, rfl, hz⟩, hpath.2.1, hx, ?_⟩
  rw [← h.ends, endpoint_append]
  rfl

/-- The entries of the routes to a state. -/
def arrivals (Q : Automaton Id L U V (KBest k S T W)) (o q : U) : Set (PathWeight S T W) :=
  {e | ∃ ts, Q.Route o ts q e}

end Route

section Visits

variable (Q : Automaton Id L U V (KBest k S T W)) (o : U)

/-- A path that visits no state more than `k` times. -/
def Sparing (ts : List V) : Prop :=
  open scoped Classical in ∀ q, (Q.visits o ts).count q ≤ k

variable {Q o}

omit [Zero W] [One W] [Mul W] [BEq W] in
theorem length_lt_of_sparing {F : Finset U} (hc : Q.Closed (· ∈ F)) (ho : o ∈ F)
    {ts : List V} (hp : Q.IsPath o ts) (hl : Q.Sparing o ts) : ts.length < F.card * k + 1 := by
  classical
  have hsub : (Q.visits o ts).toFinset ⊆ F := fun q hq =>
    mem_of_mem_visits hc ho hp (List.mem_toFinset.1 hq)
  have hlen : (Q.visits o ts).length ≤ F.card * k := by
    rw [← List.sum_toFinset_count_eq_length]
    calc ∑ q ∈ (Q.visits o ts).toFinset, List.count q (Q.visits o ts)
        ≤ ∑ _q ∈ (Q.visits o ts).toFinset, k := Finset.sum_le_sum fun q _ => hl q
      _ = (Q.visits o ts).toFinset.card * k := by rw [Finset.sum_const, smul_eq_mul]
      _ ≤ F.card * k := Nat.mul_le_mul_right k (Finset.card_le_card hsub)
  rw [length_visits] at hlen
  omega

end Visits

end Automaton

end WeightedAutomata
