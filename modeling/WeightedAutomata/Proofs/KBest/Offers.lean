import WeightedAutomata.Proofs.KBest.Pending
import WeightedAutomata.Proofs.KBest.Routes

/-!
Carrying the pending entries of a state along its transitions, one entry at a time. An entry that is
accepted extends one that was listed, so its route is a sparing one; nothing is ever uncovered.
-/
namespace WeightedAutomata

open KBest

variable {L S T U V W : Type} [Ord W] {k : ℕ}

/-- What the lists cover the later lists cover. -/
def Grows (k : ℕ) (d d' : U → List (PathWeight S T W)) : Prop :=
  ∀ q x, Covered k (d q) x → Covered k (d' q) x

theorem Grows.refl (d : U → List (PathWeight S T W)) : Grows k d d := fun _ _ h => h

theorem Grows.trans {d d' d'' : U → List (PathWeight S T W)} (h : Grows k d d')
    (h' : Grows k d' d'') : Grows k d d'' := fun q x hx => h' q x (h q x hx)

section Offer

variable [BEq S] [LawfulBEq S] [BEq T] [LawfulBEq T] [BEq W] [LawfulBEq W] [BEq U]

/-- Offers an entry to the list of a state. -/
def offer (k : ℕ) (q : U) (f : U → List (PathWeight S T W)) (x : PathWeight S T W) :
    U → List (PathWeight S T W) :=
  fun s => if q == s then insertBest k (f s) x else f s

theorem foldl_offer (q s : U) (f : U → List (PathWeight S T W)) (xs : List (PathWeight S T W)) :
    xs.foldl (offer k q) f s = if q == s then xs.foldl (insertBest k) (f s) else f s := by
  induction xs generalizing f with
  | nil => simp
  | cons x xs ih =>
    rw [List.foldl_cons, ih]
    unfold offer
    by_cases hs : q == s <;> simp [hs]

variable [LawfulBEq U] [Zero W]
variable {d : U → List (PathWeight S T W)}

theorem offer_of_covered {q : U} {x : PathWeight S T W} (hd : ∀ q, Ranked k (d q))
    (hx : Covered k (d q) x) : offer k q d x = d := by
  funext s
  unfold offer
  split
  · next hs =>
    obtain rfl : q = s := by simpa using hs
    exact (hd q).insertBest_of_covered hx
  · rfl

variable [Std.TransOrd W]

omit [LawfulBEq U] in
theorem grows_offer (hd : ∀ q, Ranked k (d q)) (q : U) (x : PathWeight S T W) :
    Grows k d (offer k q d x) := by
  intro s y hy
  unfold offer
  split
  · exact hy.insertBest (hd s) x
  · exact hy

theorem covered_offer_self (hd : ∀ q, Ranked k (d q)) (q : U) (x : PathWeight S T W) :
    Covered k (offer k q d x q) x := by
  unfold offer
  rw [if_pos (beq_self_eq_true q)]
  exact (hd q).covered_insertBest_self x

end Offer

namespace Automaton

variable [Zero W] [One W] [Mul W] [BEq W] (Q : Automaton Id L U V (KBest k S T W)) (o : U)

/-- Every entry on the way along a path is covered. -/
def Known (d : U → List (PathWeight S T W)) (ts : List V) : Prop :=
  ∀ us vs, ts = us ++ vs → ∀ q z, Q.Route o us q z → Covered k (d q) z

/-- Whatever follows an entry is covered. -/
def Settled (d : U → List (PathWeight S T W)) (q : U) (e : PathWeight S T W) : Prop :=
  ∀ t ∈ Q.leaving q, ∀ x, (Q.cost t).followed e = some x → Covered k (d (Q.target t)) x

/-- The later lists cover the entry of a sparing route that was not covered before. -/
def Gains (d d' : U → List (PathWeight S T W)) : Prop :=
  ∃ ts q x, Q.Route o ts q x ∧ Q.Sparing o ts ∧ ¬ Covered k (d q) x ∧ Covered k (d' q) x

structure Progress (d d' : U → List (PathWeight S T W)) : Prop where
  grows : Grows k d d'
  gains : d' = d ∨ Q.Gains o d d'

/-- The lists `d` of the states and the pending lists `r`: what is listed and not free is settled or
pending, and comes from routes that are covered all the way. -/
structure Keeps (free : U → PathWeight S T W → Prop)
    (d r : U → List (PathWeight S T W)) : Prop where
  tracks : ∀ q, Tracks k (fun e => Q.Settled d q e ∨ free q e) (d q) (r q)
  listed : ∀ q, ∀ e ∈ d q, ∃ ts, Q.Route o ts q e ∧ Q.Sparing o ts ∧ Q.Known o d ts
  pending : ∀ q, ∀ e ∈ r q, ∃ ts, Q.Route o ts q e ∧ Q.Known o d ts
  first : Covered k (d o) ⟨1, none, []⟩

variable {Q o} {d d' d'' r : U → List (PathWeight S T W)} {ts us : List V} {t : V} {p q : U}
variable {e x z : PathWeight S T W}

theorem Known.mono (h : Q.Known o d ts) (hg : Grows k d d') : Q.Known o d' ts :=
  fun us vs hts q z hz => hg q z (h us vs hts q z hz)

omit [One W] in
theorem Settled.mono (h : Q.Settled d q e) (hg : Grows k d d') : Q.Settled d' q e :=
  fun t ht x hx => hg _ x (h t ht x hx)

theorem Gains.mono (h : Q.Gains o d d') {c c' : U → List (PathWeight S T W)} (hc : Grows k c d)
    (hc' : Grows k d' c') : Q.Gains o c c' := by
  obtain ⟨ts, q, x, hroute, hs, hnot, hcov⟩ := h
  exact ⟨ts, q, x, hroute, hs, fun hx => hnot (hc q x hx), hc' q x hcov⟩

theorem Progress.refl (d : U → List (PathWeight S T W)) : Q.Progress o d d := ⟨.refl d, .inl rfl⟩

theorem Progress.trans (h : Q.Progress o d d') (h' : Q.Progress o d' d'') :
    Q.Progress o d d'' where
  grows := h.grows.trans h'.grows
  gains := by
    rcases h.gains with rfl | hgain
    · exact h'.gains
    · exact .inr (hgain.mono (.refl d) h'.grows)

theorem Known.snoc (h : Q.Known o d ts) (hg : Grows k d d')
    (hlast : ∀ q z, Q.Route o (ts ++ [t]) q z → Covered k (d' q) z) : Q.Known o d' (ts ++ [t]) := by
  intro us vs heq q z hz
  rcases List.eq_nil_or_concat vs with rfl | ⟨ws, u, rfl⟩
  · rw [List.append_nil] at heq
    subst heq
    exact hlast q z hz
  · rw [List.concat_eq_append, ← List.append_assoc] at heq
    exact hg q z (h us ws (List.append_inj' heq rfl).1 q z hz)

theorem Routed.eq_of_followed (hQ : Q.Routed o) (ht : t ∈ Q.leaving p) {y : PathWeight S T W}
    (hy : Q.Route o us p y) (hz : Q.Route o ts p z) (hyx : (Q.cost t).followed y = some x)
    (hzx : (Q.cost t).followed z = some x) : y = z := by
  have heq := hQ.distinct _ _ _ _ _ (hy.snoc ht hyx) (hz.snoc ht hzx)
  obtain rfl : us = ts := List.append_cancel_right heq
  have hvalue := hy.value
  rw [hz.value] at hvalue
  exact (Option.some.inj hvalue).symm

section Carrying

variable [BEq S] [LawfulBEq S] [BEq T] [LawfulBEq T] [LawfulBEq W] [Std.TransOrd W]

/-- A route that comes back to a state for the `k`th time finds no place there. -/
theorem Routed.shut_of_visits (hQ : Q.Routed o) (hroute : Q.Route o (us ++ [t]) q x)
    (hknown : Q.Known o d us) (hd : Ranked k (d q))
    (hcount : open scoped Classical in k ≤ (Q.visits o us).count q) : Shut k (d q) x := by
  classical
  let stops := us.inits.filter fun v => Q.endpoint o v == q
  have hstop : ∀ v ∈ stops, ∃ y, Q.Route o v q y ∧ Covered k (d q) y ∧ precedes y x := by
    intro v hv
    obtain ⟨hv, hend⟩ := List.mem_filter.1 hv
    obtain ⟨w, hw⟩ := (List.mem_inits v us).1 hv
    rw [← hw, List.append_assoc] at hroute
    obtain ⟨y, hy⟩ := hroute.of_append
    rw [eq_of_beq hend] at hy
    exact ⟨y, hy, hknown v w hw.symm q y hy, hQ.settles v (w ++ [t]) q y x hy hroute⟩
  have hlen : (stops.filterMap Q.value).length = (Q.visits o us).count q := by
    rw [visits, List.count, List.countP_map, List.countP_eq_length_filter]
    apply List.filterMap_length_eq_length.2
    intro v hv
    obtain ⟨y, hy, -⟩ := hstop v hv
    rw [hy.value, Option.isSome_some]
  have hnodup : (stops.filterMap Q.value).Nodup := by
    refine List.pairwise_filterMap.2 (List.Pairwise.imp_of_mem ?_ ((nodup_inits us).filter _))
    rintro v w hv hw hne y hy _ hy' rfl
    obtain ⟨y', hvy, -⟩ := hstop v hv
    obtain ⟨w', hwy, -⟩ := hstop w hw
    exact hne (hQ.distinct v w q q y ⟨hvy.path, hvy.ends, hy⟩ ⟨hwy.path, hwy.ends, hy'⟩)
  apply hd.shut_of_many hnodup (hlen ▸ hcount)
  intro y hy
  obtain ⟨v, hv, hvy⟩ := List.mem_filterMap.1 hy
  obtain ⟨y', hroute', hcov⟩ := hstop v hv
  rw [hroute'.value] at hvy
  cases hvy
  exact hcov

theorem Routed.sparing_snoc (hQ : Q.Routed o) (hroute : Q.Route o (us ++ [t]) q x)
    (hknown : Q.Known o d us) (hd : Ranked k (d q)) (hs : Q.Sparing o us)
    (hopen : ¬ Covered k (d q) x) : Q.Sparing o (us ++ [t]) := by
  classical
  have hq : Q.target t = q := by
    rw [← hroute.ends, endpoint_append]
    rfl
  intro s
  have hus := hs s
  rw [visits_append_singleton, List.count_append, hq]
  by_cases hqs : q = s
  · subst hqs
    have hlt : (Q.visits o us).count q < k := by
      by_contra hge
      exact hopen (.inr (hQ.shut_of_visits hroute hknown hd (by omega)))
    rw [List.count_singleton_self]
    omega
  · rw [List.count_singleton, if_neg (by simpa using hqs)]
    exact hus

variable [BEq U] [LawfulBEq U] {free : U → PathWeight S T W → Prop}

/-- An entry of a route to `p`, followed by a transition, may be offered. -/
theorem Keeps.offered (h : Q.Keeps o free d r) (hQ : Q.Routed o) (hroute : Q.Route o us p z)
    (hknown : Q.Known o d us) (ht : t ∈ Q.leaving p) (hx : (Q.cost t).followed z = some x)
    (hs : ¬ Covered k (d (Q.target t)) x → Q.Sparing o us) :
    Q.Keeps o free (offer k (Q.target t) d x) (offer k (Q.target t) r x) ∧
      Q.Progress o d (offer k (Q.target t) d x) := by
  have hranked (q : U) : Ranked k (d q) := (h.tracks q).listed
  have hg := grows_offer hranked (Q.target t) x
  have hself := covered_offer_self hranked (Q.target t) x
  have hnew : Q.Route o (us ++ [t]) (Q.target t) x := hroute.snoc ht hx
  have hknown' : Q.Known o (offer k (Q.target t) d x) (us ++ [t]) := by
    apply hknown.snoc hg
    intro q y hy
    have hvalue := hy.value
    rw [hnew.value] at hvalue
    cases hvalue
    rwa [← hy.ends, hnew.ends]
  have hsparing (hopen : ¬ Covered k (d (Q.target t)) x) : Q.Sparing o (us ++ [t]) :=
    hQ.sparing_snoc hnew hknown (hranked _) (hs hopen) hopen
  have hmem (f : U → List (PathWeight S T W)) (s : U) (e : PathWeight S T W)
      (he : e ∈ offer k (Q.target t) f x s) : e ∈ f s ∨ s = Q.target t ∧ e = x := by
    unfold offer at he
    split at he
    · next hq =>
      rcases mem_of_mem_insertBest he with he | he
      · exact .inr ⟨(eq_of_beq hq).symm, he⟩
      · exact .inl he
    · exact .inl he
  refine ⟨⟨fun s => ?_, fun s e he => ?_, fun s e he => ?_, hg _ _ h.first⟩, hg, ?_⟩
  · have hmono : ∀ e, Q.Settled d s e ∨ free s e →
        Q.Settled (offer k (Q.target t) d x) s e ∨ free s e :=
      fun e => Or.imp_left fun hset => hset.mono hg
    have hs : Tracks k (fun e => Q.Settled d s e ∨ free s e)
        (offer k (Q.target t) d x s)
        (offer k (Q.target t) r x s) := by
      unfold offer
      split
      · exact (h.tracks s).insertBest (weight_ne_zero_of_followed hx)
      · exact h.tracks s
    exact hs.mono hmono
  · by_cases hcov : Covered k (d (Q.target t)) x
    · rw [offer_of_covered hranked hcov] at he ⊢
      exact h.listed s e he
    · rcases hmem d s e he with he | ⟨rfl, rfl⟩
      · obtain ⟨ts, hts, hspare, hk⟩ := h.listed s e he
        exact ⟨ts, hts, hspare, hk.mono hg⟩
      · exact ⟨us ++ [t], hnew, hsparing hcov, hknown'⟩
  · rcases hmem r s e he with he | ⟨rfl, rfl⟩
    · obtain ⟨ts, hts, hk⟩ := h.pending s e he
      exact ⟨ts, hts, hk.mono hg⟩
    · exact ⟨us ++ [t], hnew, hknown'⟩
  · by_cases hcov : Covered k (d (Q.target t)) x
    · exact .inl (offer_of_covered hranked hcov)
    · exact .inr ⟨us ++ [t], Q.target t, x, hnew, hsparing hcov, hcov, hself⟩

section Leaving

variable [Std.LawfulEqOrd W] (ho : Ordered W) (hQ : Q.Routed o)
variable {d₀ r₀ : U → List (PathWeight S T W)} (h₀ : Q.Keeps o (fun _ _ => False) d₀ r₀)
include ho hQ h₀

omit [BEq U] [LawfulBEq U] in
/-- An entry that leaves with the pending ones of `p` has a sparing route, unless what follows it is
already covered. -/
theorem Keeps.exists_route {pre post : List (PathWeight S T W)} (hsplit : r₀ p = pre ++ z :: post)
    (hg : Grows k d₀ d) (hd : ∀ q, Ranked k (d q)) (ht : t ∈ Q.leaving p)
    (hx : (Q.cost t).followed z = some x)
    (hpre : ∀ y ∈ pre, ∀ x', (Q.cost t).followed y = some x' → Covered k (d (Q.target t)) x') :
    ∃ us, Q.Route o us p z ∧ Q.Known o d us ∧
      (¬ Covered k (d (Q.target t)) x → Q.Sparing o us) := by
  by_cases hz : z ∈ d₀ p
  · obtain ⟨us, hus, hs, hk⟩ := h₀.listed p z hz
    exact ⟨us, hus, hk.mono hg, fun _ => hs⟩
  · have hzr : z ∈ r₀ p := by simp [hsplit]
    obtain ⟨us, hus, hk⟩ := h₀.pending p z hzr
    have hshut := ((h₀.tracks p).covered z hzr).resolve_left hz
    refine ⟨us, hus, hk.mono hg, fun hopen => absurd (.inr ?_) hopen⟩
    refine (hd _).shut_of_followed ho (h₀.tracks p).listed ?_ hshut hx fun y hy x' hx' => ?_
    · intro y hy z hz x hyx hzx
      obtain ⟨us, hus, -⟩ := h₀.listed p y hy
      obtain ⟨ts, hts, -⟩ := h₀.listed p z hz
      exact hQ.eq_of_followed ht hus hts hyx hzx
    · -- a better entry is settled or has left before `z`
      rcases (h₀.tracks p).kept y hy with (hset | hfree) | ⟨hyr, hbefore⟩
      · exact hg _ _ (hset t ht x' hx')
      · exact hfree.elim
      · rw [hsplit] at hyr
        rcases List.mem_append.1 hyr with hyr | hyr
        · exact hpre y hyr x' hx'
        · rcases List.mem_cons.1 hyr with rfl | hyr
          · exact absurd hy hz
          · have hpair : [z, y].Sublist (r₀ p) := by
              rw [hsplit]
              exact ((List.singleton_sublist.2 hyr).cons_cons z).trans
                (List.sublist_append_right pre _)
            exact absurd ((hbefore z hpair).subset List.mem_cons_self) hz

/-- The pending entries of `p` may be carried along a transition. -/
theorem Keeps.carried (ht : t ∈ Q.leaving p) {pre post : List (PathWeight S T W)}
    (hsplit : r₀ p = pre ++ post) (h : Q.Keeps o free d r) (hg : Grows k d₀ d)
    (hpre : ∀ y ∈ pre, ∀ x, (Q.cost t).followed y = some x → Covered k (d (Q.target t)) x) :
    Q.Keeps o free ((post.filterMap (Q.cost t).followed).foldl (offer k (Q.target t)) d)
        ((post.filterMap (Q.cost t).followed).foldl (offer k (Q.target t)) r) ∧
      Q.Progress o d
        ((post.filterMap (Q.cost t).followed).foldl (offer k (Q.target t)) d) ∧
      ∀ y ∈ r₀ p, ∀ x, (Q.cost t).followed y = some x →
        Covered k ((post.filterMap (Q.cost t).followed).foldl
          (offer k (Q.target t)) d (Q.target t)) x := by
  induction post generalizing pre d r with
  | nil =>
    rw [List.append_nil] at hsplit
    rw [hsplit]
    exact ⟨h, .refl d, hpre⟩
  | cons z post ih =>
    have hsplit' : r₀ p = (pre ++ [z]) ++ post := by simp [hsplit]
    cases hx : (Q.cost t).followed z with
    | none =>
      rw [List.filterMap_cons, hx]
      apply ih hsplit' h hg
      intro y hy x hyx
      rcases List.mem_append.1 hy with hy | hy
      · exact hpre y hy x hyx
      · rw [List.mem_singleton.1 hy, hx] at hyx
        cases hyx
    | some x =>
      have hranked (q : U) : Ranked k (d q) := (h.tracks q).listed
      obtain ⟨us, hus, hk, hs⟩ := h₀.exists_route ho hQ hsplit hg hranked ht hx hpre
      obtain ⟨h', hprog⟩ := h.offered hQ hus hk ht hx hs
      have hrest := ih hsplit' h' (hg.trans hprog.grows) fun y hy x' hyx => by
        rcases List.mem_append.1 hy with hy | hy
        · exact hprog.grows _ _ (hpre y hy x' hyx)
        · rw [List.mem_singleton.1 hy, hx] at hyx
          cases hyx
          exact covered_offer_self hranked _ _
      rw [List.filterMap_cons, hx]
      exact ⟨hrest.1, hprog.trans hrest.2.1, hrest.2.2⟩

end Leaving

omit [BEq U] [LawfulBEq U] in
/-- Once nothing is pending, all routes are covered. -/
theorem Keeps.best [Std.LawfulEqOrd W] (ho : Ordered W) (hQ : Q.Routed o)
    (h : Q.Keeps o (fun _ _ => False) d r) (hz : ∀ q, r q = []) (q : U) :
    Best k (Q.arrivals o q) (d q) := by
  have hsettled (p : U) : ∀ e ∈ d p, Q.Settled d p e := by
    intro e he
    rcases (h.tracks p).kept e he with (hset | hno) | ⟨her, -⟩
    · exact hset
    · exact hno.elim
    · rw [hz] at her
      cases her
  refine ⟨(h.tracks q).listed, fun e he => ?_, fun e he => ?_⟩
  · obtain ⟨ts, hts, -⟩ := h.listed q e he
    exact ⟨ts, hts⟩
  · obtain ⟨ts, hts⟩ := he
    induction ts using List.reverseRecOn generalizing q e with
    | nil =>
      obtain ⟨-, rfl, hvalue⟩ := hts
      cases hvalue
      exact h.first
    | append_singleton us t ih =>
      obtain ⟨p, z, hus, ht, hx, rfl⟩ := hts.of_snoc
      rcases ih p z hus with hmem | hshut
      · exact hsettled p z hmem t ht e hx
      · refine .inr ((h.tracks _).listed.shut_of_followed ho (h.tracks p).listed ?_ hshut hx
          fun y hy x' hx' => hsettled p y hy t ht x' hx')
        intro y hy z hz x hyx hzx
        obtain ⟨us, hus, -⟩ := h.listed p y hy
        obtain ⟨ts, hts, -⟩ := h.listed p z hz
        exact hQ.eq_of_followed ht hus hts hyx hzx

end Carrying

end Automaton

end WeightedAutomata
