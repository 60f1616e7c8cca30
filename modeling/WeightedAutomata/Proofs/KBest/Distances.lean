import WeightedAutomata.Proofs.KBest.Offers
import WeightedAutomata.Proofs.Loop
import WeightedAutomata.Proofs.Relaxation.Steps

/-!
Relaxation over lists of best entries, in whatever order the states leave the frontier. It ends,
since only sparing routes bring anything new, and then the lists hold the best entries of all routes.
-/
namespace WeightedAutomata

open KBest

variable {m : Type → Type} {L S T U V W : Type} {k : ℕ}
variable [BEq S] [LawfulBEq S] [BEq T] [LawfulBEq T] [BEq U] [LawfulBEq U] [Hashable U]
variable [Zero W] [BEq W] [LawfulBEq W] [Ord W]

namespace Relaxation

def listed (r : Relaxation U (KBest k S T W)) (q : U) : List (PathWeight S T W) :=
  (r.distance q).entries

def pending (r : Relaxation U (KBest k S T W)) (q : U) : List (PathWeight S T W) :=
  (r.residual q).entries

variable {r : Relaxation U (KBest k S T W)}

/-- Either nothing changes, all entries being covered, or they are offered one by one. -/
theorem receive_cases [Std.TransOrd W] (hd : ∀ q, Ranked k (r.listed q))
    (hr : ∀ q, Ranked k (r.pending q)) (target : U) {delta : KBest k S T W}
    (hdelta : Ranked k delta.entries) :
    r.receive target delta = r ∧ (∀ x ∈ delta.entries, Covered k (r.listed target) x) ∨
      (r.receive target delta).listed = delta.entries.foldl (offer k target) r.listed ∧
      (r.receive target delta).pending = delta.entries.foldl (offer k target) r.pending ∧
      (r.receive target delta).listed ≠ r.listed := by
  unfold receive
  split
  · next hz =>
    rw [eq_of_beq hz]
    exact .inl ⟨rfl, fun x hx => absurd hx List.not_mem_nil⟩
  · have hadd : (r.distance target + delta).entries =
        delta.entries.foldl (insertBest k) (r.listed target) := (hd target).entries_add hdelta
    by_cases heq : r.distance target + delta = r.distance target
    · refine .inl ⟨improve_of_eq heq, fun x hx => ?_⟩
      rw [heq] at hadd
      rw [listed, hadd]
      exact ((Best.ofRanked (hd target)).foldl_insertBest hdelta.live).covers x (.inr hx)
    · refine .inr ⟨?_, ?_, fun hsame => heq ?_⟩
      · funext q
        rw [foldl_offer, listed, distance_improve heq]
        by_cases hq : target == q
        · rw [if_pos hq, if_pos hq, hadd, eq_of_beq hq]
        · rw [if_neg hq, if_neg hq, listed]
      · funext q
        rw [foldl_offer, pending, residual_improve heq]
        by_cases hq : target == q
        · rw [if_pos hq, if_pos hq, ← eq_of_beq hq]
          exact (hr target).entries_add hdelta
        · rw [if_neg hq, if_neg hq, pending]
      · have htarget := congrFun hsame target
        rw [listed, distance_improve heq, if_pos (beq_self_eq_true target)] at htarget
        exact congrArg KBest.mk htarget

end Relaxation

open Relaxation

namespace Automaton

variable [One W] [Mul W] {Q : Automaton Id L U V (KBest k S T W)} {o : U}

/-- The later relaxation covers what the earlier one did, and if it is another one, more of the
sparing routes. -/
structure Advances (Q : Automaton Id L U V (KBest k S T W)) (o : U)
    (r r' : Relaxation U (KBest k S T W)) : Prop where
  grows : Grows k r.listed r'.listed
  gains : r' = r ∨ Q.Gains o r.listed r'.listed

omit [BEq S] [LawfulBEq S] [BEq T] [LawfulBEq T] [LawfulBEq U] [LawfulBEq W] in
theorem Advances.trans {r r' r'' : Relaxation U (KBest k S T W)} (h : Q.Advances o r r')
    (h' : Q.Advances o r' r'') : Q.Advances o r r'' where
  grows := h.grows.trans h'.grows
  gains := by
    rcases h.gains with rfl | hgain
    · exact h'.gains
    · exact .inr (hgain.mono (.refl _) h'.grows)

variable [Std.TransOrd W] [Std.LawfulEqOrd W] (ho : Ordered W) (hQ : Q.Routed o)

section Carry

variable {free : U → PathWeight S T W → Prop} {r : Relaxation U (KBest k S T W)}
variable {d₀ r₀ : U → List (PathWeight S T W)} (h₀ : Q.Keeps o (fun _ _ => False) d₀ r₀)
variable {p : U} {ρ : KBest k S T W} (hρ : ρ.entries = r₀ p)
include ho hQ h₀ hρ

theorem Keeps.receive (h : Q.Keeps o free r.listed r.pending) (hg : Grows k d₀ r.listed) {t : V}
    (ht : t ∈ Q.leaving p) :
    Q.Keeps o free (r.receive (Q.target t) (ρ * Q.cost t)).listed
        (r.receive (Q.target t) (ρ * Q.cost t)).pending ∧
      Q.Advances o r (r.receive (Q.target t) (ρ * Q.cost t)) ∧
      ∀ y ∈ ρ.entries, ∀ x, (Q.cost t).followed y = some x →
        Covered k ((r.receive (Q.target t) (ρ * Q.cost t)).listed (Q.target t)) x := by
  have hranked : Ranked k ρ.entries := hρ ▸ (h₀.tracks p).pending
  have hdistinct : ∀ y ∈ ρ.entries, ∀ z ∈ ρ.entries, ∀ x,
      (Q.cost t).followed y = some x → (Q.cost t).followed z = some x → y = z := by
    intro y hy z hz x hyx hzx
    obtain ⟨us, hus, -⟩ := h₀.pending p y (hρ ▸ hy)
    obtain ⟨ts, hts, -⟩ := h₀.pending p z (hρ ▸ hz)
    exact hQ.eq_of_followed ht hus hts hyx hzx
  have hdelta : (ρ * Q.cost t).entries = ρ.entries.filterMap (Q.cost t).followed :=
    hranked.entries_mul ho (hQ.few t) hdistinct
  have hdeltaRanked : Ranked k (ρ * Q.cost t).entries := by
    rw [hdelta]
    exact hranked.filterMap_followed ho hdistinct
  obtain ⟨hkeeps, hprog, hcov⟩ := h₀.carried ho hQ ht (show r₀ p = [] ++ r₀ p from rfl)
    h hg nofun
  rw [← hρ, ← hdelta] at hkeeps hprog hcov
  rcases receive_cases (fun q => (h.tracks q).listed) (fun q => (h.tracks q).pending) (Q.target t)
    hdeltaRanked with ⟨hsame, hall⟩ | ⟨hlisted, hpending, hne⟩
  · rw [hsame]
    refine ⟨h, ⟨.refl _, .inl rfl⟩, fun y hy x hx => hall x ?_⟩
    rw [hdelta]
    exact List.mem_filterMap.2 ⟨y, hy, hx⟩
  · rw [← hlisted] at hkeeps hprog hcov
    rw [← hpending] at hkeeps
    exact ⟨hkeeps, ⟨hprog.grows, .inr (hprog.gains.resolve_left hne)⟩, hcov⟩

theorem Keeps.carry (h : Q.Keeps o free r.listed r.pending) (hg : Grows k d₀ r.listed) {ts : List V}
    (hts : ∀ t ∈ ts, t ∈ Q.leaving p) :
    Q.Keeps o free (Q.carry .exact ρ r ts).listed (Q.carry .exact ρ r ts).pending ∧
      Q.Advances o r (Q.carry .exact ρ r ts) ∧
      ∀ y ∈ ρ.entries, ∀ t ∈ ts, ∀ x, (Q.cost t).followed y = some x →
        Covered k ((Q.carry .exact ρ r ts).listed (Q.target t)) x := by
  induction ts generalizing r with
  | nil => exact ⟨h, ⟨.refl _, .inl rfl⟩, nofun⟩
  | cons t ts ih =>
    obtain ⟨hkeeps, hadv, hcov⟩ := h₀.receive ho hQ hρ h hg (hts t List.mem_cons_self)
    obtain ⟨hkeeps', hadv', hcov'⟩ := ih hkeeps (hg.trans hadv.grows) fun u hu =>
      hts u (List.mem_cons_of_mem t hu)
    rw [carry_cons]
    refine ⟨hkeeps', hadv.trans hadv', fun y hy u hu x hx => ?_⟩
    rcases List.mem_cons.1 hu with rfl | hu
    · exact hadv'.grows _ _ (hcov y hy x hx)
    · exact hcov' y hy u hu x hx

end Carry

section Search

variable {F : Finset U}

/-- The number of sparing routes, of those within `F`, that the lists do not cover. -/
noncomputable def unseen (Q : Automaton Id L U V (KBest k S T W)) (o : U) (F : Finset U)
    (d : U → List (PathWeight S T W)) : ℕ :=
  open scoped Classical in
  ((Q.paths (F.card * k + 1) o).toFinset.filter fun ts => Q.Sparing o ts ∧
    ∃ q x, Q.Route o ts q x ∧ ¬ Covered k (d q) x).card

omit [BEq S] [LawfulBEq S] [BEq T] [LawfulBEq T] [BEq U] [LawfulBEq U] [Hashable U] [LawfulBEq W]
  [Std.TransOrd W] [Std.LawfulEqOrd W] in
theorem unseen_lt {d d' : U → List (PathWeight S T W)} (hc : Q.Closed (· ∈ F)) (hoF : o ∈ F)
    (hg : Grows k d d') (hgain : Q.Gains o d d') : Q.unseen o F d' < Q.unseen o F d := by
  classical
  obtain ⟨ts, q, x, hroute, hs, hnot, hcov⟩ := hgain
  refine Finset.card_lt_card (Finset.ssubset_iff_of_subset ?_ |>.2 ⟨ts, ?_, ?_⟩)
  · intro us hus
    obtain ⟨hus, hspare, s, y, hy, hopen⟩ := Finset.mem_filter.1 hus
    exact Finset.mem_filter.2 ⟨hus, hspare, s, y, hy, fun h => hopen (hg s y h)⟩
  · refine Finset.mem_filter.2 ⟨List.mem_toFinset.2 ?_, hs, q, x, hroute, hnot⟩
    exact mem_paths.2 ⟨hroute.path, length_lt_of_sparing hc hoF hroute.path hs⟩
  · intro hmem
    obtain ⟨-, -, s, y, hy, hopen⟩ := Finset.mem_filter.1 hmem
    have hvalue := hy.value
    rw [hroute.value] at hvalue
    cases hvalue
    rw [← hy.ends, hroute.ends] at hopen
    exact hopen hcov

/-- A relaxation that keeps its books, with pending states among those of `F`. -/
structure Searches (Q : Automaton Id L U V (KBest k S T W)) (o : U) (F : Finset U)
    (r : Relaxation U (KBest k S T W)) : Prop where
  keeps : Q.Keeps o (fun _ _ => False) r.listed r.pending
  pends : r.Pends (· ∈ F)

/-- What a relaxation may still do: cover routes, and take states off the frontier. -/
noncomputable def workLeft (Q : Automaton Id L U V (KBest k S T W)) (o : U) (F : Finset U)
    (r : Relaxation U (KBest k S T W)) : ℕ :=
  Q.unseen o F r.listed * (F.card + 1) + r.frontier.states.length

/-- A number of steps within which a search ends. -/
def searchSteps (Q : Automaton Id L U V (KBest k S T W)) (o : U) (F : Finset U) : ℕ :=
  (Q.paths (F.card * k + 1) o).length * (F.card + 1) + 1

omit [BEq S] [LawfulBEq S] [BEq T] [LawfulBEq T] [LawfulBEq U] [LawfulBEq W] [Std.TransOrd W]
  [Std.LawfulEqOrd W] in
theorem workLeft_start_le (discipline : Discipline U (KBest k S T W)) (w : KBest k S T W) :
    Q.workLeft o F (Relaxation.start discipline o w) ≤ Q.searchSteps o F := by
  classical
  have hle : Q.unseen o F (Relaxation.start discipline o w).listed ≤
      (Q.paths (F.card * k + 1) o).length :=
    le_trans (Finset.card_filter_le _ _) (List.toFinset_card_le _)
  exact Nat.add_le_add_right (Nat.mul_le_mul_right _ hle) 1

include ho hQ in
theorem Searches.advance (hc : Q.Closed (· ∈ F)) (hoF : o ∈ F)
    {r r' : Relaxation U (KBest k S T W)} (h : Q.Searches o F r)
    (hnext : Q.advance .exact r = some r') :
    Q.Searches o F r' ∧ Q.workLeft o F r' < Q.workLeft o F r := by
  classical
  obtain ⟨p, f, hpop, hr⟩ := advance_eq_some hnext
  have hstates : r.frontier.states = p :: f.states := Frontier.states_of_pop? hpop
  have hp : p ∈ F := h.pends.inside p (by simp [hstates])
  have htake := h.pends.take hpop
  have hpending (q : U) : (r.take p f).pending q = if p == q then [] else r.pending q := by
    rw [Relaxation.pending, residual_take]
    split
    · rfl
    · rfl
  have hshorter : Q.workLeft o F (r.take p f) < Q.workLeft o F r := by
    have hlen : (r.take p f).frontier.states.length < r.frontier.states.length := by
      rw [hstates]
      exact Nat.lt_succ_self _
    exact Nat.add_lt_add_left hlen _
  rcases hr with ⟨hz, rfl⟩ | rfl
  · refine ⟨⟨?_, htake⟩, hshorter⟩
    have hsame : (r.take p f).pending = r.pending := by
      funext q
      rw [hpending]
      split
      · next hq =>
        rw [Relaxation.pending, ← eq_of_beq hq, hz]
        rfl
      · rfl
    rw [hsame]
    exact h.keeps
  · let free (q : U) (e : PathWeight S T W) : Prop := q = p ∧ e ∈ r.pending p
    have hfree : Q.Keeps o free (r.take p f).listed (r.take p f).pending := by
      refine ⟨fun q => ?_, h.keeps.listed, fun q e he => ?_, h.keeps.first⟩
      · have hq := h.keeps.tracks q
        rw [hpending]
        split
        · next hpq =>
          obtain rfl : p = q := by simpa using hpq
          refine ⟨hq.listed, ranked_nil, nofun, fun e he => ?_⟩
          rcases hq.kept e he with (hset | hno) | ⟨her, -⟩
          · exact .inl (.inl hset)
          · exact hno.elim
          · exact .inl (.inr ⟨rfl, her⟩)
        · exact hq.mono fun e => Or.imp_right False.elim
      · rw [hpending] at he
        split at he
        · cases he
        · exact h.keeps.pending q e he
    obtain ⟨hkeeps, hadv, hcov⟩ := h.keeps.carry ho hQ
      (show (r.residual p).entries = r.pending p from rfl) hfree (.refl _) fun t ht => ht
    have hpends : (Q.carry .exact (r.residual p) (r.take p f) (Q.leaving p)).Pends (· ∈ F) :=
      pends_carry htake (hc p hp)
    refine ⟨⟨⟨fun q => (hkeeps.tracks q).mono ?_, hkeeps.listed, hkeeps.pending, hkeeps.first⟩,
      hpends⟩, ?_⟩
    · rintro e (hset | ⟨rfl, he⟩)
      · exact .inl hset
      · exact .inl fun t ht x hx => hcov e he t ht x hx
    · rcases hadv.gains with hsame | hgain
      · rwa [hsame]
      · have hlt := unseen_lt hc hoF hadv.grows hgain
        exact hpends.work_lt hlt _

omit [BEq S] [LawfulBEq S] [BEq T] [LawfulBEq T] [LawfulBEq W] [Std.TransOrd W]
  [Std.LawfulEqOrd W] in
theorem Searches.start (discipline : Discipline U (KBest k S T W)) (hk : 1 ≤ k) (h1 : (1 : W) ≠ 0)
    (hoF : o ∈ F) : Q.Searches o F (Relaxation.start discipline o 1) := by
  classical
  have hlisted (q : U) : (Relaxation.start discipline o (1 : KBest k S T W)).listed q =
      if o == q then [⟨1, none, []⟩] else [] := by
    rw [listed, distance_start]
    split
    · rfl
    · rfl
  have hpending (q : U) : (Relaxation.start discipline o (1 : KBest k S T W)).pending q =
      if o == q then [⟨1, none, []⟩] else [] := by
    rw [Relaxation.pending, residual_start]
    split
    · rfl
    · rfl
  have hfirst : Covered k ((Relaxation.start discipline o (1 : KBest k S T W)).listed o)
      ⟨1, none, []⟩ := by
    rw [hlisted, if_pos (beq_self_eq_true o)]
    exact .inl List.mem_cons_self
  have hroute (q : U) (e : PathWeight S T W)
      (he : e ∈ (Relaxation.start discipline o (1 : KBest k S T W)).listed q) :
      Q.Route o [] q e := by
    rw [hlisted] at he
    split at he
    · next hq =>
      obtain rfl := List.mem_singleton.1 he
      exact ⟨trivial, eq_of_beq hq, rfl⟩
    · cases he
  have hknown : Q.Known o (Relaxation.start discipline o (1 : KBest k S T W)).listed [] := by
    intro us vs heq q z hz
    obtain ⟨rfl, -⟩ := List.append_eq_nil_iff.1 heq.symm
    obtain ⟨-, rfl, hvalue⟩ := hz
    cases hvalue
    exact hfirst
  have hranked (l : List (PathWeight S T W)) (hl : l = [⟨1, none, []⟩] ∨ l = []) : Ranked k l := by
    rcases hl with rfl | rfl
    · exact ranked_singleton hk h1
    · exact ranked_nil
  refine ⟨⟨fun q => ?_, fun q e he => ?_, fun q e he => ?_, hfirst⟩, .start discipline 1 hoF⟩
  · rw [hlisted, hpending]
    refine ⟨hranked _ ?_, hranked _ ?_, fun z hz => .inl hz, fun e he => .inr ⟨he, fun _ hz => hz⟩⟩
    · by_cases hq : o == q <;> simp [hq]
    · by_cases hq : o == q <;> simp [hq]
  · refine ⟨[], hroute q e he, fun s => ?_, hknown⟩
    exact Nat.le_trans List.countP_le_length hk
  · rw [hpending, ← hlisted] at he
    exact ⟨[], hroute q e he, hknown⟩

variable [Monad m] [LawfulMonad m] [StepLimited m] {A : Automaton m L U V (KBest k S T W)}

include ho hQ in
/-- From one state of weight one, the distances are the best entries of the routes. -/
theorem Answers.distances_best (h : A.Answers Q (· ∈ F)) (hk : 1 ≤ k) (h1 : (1 : W) ≠ 0)
    (hentry : Q.entry o = 1) (hoF : o ∈ F) (queue : Queue (KBest k S T W)) :
    ∃ d : Distances U (KBest k S T W), (∀ q, Best k (Q.arrivals o q) (d.getD q 0).entries) ∧
      ∀ budget, Q.searchSteps o F < budget → A.distances budget ⟨queue, .exact⟩ o = pure d := by
  obtain ⟨r, hr, hdone, hrun⟩ := untilDone_eq_pure (A.relaxNext .exact) (Q.advance .exact)
    (Q.Searches o F) (Q.workLeft o F) (fun r hr => h.relaxNext .exact hr.pends.inside)
    (fun r r' hr hnext => hr.advance ho hQ h.closed hoF hnext)
    (Searches.start (queue.discipline A.order) hk h1 hoF)
  have hzero (q : U) : r.pending q = [] := by
    rw [Relaxation.pending, hr.pends.residual_eq_zero (advance_eq_none hdone)]
    rfl
  have hentryNe : Q.entry o ≠ 0 := by
    intro heq
    have hentries := congrArg KBest.entries (hentry.symm.trans heq)
    cases hentries
  refine ⟨r.distances, hr.keeps.best ho hQ hzero, fun budget hbudget => ?_⟩
  have hrun' := hrun budget (lt_of_le_of_lt (workLeft_start_le _ 1) hbudget)
  exact h.distances_eq_pure hoF hentryNe (hentry ▸ hrun')

end Search

end Automaton

end WeightedAutomata
