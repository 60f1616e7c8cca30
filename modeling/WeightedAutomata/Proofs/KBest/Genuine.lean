import WeightedAutomata.Proofs.KBest.ShortestPaths
import WeightedAutomata.Proofs.Relaxation.Schedules

/-!
What the search for the best paths returns are paths, in whatever order the states are relaxed and
however the search is stopped. Every entry of a distance or a residual is that of a path to the
state, and no sum or product makes up another one.
-/
namespace WeightedAutomata

open KBest

variable {m : Type → Type} {L S T U V W : Type} {k : ℕ}

namespace KBest

variable [Zero W] [BEq W] [LawfulBEq W] [Ord W] [BEq S] [LawfulBEq S] [BEq T] [LawfulBEq T]
variable {a b c : KBest k S T W} {x : PathWeight S T W}

theorem mem_entries_add (h : x ∈ (a + b).entries) : x ∈ a.entries ∨ x ∈ b.entries :=
  List.mem_append.1 (mem_ofEntries h).1

theorem mem_entries_mul [Mul W] (hc : c.entries.length ≤ 1) (h : x ∈ (a * c).entries) :
    ∃ e ∈ a.entries, c.followed e = some x := by
  obtain ⟨hmem, hlive⟩ := mem_ofEntries h
  obtain ⟨e, he, hx⟩ := List.mem_flatMap.1 hmem
  obtain ⟨p, hp, rfl⟩ := List.mem_map.1 hx
  have hbest : c.best? = some p := by
    obtain ⟨q, hq⟩ := List.length_eq_one_iff.1 (Nat.le_antisymm hc (List.length_pos_of_mem hp))
    rw [hq, List.mem_singleton] at hp
    rw [best?, hq, hp, List.head?_cons]
  exact ⟨e, he, followed_eq_some.2 ⟨p, hbest, rfl, hlive⟩⟩

end KBest

open Relaxation

namespace Automaton

section Relaxation

variable [Zero W] [One W] [Mul W] [BEq W] [LawfulBEq W] [Ord W]
variable [BEq S] [LawfulBEq S] [BEq T] [LawfulBEq T] [BEq U] [LawfulBEq U] [Hashable U]
variable {Q : Automaton Id L U V (KBest k S T W)} {o : U} {r r' : Relaxation U (KBest k S T W)}

/-- Every entry is that of a route. -/
structure Sound (Q : Automaton Id L U V (KBest k S T W)) (o : U)
    (r : Relaxation U (KBest k S T W)) : Prop where
  distance : ∀ q, ∀ e ∈ (r.distance q).entries, e ∈ Q.arrivals o q
  residual : ∀ q, ∀ e ∈ (r.residual q).entries, e ∈ Q.arrivals o q

omit [LawfulBEq W] [BEq S] [LawfulBEq S] [BEq T] [LawfulBEq T] [Ord W] in
theorem Sound.start (discipline : Discipline U (KBest k S T W)) (o : U) :
    Q.Sound o (.start discipline o 1) := by
  have hone (q : U) : ∀ e ∈ (if o == q then (1 : KBest k S T W) else 0).entries,
      e ∈ Q.arrivals o q := by
    intro e he
    split at he
    · next hq =>
      obtain rfl := List.mem_singleton.1 he
      rw [eq_of_beq hq]
      exact ⟨[], .nil q⟩
    · cases he
  constructor
  · intro q
    rw [distance_start]
    exact hone q
  · intro q
    rw [residual_start]
    exact hone q

omit [LawfulBEq W] [BEq S] [LawfulBEq S] [BEq T] [LawfulBEq T] [Ord W] in
theorem Sound.take (h : Q.Sound o r) (p : U) (f : Frontier U (KBest k S T W)) :
    Q.Sound o (r.take p f) where
  distance := h.distance
  residual q e he := by
    rw [residual_take] at he
    split at he
    · cases he
    · exact h.residual q e he

theorem Sound.improve (h : Q.Sound o r) (converged : Convergence (KBest k S T W)) {target : U}
    {delta : KBest k S T W} (hdelta : ∀ e ∈ delta.entries, e ∈ Q.arrivals o target) :
    Q.Sound o (r.improve converged target delta) := by
  have hadd {a : KBest k S T W} (ha : ∀ e ∈ a.entries, e ∈ Q.arrivals o target) :
      ∀ e ∈ (a + delta).entries, e ∈ Q.arrivals o target := fun e he =>
    (mem_entries_add he).elim (ha e) (hdelta e)
  unfold Relaxation.improve
  dsimp only
  split
  · exact h
  · constructor
    · intro q e he
      rw [Relaxation.distance, Std.HashMap.getD_insert] at he
      split at he
      · next hq => exact eq_of_beq hq ▸ hadd (h.distance target) e he
      · exact h.distance q e he
    · intro q e he
      rw [Relaxation.residual, Std.HashMap.getD_insert] at he
      split at he
      · next hq => exact eq_of_beq hq ▸ hadd (h.residual target) e he
      · exact h.residual q e he

variable (hfew : ∀ t, (Q.cost t).entries.length ≤ 1)
include hfew

theorem Sound.carry (converged : Convergence (KBest k S T W)) {p : U} {ρ : KBest k S T W}
    (hρ : ∀ e ∈ ρ.entries, e ∈ Q.arrivals o p) {ts : List V} (hts : ∀ t ∈ ts, t ∈ Q.leaving p)
    (h : Q.Sound o r) : Q.Sound o (Q.carry converged ρ r ts) := by
  induction ts generalizing r with
  | nil => exact h
  | cons t ts ih =>
    have hdelta : ∀ e ∈ (ρ * Q.cost t).entries, e ∈ Q.arrivals o (Q.target t) := by
      intro x hx
      obtain ⟨e, he, hx⟩ := mem_entries_mul (hfew t) hx
      obtain ⟨us, hus⟩ := hρ e he
      exact ⟨us ++ [t], hus.snoc (hts t List.mem_cons_self) hx⟩
    apply ih fun u hu => hts u (List.mem_cons_of_mem t hu)
    dsimp only
    split
    · exact h
    · exact h.improve converged hdelta

theorem Sound.of_relaxes {converged : Convergence (KBest k S T W)} (h : Q.Sound o r)
    (hrun : Relation.ReflTransGen (Q.Relaxes converged) r r') : Q.Sound o r' := by
  induction hrun with
  | refl => exact h
  | @tail r _ _ hstep ih =>
    obtain ⟨p, f, rfl⟩ := hstep
    rcases relaxed_cases Q converged r p f with ⟨-, hr⟩ | ⟨-, hr⟩
    · exact hr ▸ ih.take p f
    · exact hr ▸ (ih.take p f).carry hfew converged (ih.residual p) fun t ht => ht

end Relaxation

section Search

variable [Semiring W] [BEq W] [LawfulBEq W] [Ord W] {A : Automaton Id L S T W}
variable [BEq S] [LawfulBEq S] [Hashable S] [BEq T] [LawfulBEq T] {budget : ℕ}
variable {solver : Solver (KBest k S T W)} {d : Distances S (KBest k S T W)}

/-- Every entry is that of a path from an initial state. -/
def Reaching (A : Automaton Id L S T W) (d : Distances S (KBest k S T W)) : Prop :=
  ∀ q, ∀ e ∈ (d.getD q 0).entries, e ∈ A.ends q

theorem Reaching.insert_start (h : A.Reaching d) {s : S} (hs : s ∈ A.starts) :
    A.Reaching (d.insert s (d.getD s 0 + (A.kBest k).entry s)) := by
  intro q e he
  rw [Std.HashMap.getD_insert] at he
  split at he
  · next hq =>
    obtain rfl := eq_of_beq hq
    rcases mem_entries_add he with he | he
    · exact h s e he
    · rw [entry_kBest] at he
      unfold single at he
      split at he
      · cases he
      · next hlive =>
        obtain rfl := List.mem_singleton.1 he
        exact ⟨s, [], hs, trivial, rfl, rfl, by simpa using hlive⟩
  · exact h q e he

theorem Reaching.addStarts (h : A.Reaching d) : A.Reaching ((A.kBest k).addStarts d) :=
  List.foldlRecOn A.starts _ h fun _ h' _ hs => h'.insert_start hs

/-- Different complete paths that are not worth zero, best first. -/
structure ListsPaths (A : Automaton Id L S T W) (total : KBest k S T W) : Prop where
  ranked : Ranked k total.entries
  live : ∀ e ∈ total.entries, e ∈ A.completeEntry '' A.livePaths

theorem ListsPaths.addFinal [Std.TransOrd W] {total : KBest k S T W} (h : A.ListsPaths total)
    (hd : A.Reaching d) (s : S) : A.ListsPaths ((A.kBest k).addFinal d total s) := by
  have hs := hd s
  rw [Std.HashMap.getD_eq_getD_getElem?] at hs
  unfold Automaton.addFinal
  cases hds : d[s]? with
  | none => exact h
  | some w =>
    rw [hds, Option.getD_some] at hs
    dsimp only
    split
    · exact h
    · refine ⟨ranked_ofEntries (total.entries ++ _), fun e he => ?_⟩
      rcases mem_entries_add he with he | he
      · exact h.live e he
      · obtain ⟨y, hy, hx⟩ := mem_entries_mul (c := (A.kBest k).exit s) (length_single_le _) he
        have hmem : e ∈ A.completed s := by
          rw [← followed_ends (k := k)]
          exact ⟨y, hs y hy, hx⟩
        obtain ⟨c, hc, -, rfl⟩ := hmem
        exact ⟨c, hc, rfl⟩

variable (A) in
/-- The total of the complete paths, from the distances of the state that has been added. -/
def totalFrom (states : List S) (d : Distances (Option S) (KBest k S T W)) : KBest k S T W :=
  states.foldl ((A.kBest k).addFinal ((A.kBest k).addStarts (ownDistances d))) 0

/-- A total lists complete paths, whichever states were relaxed before it was taken. -/
theorem listsPaths_totalFrom [Std.TransOrd W] (hA : A.Lawful) (hk : 1 ≤ k) (states : List S)
    {converged : Convergence (KBest k S T W)} {discipline : Discipline (Option S) (KBest k S T W)}
    {r : Relaxation (Option S) (KBest k S T W)}
    (hrun : Relation.ReflTransGen ((A.kBest k).singleInitial.Relaxes converged)
      (.start discipline none 1) r) : A.ListsPaths (A.totalFrom states r.distances) := by
  have hfew (t : Rooted T) : ((A.kBest k).singleInitial.cost t).entries.length ≤ 1 := by
    cases t with
    | fused t =>
      rw [cost_fused_kBest hk]
      exact length_single_le _
    | plain t => exact length_single_le _
  have hsound := (Sound.start discipline none).of_relaxes hfew hrun
  have hown : A.Reaching (ownDistances r.distances) := by
    intro q e he
    rw [getD_ownDistances] at he
    rw [ends_eq_union hA hk]
    exact .inl (hsound.distance (some q) e he)
  have hempty : A.ListsPaths (0 : KBest k S T W) := ⟨ranked_nil, nofun⟩
  exact List.foldlRecOn states _ hempty fun _ h s _ => h.addFinal hown.addStarts s

/-- A complete distance, where there is one, is the total of some run. -/
theorem exists_totalFrom_of_completeDistance (hA : A.Lawful) {best : KBest k S T W}
    (hrun : ((A.lift : Automaton Option L S T W).kBest k).completeDistance budget solver =
      some best) : ∃ discipline r states,
    Relation.ReflTransGen ((A.kBest k).singleInitial.Relaxes solver.converged)
      (.start discipline none 1) r ∧ A.totalFrom states r.distances = best := by
  have hlift := lift_answers_everywhere Option A
  have hrooted := hlift.kBest.singleInitial (hA.kBest k)
  have hone : (A.kBest k).singleInitial.entry none ≠ 0 := fun h => by
    have hentries := congrArg KBest.entries h
    cases hentries
  have hrun' := hrun
  unfold completeDistance at hrun'
  obtain ⟨d, hd, hrest⟩ := Option.bind_eq_some_iff.1 hrun'
  obtain ⟨states, hstates, -⟩ := Option.bind_eq_some_iff.1 hrest
  rw [hlift.kBest.completeDistance_eq_pure hd hstates fun _ _ => trivial] at hrun
  rw [hlift.kBest.distancesFromInitial_eq_bind] at hd
  obtain ⟨d₀, hd₀, hd⟩ := Option.bind_eq_some_iff.1 hd
  obtain ⟨r, hr, -, rfl⟩ := hrooted.exists_run_of_distances (fun _ _ _ => trivial) hone hd₀
  cases hd
  exact ⟨_, r, states, Leads.relaxes hr, Option.some.inj hrun⟩

end Search

section Paths

/-- The transitions of the path lead from an initial to a final state, and it is labelled and
weighted by them. -/
structure Genuine [Semiring W] (A : Automaton Id L S T W) (p : Path L S T W) : Prop where
  initial : p.origin ∈ A.starts
  path : A.IsPath p.origin p.transitions
  first : ∀ t ∈ p.transitions.head?, A.source t = p.origin
  chained : p.transitions.IsChain fun t u => A.target t = A.source u
  final : A.exit (A.endpoint p.origin p.transitions) ≠ 0
  live : p.weight ≠ 0
  label_eq : p.label = A.labels p.transitions
  weight_eq : p.weight = A.entry p.origin * A.pathCost p.transitions *
    A.exit (A.endpoint p.origin p.transitions)

theorem Lawful.chained [Zero W] {A : Automaton Id L S T W} (hA : A.Lawful) {s : S} {ts : List T}
    (hts : A.IsPath s ts) :
    (∀ t ∈ ts.head?, A.source t = s) ∧ ts.IsChain fun t u => A.target t = A.source u := by
  induction ts generalizing s with
  | nil => exact ⟨nofun, .nil⟩
  | cons t ts ih =>
    obtain ⟨hfirst, hchain⟩ := ih hts.2
    refine ⟨fun u hu => ?_, List.isChain_cons.2 ⟨fun u hu => (hfirst u hu).symm, hchain⟩⟩
    obtain rfl : t = u := Option.some.inj hu
    exact hA.source_eq s t hts.1

variable [Semiring W] [BEq W] [LawfulBEq W] [Ord W]

/-- At most `k` different paths that are genuine, best first. -/
structure GenuinePaths (A : Automaton Id L S T W) (k : ℕ) (ps : List (Path L S T W)) : Prop where
  length_le : ps.length ≤ k
  sorted : ps.Pairwise fun p q => (compare p.weight q.weight).isLE
  nodup : (ps.map fun p => (p.origin, p.transitions)).Nodup
  genuine : ∀ p ∈ ps, A.Genuine p

theorem ListsPaths.genuinePaths {A : Automaton Id L S T W} (hA : A.Lawful) {total : KBest k S T W}
    (h : A.ListsPaths total) : A.GenuinePaths k (total.entries.filterMap A.path?) := by
  have hpaths := rankedPaths_filterMap h.live h.ranked
  refine ⟨hpaths.length_le, hpaths.sorted, hpaths.nodup, fun p hp => ?_⟩
  obtain ⟨⟨⟨hinitial, hpath, hfinal⟩, hlive⟩, hweight, hlabel⟩ := hpaths.genuine p hp
  obtain ⟨hfirst, hchain⟩ := hA.chained hpath
  exact ⟨hinitial, hpath, hfirst, hchain, hfinal, hweight ▸ hlive, hlabel, hweight⟩

variable [Std.TransOrd W] [BEq S] [LawfulBEq S] [Hashable S] [BEq T] [LawfulBEq T]

/-- Whatever the queue and the notion of convergence, the paths that the search returns, if it
returns, are different complete paths with their labels and weights, best first. So are those that
it would return from the distances at any moment, had the states been relaxed in any order. -/
theorem shortestPaths_genuine (A : Automaton Id L S T W) (hA : A.Lawful) (count : ℕ) :
    (∀ budget (solver : Solver (KBest count S T W)) ps,
      (A.lift : Automaton Option L S T W).shortestPaths budget count solver = some ps →
        A.GenuinePaths count ps) ∧
    ∀ (converged : Convergence (KBest count S T W)) discipline r (states : List S), 1 ≤ count →
      Relation.ReflTransGen ((A.kBest count).singleInitial.Relaxes converged)
        (.start discipline none 1) r →
      A.GenuinePaths count ((A.totalFrom states r.distances).entries.filterMap A.path?) := by
  refine ⟨fun budget solver ps hrun => ?_, fun converged discipline r states hcount hrun =>
    (listsPaths_totalFrom hA hcount states hrun).genuinePaths hA⟩
  unfold shortestPaths at hrun
  split at hrun
  · cases hrun
    exact ⟨Nat.zero_le count, .nil, .nil, nofun⟩
  · next hcount =>
    obtain ⟨best, hbest, hps⟩ := Option.bind_eq_some_iff.1 hrun
    obtain rfl : best.entries.filterMap A.path? = ps := Option.some.inj hps
    obtain ⟨discipline, r, states, hr, rfl⟩ := exists_totalFrom_of_completeDistance hA hbest
    have hpos : 1 ≤ count := Nat.one_le_iff_ne_zero.2 hcount
    exact (listsPaths_totalFrom hA hpos states hr).genuinePaths hA

theorem shortestPaths_genuine_freeLoops : ∃ budget ps,
    (freeLoops.lift : Automaton Option Unit Unit Bool BooleanWeight).shortestPaths budget 3
      ⟨.fifo, .exact⟩ = some ps ∧ freeLoops.GenuinePaths 3 ps ∧
    freeLoops.GenuinePaths 3 ((freeLoops.totalFrom [()] (Relaxation.start .fifo none
      (1 : KBest 3 Unit Bool BooleanWeight)).distances).entries.filterMap freeLoops.path?) := by
  have hlawful : freeLoops.Lawful := ⟨by decide, by decide, fun _ _ _ => rfl⟩
  have hlift := lift_answers_reachable Option freeLoops
  have hbetter : freeLoops.NeverBetter := .inr fun _ _ _ _ a => BooleanWeight.compare_mul_isLE a 1
  obtain ⟨best, -, n, hbest⟩ := hlift.completeDistance_best (k := 3) hlawful
    BooleanWeight.ordered hbetter (by decide) .fifo (Set.toFinite _)
  have hrun : (freeLoops.lift : Automaton Option Unit Unit Bool BooleanWeight).shortestPaths (n + 1)
      3 ⟨.fifo, .exact⟩ = some (best.entries.filterMap freeLoops.path?) := by
    unfold shortestPaths
    rw [if_neg (by decide), hbest (n + 1) (Nat.lt_succ_self n)]
    rfl
  have hgenuine := shortestPaths_genuine freeLoops hlawful 3
  exact ⟨n + 1, _, hrun, hgenuine.1 (n + 1) ⟨.fifo, .exact⟩ _ hrun,
    hgenuine.2 .exact .fifo _ [()] (by decide) .refl⟩

end Paths

end Automaton

end WeightedAutomata
