import WeightedAutomata.Proofs.Determinization.Replay

/-!
The strings that the table of a determinization reads. Each has one path, whose weight is the sum
over all paths of the operand that read it, and there are no more strings than paths of the operand.
-/
namespace WeightedAutomata

open scoped BigOperators

variable {L S T W : Type}

namespace Automaton

section Deterministic

variable [BEq L] [LawfulBEq L] {A : Automaton Id L S T W} (h : A.Deterministic)
include h

/-- A state and a label tell the transition. -/
theorem Deterministic.eq_of_label {s : S} {t u : T} {a : L} (ht : t ∈ A.leaving s)
    (hu : u ∈ A.leaving s) (hta : A.label t = some a) (hua : A.label u = some a) : t = u := by
  have hone := h.unique s a
  have ht' : t ∈ (A.leaving s).filter fun t => A.label t == some a :=
    List.mem_filter.2 ⟨ht, by simp [hta]⟩
  have hu' : u ∈ (A.leaving s).filter fun t => A.label t == some a :=
    List.mem_filter.2 ⟨hu, by simp [hua]⟩
  obtain ⟨v, hv⟩ := List.length_eq_one_iff.1 (le_antisymm hone (List.length_pos_of_mem ht'))
  rw [hv, List.mem_singleton] at ht' hu'
  rw [ht', hu']

/-- A string tells its path. -/
theorem Deterministic.eq_of_labels {s : S} {ts us : List T} (hts : A.IsPath s ts)
    (hus : A.IsPath s us) (hlabels : A.labels ts = A.labels us) : ts = us := by
  induction ts generalizing s us with
  | nil =>
    cases us with
    | nil => rfl
    | cons u us =>
      obtain ⟨a, ha⟩ := Option.ne_none_iff_exists'.1 (h.labeled u)
      rw [labels_cons, ha] at hlabels
      cases hlabels
  | cons t ts ih =>
    obtain ⟨a, ha⟩ := Option.ne_none_iff_exists'.1 (h.labeled t)
    rw [labels_cons, ha] at hlabels
    cases us with
    | nil => cases hlabels
    | cons u us =>
      obtain ⟨b, hb⟩ := Option.ne_none_iff_exists'.1 (h.labeled u)
      rw [labels_cons, hb] at hlabels
      obtain ⟨rfl, hrest⟩ := List.cons.inj hlabels
      obtain rfl := h.eq_of_label hts.1 hus.1 ha hb
      rw [ih hts.2 hus.2 hrest]

theorem Deterministic.nodup_leaving (s : S) : (A.leaving s).Nodup := by
  classical
  refine List.nodup_iff_count_le_one.2 fun t => ?_
  obtain ⟨a, ha⟩ := Option.ne_none_iff_exists'.1 (h.labeled t)
  refine le_trans ?_ (h.unique s a)
  rw [← List.countP_eq_length_filter]
  refine List.countP_mono_left fun u _ hu => ?_
  rw [eq_of_beq hu, ha]
  exact beq_self_eq_true _

omit [LawfulBEq L] in
theorem Deterministic.length_labels (ts : List T) : (A.labels ts).length = ts.length := by
  induction ts with
  | nil => rfl
  | cons t ts ih =>
    obtain ⟨a, ha⟩ := Option.ne_none_iff_exists'.1 (h.labeled t)
    rw [labels_cons, ha, Option.elim_some, List.length_cons, ih, List.length_cons]

/-- There are no more paths than strings that they read. -/
theorem Deterministic.length_paths_le {strings : List (List L)} {s : S}
    (hs : ∀ ts, A.IsPath s ts → A.labels ts ∈ strings) (n : ℕ) :
    (A.paths n s).length ≤ strings.length := by
  have hnodup : ((A.paths n s).map A.labels).Nodup := by
    refine List.Nodup.map_on (fun ts hts us hus heq => ?_) (nodup_paths h.nodup_leaving n s)
    exact h.eq_of_labels (mem_paths.1 hts).1 (mem_paths.1 hus).1 heq
  have hsub : (A.paths n s).map A.labels ⊆ strings := by
    intro x hx
    obtain ⟨ts, hts, rfl⟩ := List.mem_map.1 hx
    exact hs ts (mem_paths.1 hts).1
  have hle := (List.subperm_of_subset hnodup hsub).length_le
  rwa [List.length_map] at hle

/-- With one initial state, a list of all strings that can be read bounds the automaton. -/
theorem Deterministic.exists_bounded (hone : A.starts.length ≤ 1) {strings : List (List L)}
    (hs : ∀ s ∈ A.starts, ∀ ts, A.IsPath s ts → A.labels ts ∈ strings) :
    ∃ size, A.Bounded A.Reachable size ∧ (A.starts.map size).sum ≤ strings.length := by
  let n := (strings.map List.length).sum + 1
  have hshort : ∀ s ∈ A.starts, ∀ ts, A.IsPath s ts → ts.length < n := by
    intro s hstart ts hts
    have hle : (A.labels ts).length ≤ (strings.map List.length).sum :=
      List.le_sum_of_mem (List.mem_map.2 ⟨_, hs s hstart ts hts, rfl⟩)
    rw [h.length_labels] at hle
    exact Nat.lt_succ_of_le hle
  refine ⟨_, bounded_paths hshort, ?_⟩
  rcases hstarts : A.starts with _ | ⟨s, _ | ⟨q, rest⟩⟩
  · exact Nat.zero_le _
  · rw [List.map_singleton, List.sum_singleton]
    exact h.length_paths_le (hs s (by simp [hstarts])) n
  · rw [hstarts] at hone
    simp at hone

end Deterministic

/-- Every weight but zero has an inverse. -/
def HasInverses (W : Type) [Semiring W] [PartialInverse W] : Prop :=
  ∀ a : W, a ≠ 0 → ∃ b, PartialInverse.inverse a = .ok b ∧ a * b = 1

variable [Semiring W] [PartialInverse W]

theorem HasInverses.mul_ne_zero (h : HasInverses W) {a b : W} (ha : a ≠ 0) (hb : b ≠ 0) :
    a * b ≠ 0 := by
  obtain ⟨c, -, hc⟩ := h b hb
  intro hz
  apply ha
  calc a = a * b * c := by rw [mul_assoc, hc, mul_one]
    _ = 0 := by rw [hz, zero_mul]

section Table

variable [BEq L] [LawfulBEq L] [BEq S] [BEq W] {A : Automaton Id L S T W} {closure : S → ℕ}
variable {μ : SubsetMemory L S W} (hinverse : HasInverses W)
include hinverse

omit [BEq L] [LawfulBEq L] [BEq S] [BEq W] in
/-- The total times the sums of the subset gives back the sums that were settled. -/
theorem Settles.total_mul {value : (S → W) → W} {p : ℕ × W} (hr : Settles μ value (some p)) :
    p.2 = value (fun _ => 1) ∧ ∀ g, p.2 * weigh (μ.subset p.1) g = value g := by
  cases hr with
  | @placed b i hne hinv _ hweigh =>
    obtain ⟨c, hc, hone⟩ := hinverse _ hne
    rw [hinv] at hc
    cases hc
    refine ⟨rfl, fun g => ?_⟩
    rw [hweigh, ← mul_assoc, hone, one_mul]

omit [BEq L] [LawfulBEq L] [BEq S] [BEq W] in
/-- Sums that do not vanish are settled in a subset. -/
theorem Settles.exists_some {value : (S → W) → W} {r : Option (ℕ × W)} (hr : Settles μ value r)
    {g : S → W} (hg : value g ≠ 0) : ∃ p, r = some p := by
  cases hr with
  | vanished hz => exact absurd (hz g) hg
  | stuck hne herror _ =>
    obtain ⟨b, hb, -⟩ := hinverse _ hne
    rw [hb] at herror
    cases herror
  | placed _ _ _ _ => exact ⟨_, rfl⟩

namespace Remembers

variable (h : A.Remembers closure μ)
include h

/-- A path of the table has the weight of its string up to the sums of the subset it leads to. -/
theorem path_table [LawfulBEq W] {i : ℕ} (hi : i ∈ (A.table μ).starts)
    {ts : List (SubsetTransition L W)} (hts : (A.table μ).IsPath i ts) :
    (A.table μ).forwardWeight (i, ts) ≠ 0 ∧
      A.startValue closure (A.after closure (fun _ => 1) ((A.table μ).labels ts)) ≠ 0 ∧
      ∀ g, (A.table μ).forwardWeight (i, ts) * weigh (μ.subset ((A.table μ).endpoint i ts)) g =
        A.startValue closure (A.after closure g ((A.table μ).labels ts)) := by
  induction ts using List.reverseRecOn with
  | nil =>
    obtain ⟨w, hw⟩ := mem_starts_table.1 hi
    have hsettles := h.start _ hw
    have hentry : (A.table μ).forwardWeight (i, []) = w := by
      rw [forwardWeight, pathCost_nil, mul_one, entry_table, hw]
      exact if_pos rfl
    obtain ⟨htotal, hsum⟩ := hsettles.total_mul hinverse
    have hne : w ≠ 0 := (hsettles.target_lt rfl).2
    rw [hentry]
    exact ⟨hne, fun hz => hne (htotal.trans hz), hsum⟩
  | append_singleton ts t ih =>
    obtain ⟨hpath, ht, -⟩ := isPath_append.1 hts
    obtain ⟨hweight, -, hsum⟩ := ih hpath
    obtain ⟨-, hsettles⟩ := h.settles_of_mem_leaving ht
    obtain ⟨htotal, hstep⟩ := hsettles.total_mul hinverse
    have hne : t.weight ≠ 0 := (hsettles.target_lt rfl).2
    have hlabels : (A.table μ).labels (ts ++ [t]) = (A.table μ).labels ts ++ [t.label] := by
      rw [labels_append]
      rfl
    have hforward : (A.table μ).forwardWeight (i, ts ++ [t]) =
        (A.table μ).forwardWeight (i, ts) * t.weight := by
      rw [forwardWeight_append, pathCost_cons, pathCost_nil, mul_one]
      rfl
    have hvalue (g : S → W) : (A.table μ).forwardWeight (i, ts) *
        A.stepValue closure (μ.subset ((A.table μ).endpoint i ts)) t.label g =
          A.startValue closure (A.after closure g ((A.table μ).labels ts ++ [t.label])) := by
      rw [stepValue, hsum, after_append]
      rfl
    rw [hforward, hlabels]
    refine ⟨hinverse.mul_ne_zero hweight hne, ?_, fun g => ?_⟩
    · rw [← hvalue, ← htotal]
      exact hinverse.mul_ne_zero hweight hne
    · rw [← hvalue, ← hstep, mul_assoc, endpoint_append]
      rfl

section Known

variable (hknown : ∀ i, (A.table μ).Reachable i → i ∈ μ.explored)
include hknown

omit [LawfulBEq L] in
/-- What has sums over the paths that read a string can read it once its states are explored. -/
theorem exists_path_table {i : ℕ} (hi : (A.table μ).Reachable i) {x : List L}
    (hx : weigh (μ.subset i) (A.after closure A.exit x) ≠ 0) :
    ∃ ts, (A.table μ).IsPath i ts ∧ (A.table μ).labels ts = x ∧
      (A.table μ).exit ((A.table μ).endpoint i ts) ≠ 0 := by
  induction x generalizing i with
  | nil => exact ⟨[], trivial, rfl, hx⟩
  | cons a x ih =>
    obtain ⟨r, hr, hfilter⟩ := h.expanded_leaving (hknown i hi) a
    have hstep : A.stepValue closure (μ.subset i) a (A.after closure A.exit x) ≠ 0 := hx
    obtain ⟨p, rfl⟩ := hr.exists_some hinverse hstep
    have ht : (⟨i, p.1, a, p.2⟩ : SubsetTransition L W) ∈ (A.table μ).leaving i := by
      have hmem : (⟨i, p.1, a, p.2⟩ : SubsetTransition L W) ∈
          ((A.table μ).leaving i).filter fun t => t.label == a := by
        rw [hfilter]
        exact List.mem_singleton_self _
      exact (List.mem_filter.1 hmem).1
    have hrest : weigh (μ.subset p.1) (A.after closure A.exit x) ≠ 0 := by
      intro hz
      apply hstep
      rw [← (hr.total_mul hinverse).2, hz, mul_zero]
    obtain ⟨ts, hts, hlabels, hexit⟩ := ih (hi.step ht) hrest
    refine ⟨_ :: ts, ⟨ht, hts⟩, ?_, hexit⟩
    rw [labels_cons, hlabels]
    rfl

omit [LawfulBEq L] in
theorem exists_completePath_table (hstart : μ.start.isSome) {x : List L}
    (hx : A.startValue closure (A.after closure A.exit x) ≠ 0) :
    ∃ c ∈ (A.table μ).completePaths, (A.table μ).labels c.2 = x := by
  obtain ⟨r, hr⟩ := Option.isSome_iff_exists.1 hstart
  have hsettles := h.start r hr
  obtain ⟨p, rfl⟩ := hsettles.exists_some hinverse hx
  have hmem : p.1 ∈ (A.table μ).starts := mem_starts_table.2 ⟨p.2, hr⟩
  have hrest : weigh (μ.subset p.1) (A.after closure A.exit x) ≠ 0 := by
    intro hz
    apply hx
    rw [← (hsettles.total_mul hinverse).2, hz, mul_zero]
  obtain ⟨ts, hts, hlabels, hexit⟩ := h.exists_path_table hinverse hknown (.start hmem) hrest
  exact ⟨(p.1, ts), ⟨hmem, hts, hexit⟩, hlabels⟩

end Known

theorem completeWeight_table [LawfulBEq W] {c : ℕ × List (SubsetTransition L W)}
    (hc : c ∈ (A.table μ).completePaths) : (A.table μ).completeWeight c =
      A.startValue closure (A.after closure A.exit ((A.table μ).labels c.2)) :=
  (h.path_table hinverse hc.1 hc.2.1).2.2 A.exit

omit hinverse in
/-- A complete path of the table is told by the string that it reads. -/
theorem injOn_labels_table :
    Set.InjOn (fun c => (A.table μ).labels c.2) (A.table μ).completePaths := by
  rintro ⟨i, ts⟩ ⟨hi, hts, -⟩ ⟨j, us⟩ ⟨hj, hus, -⟩ hlabels
  obtain ⟨v, hv⟩ := mem_starts_table.1 hi
  obtain ⟨w, hw⟩ := mem_starts_table.1 hj
  rw [hv] at hw
  cases hw
  exact Prod.ext rfl (h.deterministic_table.eq_of_labels hts hus hlabels)

end Remembers

end Table

section Readable

variable [BEq L] [LawfulBEq L] [BEq S] [BEq W] [LawfulBEq W] {A : Automaton Id L S T W}
variable {closure : S → ℕ} {μ : SubsetMemory L S W}

/-- The strings that are read on the way from the initial states. -/
def readable (A : Automaton Id L S T W) (size : S → ℕ) : List (List L) :=
  A.starts.flatMap fun s => (A.paths (size s) s).map A.labels

omit [PartialInverse W] in
theorem mem_readable (hA : A.Lawful) (hfinite : {s | A.Reachable s}.Finite)
    (hepsilon : A.EpsilonAcyclic) (hc : (A.epsilonPart []).Bounded A.Reachable closure)
    {size : S → ℕ} (hb : A.Bounded A.Reachable size) {u : List L}
    (hu : A.startValue closure (A.after closure (fun _ => 1) u) ≠ 0) : u ∈ A.readable size := by
  have harrival : A.arrival u ≠ 0 := by rwa [arrival_eq hA hfinite hepsilon hc]
  obtain ⟨⟨s, ts⟩, ⟨⟨hs, hts, -⟩, hlabels⟩, -⟩ := exists_ne_zero_of_finsum_mem_ne_zero harrival
  have hpath : A.IsPath s (ts.map Prod.fst) := isPath_allFinal.1 (isPath_map_fst hts)
  refine List.mem_flatMap.2 ⟨s, hs, List.mem_map.2 ⟨_, mem_paths.2 ⟨hpath, ?_⟩, ?_⟩⟩
  · exact hb.length_lt (.start hs) hpath
  · rw [← hlabels, labels_numbered]
    rfl

/-- The table of a determinization reads no string that the operand does not read. -/
theorem Remembers.exists_bounded_table (h : A.Remembers closure μ) (hinverse : HasInverses W)
    (hA : A.Lawful) (hfinite : {s | A.Reachable s}.Finite) (hepsilon : A.EpsilonAcyclic)
    (hc : (A.epsilonPart []).Bounded A.Reachable closure) {size : S → ℕ}
    (hb : A.Bounded A.Reachable size) : ∃ bound, (A.table μ).Bounded (A.table μ).Reachable bound ∧
      ((A.table μ).starts.map bound).sum ≤ (A.readable size).length := by
  refine h.deterministic_table.exists_bounded ?_ fun i hi ts hts =>
    mem_readable hA hfinite hepsilon hc hb (h.path_table hinverse hi hts).2.1
  rw [starts_table]
  cases μ.start.join <;> simp

end Readable

end Automaton

end WeightedAutomata
