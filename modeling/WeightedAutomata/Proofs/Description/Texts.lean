import WeightedAutomata.Proofs.Json.Weights

/-!
A description that has been written is read back, up to what its weights are read as.
-/
namespace WeightedAutomata

open Json (Value)

variable {W : Type}

namespace Description

/-- Every weight, also of those that are left out. -/
def weights (d : Description W) : List (Option W) :=
  d.initial.map StateWeight.weight ++ d.final.map StateWeight.weight ++
    d.transitions.map Edge.weight

/-- The same description with other weights. -/
def mapWeights (f : Option W → Option W) (d : Description W) : Description W where
  states := d.states
  initial := d.initial.map fun s => { s with weight := f s.weight }
  final := d.final.map fun s => { s with weight := f s.weight }
  transitions := d.transitions.map fun e => { e with weight := f e.weight }

/-- The states that are named are numbers of 64 bits. -/
structure Addressable (d : Description W) : Prop where
  states : d.states < UInt64.size
  initial : ∀ s ∈ d.initial, s.state < UInt64.size
  final : ∀ s ∈ d.final, s.state < UInt64.size
  transitions : ∀ e ∈ d.transitions, e.source < UInt64.size ∧ e.target < UInt64.size

end Description

theorem index?_ofNat {n : ℕ} (h : n < UInt64.size) : (Value.number (.ofNat n)).index? = some n := by
  have hdigits : (Json.Numeral.ofNat n).digits = n := by
    unfold Json.Numeral.digits Json.Numeral.ofNat
    rw [List.append_nil, Decimal.valueOf_toDigits]
  have hinteger : (Json.Numeral.ofNat n).isInteger = true := rfl
  have hnegative : (Json.Numeral.ofNat n).negative = false := rfl
  simp [Value.index?, hdigits, hinteger, hnegative, h]

variable [JsonWeight W]

/-- What is read for a weight that is left out or written. -/
def RereadAs (w w' : Option W) : Prop :=
  Value.optional? JsonWeight.read? (w.map JsonWeight.write) = some w'

theorem readList?_write {α : Type} {read : Value → Option α} {write : α → Value} {f : α → α}
    {l : List α} (h : ∀ a ∈ l, read (write a) = some (f a)) :
    readList? read (some (.array (l.map write))) = some (l.map f) := by
  change (l.map write).mapM read = _
  induction l with
  | nil => rfl
  | cons a l ih =>
    rw [List.map_cons, List.mapM_cons, h a List.mem_cons_self,
      ih fun b hb => h b (List.mem_cons_of_mem _ hb)]
    rfl

theorem StateWeight.read?_write {s : StateWeight W} (hs : s.state < UInt64.size) {w : Option W}
    (hw : RereadAs s.weight w) : StateWeight.read? s.write = some { s with weight := w } := by
  obtain ⟨state, weight⟩ := s
  unfold StateWeight.read? StateWeight.write
  have hfields : Value.fields? ["state", "weight"]
      (.object ((some "state", .number (.ofNat state)) ::
        weight.toList.map fun w => (some "weight", JsonWeight.write w))) =
      some [some (.number (.ofNat state)), weight.map JsonWeight.write] := by
    cases weight <;> rfl
  rw [hfields]
  simp [index?_ofNat hs, show Value.optional? _ _ = _ from hw]

namespace Description

theorem readTransition?_write {e : Edge String (Option W)} (hsource : e.source < UInt64.size)
    (htarget : e.target < UInt64.size) {w : Option W} (hw : RereadAs e.weight w) :
    readTransition? (writeTransition e) = some { e with weight := w } := by
  obtain ⟨source, target, label, weight⟩ := e
  unfold readTransition? writeTransition
  have hfields : Value.fields? ["from", "to", "label", "weight"]
      (.object ([(some "from", .number (.ofNat source)), (some "to", .number (.ofNat target))]
        ++ (label.toList.map fun label => (some "label", .string (some label)))
        ++ weight.toList.map fun w => (some "weight", JsonWeight.write w))) =
      some [some (.number (.ofNat source)), some (.number (.ofNat target)),
        label.map fun label => .string (some label), weight.map JsonWeight.write] := by
    cases label <;> cases weight <;> rfl
  have hlabel : Value.optional? Value.text? (label.map fun label => .string (some label)) =
      some label := by cases label <;> rfl
  rw [hfields]
  simp [index?_ofNat hsource, index?_ofNat htarget, hlabel, show Value.optional? _ _ = _ from hw]

theorem readValue?_writeValue {d : Description W} (hd : d.Addressable) {f : Option W → Option W}
    (hf : ∀ w ∈ d.weights, RereadAs w (f w)) : readValue? d.writeValue = some (d.mapWeights f) := by
  have hinitial (s : StateWeight W) (hs : s ∈ d.initial) :
      StateWeight.read? s.write = some { s with weight := f s.weight } :=
    StateWeight.read?_write (hd.initial s hs)
      (hf _ (List.mem_append_left _ (List.mem_append_left _ (List.mem_map_of_mem hs))))
  have hfinal (s : StateWeight W) (hs : s ∈ d.final) :
      StateWeight.read? s.write = some { s with weight := f s.weight } :=
    StateWeight.read?_write (hd.final s hs)
      (hf _ (List.mem_append_left _ (List.mem_append_right _ (List.mem_map_of_mem hs))))
  have htransitions (e : Edge String (Option W)) (he : e ∈ d.transitions) :
      readTransition? (writeTransition e) = some { e with weight := f e.weight } :=
    readTransition?_write (hd.transitions e he).1 (hd.transitions e he).2
      (hf _ (List.mem_append_right _ (List.mem_map_of_mem he)))
  unfold readValue? writeValue
  have hfields : Value.fields? ["states", "initial", "final", "transitions"]
      (.object [(some "states", .number (.ofNat d.states)),
        (some "initial", .array (d.initial.map StateWeight.write)),
        (some "final", .array (d.final.map StateWeight.write)),
        (some "transitions", .array (d.transitions.map writeTransition))]) =
      some [some (.number (.ofNat d.states)), some (.array (d.initial.map StateWeight.write)),
        some (.array (d.final.map StateWeight.write)),
        some (.array (d.transitions.map writeTransition))] := rfl
  rw [hfields]
  simp [index?_ofNat hd.states, readList?_write hinitial, readList?_write hfinal,
    readList?_write htransitions, mapWeights]

/-- The members of an object whose keys are given are legible if their values are. -/
theorem legible_members {members : List (Option String × Value)}
    (h : ∀ e ∈ members, e.1.isSome ∧ e.2.Legible) : (Value.object members).Legible :=
  .object (fun e he => (h e he).1) fun e he => (h e he).2

theorem legible_ofNat (n : ℕ) : (Value.number (.ofNat n)).Legible :=
  .number (Json.Numeral.wellFormed_ofNat n)

section Legible

variable (hwrite : ∀ w : W, (JsonWeight.write w).Legible)
include hwrite

theorem legible_writeStateWeight (s : StateWeight W) : s.write.Legible := by
  refine legible_members fun e he => ?_
  rcases List.mem_cons.1 he with rfl | he
  · exact ⟨rfl, legible_ofNat _⟩
  · obtain ⟨w, -, rfl⟩ := List.mem_map.1 he
    exact ⟨rfl, hwrite w⟩

theorem legible_writeTransition (e : Edge String (Option W)) : (writeTransition e).Legible := by
  refine legible_members fun m hm => ?_
  rcases List.mem_append.1 hm with hm | hm
  · rcases List.mem_append.1 hm with hm | hm
    · rcases List.mem_cons.1 hm with rfl | hm
      · exact ⟨rfl, legible_ofNat _⟩
      · obtain rfl := List.mem_singleton.1 hm
        exact ⟨rfl, legible_ofNat _⟩
    · obtain ⟨label, -, rfl⟩ := List.mem_map.1 hm
      exact ⟨rfl, .string label⟩
  · obtain ⟨w, -, rfl⟩ := List.mem_map.1 hm
    exact ⟨rfl, hwrite w⟩

theorem legible_writeValue (d : Description W) : d.writeValue.Legible := by
  have hlist {α : Type} {write : α → Value} (h : ∀ a, (write a).Legible) (l : List α) :
      (Value.array (l.map write)).Legible := by
    refine .array fun v hv => ?_
    obtain ⟨a, -, rfl⟩ := List.mem_map.1 hv
    exact h a
  refine legible_members fun e he => ?_
  simp only [List.mem_cons, List.not_mem_nil, or_false] at he
  rcases he with rfl | rfl | rfl | rfl
  · exact ⟨rfl, legible_ofNat _⟩
  · exact ⟨rfl, hlist (legible_writeStateWeight hwrite) _⟩
  · exact ⟨rfl, hlist (legible_writeStateWeight hwrite) _⟩
  · exact ⟨rfl, hlist (legible_writeTransition hwrite) _⟩

end Legible

/-- A description is read back with the weights that are read for its own. -/
theorem read_write (hwrite : ∀ w : W, (JsonWeight.write w).Legible) {d : Description W}
    (hd : d.Addressable) {f : Option W → Option W} (hf : ∀ w ∈ d.weights, RereadAs w (f w)) :
    read d.write = .ok (d.mapWeights f) := by
  unfold read write
  rw [Json.read?_render (legible_writeValue hwrite d), Option.bind_some,
    readValue?_writeValue hd hf]

end Description

end WeightedAutomata
