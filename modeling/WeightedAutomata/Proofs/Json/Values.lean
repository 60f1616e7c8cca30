import WeightedAutomata.Proofs.Json.Numerals

/-!
Reading a text that has been written gives back the value.
-/
namespace WeightedAutomata.Json

section Strings

theorem hexCode?_hexDigits : ∀ n < 0x20,
    hexDigits n = ['0', '0', Nat.digitChar (n / 16), Nat.digitChar (n % 16)] ∧
      hexCode? '0' '0' (Nat.digitChar (n / 16)) (Nat.digitChar (n % 16)) = some n := by
  decide

theorem piece?_shortEscape {c letter : Char} (h : shortEscape? c = some letter)
    (rest : List Char) : piece? ('\\' :: letter :: rest) = some (some c, rest) := by
  unfold shortEscape? at h
  split at h <;> cases h <;> rfl

theorem piece?_escapeChar (c : Char) (rest : List Char) :
    piece? (escapeChar c ++ rest) = some (some c, rest) := by
  unfold escapeChar
  split
  · next letter h => exact piece?_shortEscape h rest
  · next h =>
    split
    · next hcontrol =>
      obtain ⟨hdigits, hcode⟩ := hexCode?_hexDigits _ hcontrol
      have hpiece : unicodePiece c.toNat rest = (some c, rest) := by
        have hhigh : isHighSurrogate c.toNat = false := by
          simp only [isHighSurrogate, Bool.and_eq_false_iff, decide_eq_false_iff_not]
          omega
        have hlow : isLowSurrogate c.toNat = false := by
          simp only [isLowSurrogate, Bool.and_eq_false_iff, decide_eq_false_iff_not]
          omega
        simp [unicodePiece, hhigh, hlow]
      rw [hdigits]
      change (hexCode? _ _ _ _).map (unicodePiece · rest) = _
      rw [hcode, Option.map_some, hpiece]
    · next hcontrol =>
      have hbackslash : c ≠ '\\' := by
        rintro rfl
        cases h
      rw [List.singleton_append]
      unfold piece?
      split <;> simp_all

theorem head_escapeChar_ne (c : Char) : ∃ d ds, escapeChar c = d :: ds ∧ d ≠ '"' := by
  unfold escapeChar
  split
  · exact ⟨_, _, rfl, by decide⟩
  · next h =>
    split
    · exact ⟨_, _, rfl, by decide⟩
    · refine ⟨c, [], rfl, ?_⟩
      rintro rfl
      cases h

/-- The text between the quotes, up to the closing one. -/
theorem readString_escaped (cs : List Char) (rest : List Char) {fuel : ℕ} (hfuel : cs.length ≤ fuel)
    (done : List Char) :
    readString fuel (some done) (cs.flatMap escapeChar ++ '"' :: rest) =
      some (some (String.ofList (done.reverse ++ cs)), rest) := by
  induction cs generalizing fuel done with
  | nil =>
    cases fuel <;> simp [readString]
  | cons c cs ih =>
    cases fuel with
    | zero => cases hfuel
    | succ fuel =>
      obtain ⟨d, ds, hds, hd⟩ := head_escapeChar_ne c
      have hpiece := piece?_escapeChar c (cs.flatMap escapeChar ++ '"' :: rest)
      rw [hds, List.cons_append] at hpiece
      rw [List.flatMap_cons, List.append_assoc, hds, List.cons_append, readString]
      · rw [hpiece]
        have hrest := ih (Nat.le_of_succ_le_succ hfuel) (c :: done)
        rw [List.reverse_cons, List.append_assoc, List.singleton_append] at hrest
        exact hrest
      · exact fun _ heq => hd (List.cons.inj heq).1

end Strings

section Values

/-- Values whose numerals can be read and whose strings have a text. -/
inductive Value.Legible : Value → Prop
  | null : Legible .null
  | bool (b : Bool) : Legible (.bool b)
  | number {n : Numeral} (h : n.WellFormed) : Legible (.number n)
  | string (text : String) : Legible (.string (some text))
  | array {items : List Value} (h : ∀ v ∈ items, Legible v) : Legible (.array items)
  | object {members : List (Option String × Value)} (keys : ∀ e ∈ members, e.1.isSome)
      (values : ∀ e ∈ members, Legible e.2) : Legible (.object members)

theorem renderItems_eq_map (items : List Value) : renderItems items = items.map Value.render := by
  induction items with
  | nil => rfl
  | cons v rest ih => rw [renderItems, ih, List.map_cons]

theorem ne_of_starts_numeral {c d : Char} (hc : c.isDigit ∨ c = '-')
    (hd : d.isDigit = false ∧ d ≠ '-') : c ≠ d := by
  rintro rfl
  rcases hc with hc | hc
  · rw [hd.1] at hc
    cases hc
  · exact hd.2 hc

theorem isBlank_of_starts_numeral {c : Char} (hc : c.isDigit ∨ c = '-') : isBlank c = false := by
  have hne (d : Char) (hd : d.isDigit = false ∧ d ≠ '-') := ne_of_starts_numeral hc hd
  simp only [isBlank, Bool.or_eq_false_iff, beq_eq_false_iff_ne]
  exact ⟨⟨⟨hne _ (by decide), hne _ (by decide)⟩, hne _ (by decide)⟩, hne _ (by decide)⟩

theorem Numeral.WellFormed.head_render {n : Numeral} (h : n.WellFormed) :
    ∃ c cs, n.render.toList = c :: cs ∧ (c.isDigit ∨ c = '-') := by
  obtain ⟨d, ds, hds⟩ := List.exists_cons_of_ne_nil h.whole_ne_nil
  have hdigit : d.isDigit := h.isDigit_whole d (by rw [hds]; exact List.mem_cons_self)
  rw [Numeral.toList_render, hds]
  cases n.negative with
  | true => exact ⟨'-', _, rfl, .inr rfl⟩
  | false => exact ⟨d, _, rfl, .inl hdigit⟩

/-- What a value starts with is neither a blank nor the end of an array. -/
theorem Value.Legible.head_render {v : Value} (h : v.Legible) :
    ∃ c cs, v.render.toList = c :: cs ∧ isBlank c = false ∧ c ≠ ']' := by
  cases h with
  | null => exact ⟨_, _, rfl, by decide, by decide⟩
  | bool b => cases b <;> exact ⟨_, _, rfl, by decide, by decide⟩
  | number h =>
    obtain ⟨c, cs, hcs, hc⟩ := h.head_render
    exact ⟨c, cs, hcs, isBlank_of_starts_numeral hc, ne_of_starts_numeral hc (by decide)⟩
  | string text => exact ⟨'"', _, String.toList_ofList, by decide, by decide⟩
  | array h => exact ⟨'[', _, by simp [Value.render]; rfl, by decide, by decide⟩
  | object keys values => exact ⟨'\x7b', _, by simp [Value.render]; rfl, by decide, by decide⟩

/-- Reading gives back the value, whatever stands behind it. -/
def Value.ReadsBack (v : Value) : Prop :=
  ∀ fuel rest, v.render.toList.length ≤ fuel → Ends rest →
    readValue fuel (v.render.toList ++ rest) = some (v, rest)

theorem dropWhile_cons {c : Char} (hc : isBlank c = false) (rest : List Char) :
    (c :: rest).dropWhile isBlank = c :: rest := by
  simp [hc]

theorem Ends.dropWhile {c : Char} {rest : List Char} (h : Ends (c :: rest)) :
    (c :: rest).dropWhile isBlank = c :: rest := by
  refine dropWhile_cons ?_ rest
  obtain rfl | rfl | rfl := h c rfl <;> decide

/-- An item is read up to the comma or the bracket behind it. -/
theorem readItems_item {v : Value} (hv : v.ReadsBack) {fuel : ℕ}
    (hfuel : v.render.toList.length ≤ fuel) (done : List Value) (c : Char) {rest : List Char}
    (hc : Ends (c :: rest)) :
    readItems (fuel + 1) done (v.render.toList ++ c :: rest) =
      (match c :: rest with
      | ',' :: rest => readItems fuel (v :: done) rest
      | ']' :: rest => some (.array (v :: done).reverse, rest)
      | _ => none) := by
  rw [readItems, hv fuel (c :: rest) hfuel hc]
  change (match (c :: rest).dropWhile isBlank with
    | ',' :: rest => readItems fuel (v :: done) rest
    | ']' :: rest => some (.array (v :: done).reverse, rest)
    | _ => none) = _
  rw [hc.dropWhile]

theorem readItems_render {items : List Value} (hitems : ∀ v ∈ items, v.ReadsBack)
    (hne : items ≠ []) (fuel : ℕ) (done : List Value) (rest : List Char)
    (hfuel : (",".intercalate (items.map Value.render)).toList.length < fuel) :
    readItems fuel done ((",".intercalate (items.map Value.render)).toList ++ ']' :: rest) =
      some (.array (done.reverse ++ items), rest) := by
  induction items generalizing fuel done with
  | nil => exact absurd rfl hne
  | cons v items ih =>
    obtain ⟨fuel, rfl⟩ := Nat.exists_eq_succ_of_ne_zero (Nat.ne_zero_of_lt hfuel)
    have hv := hitems v List.mem_cons_self
    cases items with
    | nil =>
      rw [List.map_singleton, String.intercalate_singleton] at hfuel ⊢
      rw [readItems_item hv (Nat.le_of_lt_succ hfuel) _ _ (ends_cons (by decide))]
      simp
    | cons u items =>
      have hrest := ih (fun w hw => hitems w (List.mem_cons_of_mem _ hw)) (List.cons_ne_nil _ _)
        fuel (v :: done)
      rw [List.map_cons, List.map_cons, String.intercalate_cons_cons, ← List.map_cons] at hfuel ⊢
      set more := ",".intercalate ((u :: items).map Value.render)
      have htext : (v.render ++ "," ++ more).toList = v.render.toList ++ ',' :: more.toList := by simp
      rw [htext, List.length_append, List.length_cons] at hfuel
      rw [htext, List.append_assoc, List.cons_append,
        readItems_item hv (by omega) _ _ (ends_cons (by decide))]
      simpa using hrest (by omega)

theorem length_le_escaped (cs : List Char) : cs.length ≤ (cs.flatMap escapeChar).length := by
  induction cs with
  | nil => exact Nat.le_refl _
  | cons c cs ih =>
    obtain ⟨d, ds, hds, -⟩ := head_escapeChar_ne c
    rw [List.flatMap_cons, hds, List.length_append, List.length_cons, List.length_cons]
    omega

theorem readString_quote (text : String) (rest : List Char) :
    ∃ body, (quote text).toList ++ rest = '"' :: body ∧
      readString body.length (some []) body = some (some text, rest) := by
  refine ⟨text.toList.flatMap escapeChar ++ '"' :: rest, ?_, ?_⟩
  · simp [quote]
  · rw [readString_escaped, List.reverse_nil, List.nil_append, String.ofList_toList]
    have := length_le_escaped text.toList
    rw [List.length_append]
    omega

/-- A member is read up to the comma or the brace behind it. -/
theorem readMembers_member {key : String} {v : Value} (hv : v.ReadsBack) {fuel : ℕ}
    (hfuel : v.render.toList.length ≤ fuel) (done : List (Option String × Value)) (c : Char)
    {rest : List Char} (hc : Ends (c :: rest)) :
    readMembers (fuel + 1) done ((renderText (some key) ++ ":" ++ v.render).toList ++ c :: rest) =
      (match c :: rest with
      | ',' :: rest => readMembers fuel ((some key, v) :: done) rest
      | '\x7d' :: rest => some (.object ((some key, v) :: done).reverse, rest)
      | _ => none) := by
  obtain ⟨body, hbody, hkey⟩ := readString_quote key (':' :: (v.render.toList ++ c :: rest))
  have htext : (renderText (some key) ++ ":" ++ v.render).toList ++ c :: rest = '"' :: body := by
    rw [← hbody]
    simp [renderText]
  have hread := hv fuel (c :: rest) hfuel hc
  rw [htext]
  rw [readMembers, dropWhile_cons (by decide)]
  change Option.bind (readString _ _ _) _ = _
  rw [hkey, Option.bind_some]
  dsimp only
  rw [dropWhile_cons (by decide)]
  change Option.bind (readValue _ _) _ = _
  rw [hread, Option.bind_some]
  dsimp only
  rewrite [hc.dropWhile]
  rfl

theorem readMembers_render {members : List (Option String × Value)}
    (hkeys : ∀ e ∈ members, e.1.isSome) (hvalues : ∀ e ∈ members, e.2.ReadsBack)
    (hne : members ≠ []) (fuel : ℕ) (done : List (Option String × Value)) (rest : List Char)
    (hfuel : (",".intercalate (renderMembers members)).toList.length < fuel) :
    readMembers fuel done ((",".intercalate (renderMembers members)).toList ++ '\x7d' :: rest) =
      some (.object (done.reverse ++ members), rest) := by
  induction members generalizing fuel done with
  | nil => exact absurd rfl hne
  | cons e members ih =>
    obtain ⟨fuel, rfl⟩ := Nat.exists_eq_succ_of_ne_zero (Nat.ne_zero_of_lt hfuel)
    obtain ⟨key, v⟩ := e
    have hv : v.ReadsBack := hvalues _ List.mem_cons_self
    obtain ⟨key, rfl⟩ := Option.isSome_iff_exists.1 (hkeys _ List.mem_cons_self)
    have hlength : v.render.toList.length ≤
        (renderText (some key) ++ ":" ++ v.render).toList.length := by
      rw [String.toList_append, List.length_append]
      omega
    cases members with
    | nil =>
      rw [renderMembers, renderMembers, String.intercalate_singleton] at hfuel ⊢
      rw [readMembers_member hv (Nat.le_trans hlength (Nat.le_of_lt_succ hfuel)) _ _
        (ends_cons (by decide))]
      simp
    | cons f members =>
      have hrest := ih (fun e he => hkeys e (List.mem_cons_of_mem _ he))
        (fun e he => hvalues e (List.mem_cons_of_mem _ he)) (List.cons_ne_nil _ _) fuel
        ((some key, v) :: done)
      rw [renderMembers, renderMembers, String.intercalate_cons_cons, ← renderMembers] at hfuel ⊢
      set more := ",".intercalate (renderMembers (f :: members))
      set text := renderText (some key) ++ ":" ++ v.render
      have htext : (text ++ "," ++ more).toList = text.toList ++ ',' :: more.toList := by simp
      rw [htext, List.length_append, List.length_cons] at hfuel
      rw [htext, List.append_assoc, List.cons_append,
        readMembers_member hv (by omega) _ _ (ends_cons (by decide))]
      simpa using hrest (by omega)

theorem readValue_numeral {c : Char} (hc : c.isDigit ∨ c = '-') (fuel : ℕ) (cs : List Char) :
    readValue (fuel + 1) (c :: cs) = (readNumeral (c :: cs)).map fun e => (.number e.1, e.2) := by
  rw [readValue, dropWhile_cons (isBlank_of_starts_numeral hc)]
  split
  case h_7 => rfl
  all_goals
    next heq => exact absurd (List.cons.inj heq).1 (ne_of_starts_numeral hc (by decide))

theorem readValue_array {items : List Value} (hlegible : ∀ v ∈ items, v.Legible)
    (hitems : ∀ v ∈ items, v.ReadsBack) (fuel : ℕ) (rest : List Char)
    (hfuel : (",".intercalate (items.map Value.render)).toList.length < fuel) :
    readValue (fuel + 1)
        ('[' :: ((",".intercalate (items.map Value.render)).toList ++ ']' :: rest)) =
      some (.array items, rest) := by
  cases items with
  | nil => rfl
  | cons v items =>
    have hread := readItems_render hitems (List.cons_ne_nil _ _) fuel [] rest hfuel
    obtain ⟨c, cs, hcs, hblank, hc⟩ := (hlegible v List.mem_cons_self).head_render
    obtain ⟨after, hafter⟩ : ∃ after,
        (",".intercalate ((v :: items).map Value.render)).toList = c :: after := by
      rw [String.toList_intercalate, List.map_cons, List.map_cons, hcs,
        List.intercalate_cons_cons_left]
      exact ⟨_, rfl⟩
    rw [hafter, List.cons_append] at hread ⊢
    rw [readValue, dropWhile_cons (by decide)]
    split
    case h_5 cs heq =>
      obtain rfl := (List.cons.inj heq).2
      rw [dropWhile_cons hblank]
      split
      · next heq => exact absurd (List.cons.inj heq).1 hc
      · exact hread
    case h_7 =>
      next hbracket _ => exact (hbracket _ rfl).elim
    all_goals
      next heq => exact absurd (List.cons.inj heq).1 (by decide)

theorem readValue_object {members : List (Option String × Value)}
    (hkeys : ∀ e ∈ members, e.1.isSome) (hvalues : ∀ e ∈ members, e.2.ReadsBack) (fuel : ℕ)
    (rest : List Char) (hfuel : (",".intercalate (renderMembers members)).toList.length < fuel) :
    readValue (fuel + 1)
        ('\x7b' :: ((",".intercalate (renderMembers members)).toList ++ '\x7d' :: rest)) =
      some (.object members, rest) := by
  cases members with
  | nil => rfl
  | cons e members =>
    have hread := readMembers_render hkeys hvalues (List.cons_ne_nil _ _) fuel [] rest hfuel
    obtain ⟨after, hafter⟩ : ∃ after,
        (",".intercalate (renderMembers (e :: members))).toList = '"' :: after := by
      obtain ⟨key, v⟩ := e
      obtain ⟨key, rfl⟩ := Option.isSome_iff_exists.1 (hkeys _ List.mem_cons_self)
      have htext : (renderText (some key) ++ ":" ++ v.render).toList =
          '"' :: (key.toList.flatMap escapeChar ++ ['"'] ++ ':' :: v.render.toList) := by
        simp [renderText, quote]
      rw [String.toList_intercalate, renderMembers, List.map_cons, htext,
        List.intercalate_cons_cons_left]
      exact ⟨_, rfl⟩
    rw [hafter, List.cons_append] at hread ⊢
    exact hread

theorem Value.Legible.readsBack {v : Value} (h : v.Legible) : v.ReadsBack := by
  have hpos {v : Value} (hv : v.Legible) {fuel : ℕ} (hfuel : v.render.toList.length ≤ fuel) :
      ∃ k, fuel = k + 1 := by
    obtain ⟨c, cs, hcs, -⟩ := hv.head_render
    rw [hcs, List.length_cons] at hfuel
    exact ⟨fuel - 1, by omega⟩
  induction h with
  | null =>
    intro fuel rest hfuel _
    obtain ⟨fuel, rfl⟩ := hpos .null hfuel
    rfl
  | bool b =>
    intro fuel rest hfuel _
    obtain ⟨fuel, rfl⟩ := hpos (.bool b) hfuel
    cases b <;> rfl
  | number h =>
    intro fuel rest hfuel hrest
    obtain ⟨fuel, rfl⟩ := hpos (.number h) hfuel
    obtain ⟨c, cs, hcs, hc⟩ := h.head_render
    have hread := readNumeral_render h hrest
    rw [Value.render]
    rw [hcs, List.cons_append] at hread ⊢
    rw [readValue_numeral hc, hread]
    rfl
  | string text =>
    intro fuel rest hfuel _
    obtain ⟨fuel, rfl⟩ := hpos (.string text) hfuel
    obtain ⟨body, hbody, hread⟩ := readString_quote text rest
    rw [Value.render, renderText, hbody, readValue, dropWhile_cons (by decide)]
    change (readString _ _ _).map _ = _
    rw [hread]
    rfl
  | @array items hitems ih =>
    intro fuel rest hfuel _
    obtain ⟨fuel, rfl⟩ := hpos (.array hitems) hfuel
    have htext : (Value.array items).render.toList =
        '[' :: ((",".intercalate (items.map Value.render)).toList ++ [']']) := by
      rw [Value.render, renderItems_eq_map]
      simp
    rw [htext, List.length_cons, List.length_append, List.length_singleton] at hfuel
    rw [htext, List.cons_append, List.append_assoc]
    exact readValue_array hitems ih fuel rest (by omega)
  | @object members hkeys hvalues ih =>
    intro fuel rest hfuel _
    obtain ⟨fuel, rfl⟩ := hpos (.object hkeys hvalues) hfuel
    have htext : (Value.object members).render.toList =
        '\x7b' :: ((",".intercalate (renderMembers members)).toList ++ ['\x7d']) := by
      rw [Value.render]
      simp
    rw [htext, List.length_cons, List.length_append, List.length_singleton] at hfuel
    rw [htext, List.cons_append, List.append_assoc]
    exact readValue_object hkeys ih fuel rest (by omega)

theorem read?_render {v : Value} (h : v.Legible) : read? v.render = some v := by
  have hread := h.readsBack (v.render.toList.length + 1) [] (Nat.le_succ _) ends_nil
  rw [List.append_nil] at hread
  unfold read?
  dsimp only
  rw [hread]
  rfl

end Values

end WeightedAutomata.Json
