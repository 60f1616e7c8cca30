import Mathlib.Data.Int.Notation
import Mathlib.Data.List.TakeDrop
import Mathlib.Data.Nat.Notation
import WeightedAutomata.Json.Reader
import WeightedAutomata.Json.Writer

/-!
A numeral that has been written is read back, digit by digit.
-/
namespace WeightedAutomata

theorem Decimal.valueOf_toDigits (n : ℕ) : valueOf (Nat.toDigits 10 n) = n :=
  Nat.ofDigitChars_ten_toDigits

namespace Json

/-- What may stand behind a value. -/
def Ends (rest : List Char) : Prop := ∀ c ∈ rest.head?, c = ',' ∨ c = ']' ∨ c = '\x7d'

theorem ends_nil : Ends [] := nofun

theorem ends_cons {c : Char} {rest : List Char} (h : c = ',' ∨ c = ']' ∨ c = '\x7d') :
    Ends (c :: rest) := by
  rintro _ ⟨⟩
  exact h

section Digits

variable {ds rest : List Char}

theorem digits?_append (hne : ds ≠ []) (hds : ∀ c ∈ ds, c.isDigit)
    (hrest : ∀ c ∈ rest.head?, c.isDigit = false) : digits? (ds ++ rest) = some (ds, rest) := by
  have hspan : (ds ++ rest).span Char.isDigit = (ds, rest) := by
    rw [List.span_eq_takeWhile_dropWhile, List.takeWhile_append_of_pos hds,
      List.dropWhile_append_of_pos hds]
    cases rest with
    | nil => simp
    | cons c rest => simp [hrest c rfl]
  unfold digits?
  rw [hspan]
  split
  · next heq => exact absurd (congrArg Prod.fst heq) hne
  · rfl

theorem isDigit_toDigits (n : ℕ) : ∀ c ∈ Nat.toDigits 10 n, c.isDigit :=
  fun _ => Nat.isDigit_of_mem_toDigits (by decide) (by decide)

/-- Only zero is written with a zero in front. -/
theorem length_toDigits_of_head? {n : ℕ} (h : (Nat.toDigits 10 n).head? = some '0') :
    (Nat.toDigits 10 n).length = 1 := by
  induction n using Nat.strongRecOn with
  | ind n ih =>
    rw [Nat.toDigits_eq_if (by decide)] at h ⊢
    split at h
    · rw [if_pos ‹_›]
      rfl
    · rename_i hlarge
      have hne : Nat.toDigits 10 (n / 10) ≠ [] := Nat.toDigits_ne_nil
      obtain ⟨d, ds, hds⟩ := List.exists_cons_of_ne_nil hne
      have hhead : (Nat.toDigits 10 (n / 10)).head? = some '0' := by
        rw [hds] at h ⊢
        exact h
      have hone := ih (n / 10) (by omega) hhead
      obtain ⟨c, hc⟩ := List.length_eq_one_iff.1 hone
      rw [hc] at hhead
      obtain rfl : c = '0' := Option.some.inj hhead
      have hzero := Decimal.valueOf_toDigits (n / 10)
      rw [hc] at hzero
      have : n / 10 = 0 := hzero.symm
      omega

theorem head?_toDigits_ne {n : ℕ} (hn : n ≠ 0) : (Nat.toDigits 10 n).head? ≠ some '0' := by
  intro h
  obtain ⟨c, hc⟩ := List.length_eq_one_iff.1 (length_toDigits_of_head? h)
  rw [hc] at h
  obtain rfl : c = '0' := Option.some.inj h
  have hvalue := Decimal.valueOf_toDigits n
  rw [hc] at hvalue
  exact hn hvalue.symm

end Digits

/-- Digits that are read by themselves: the whole part has one at least and no zero in front of
others. -/
structure Numeral.WellFormed (n : Numeral) : Prop where
  whole_ne_nil : n.whole ≠ []
  isDigit_whole : ∀ c ∈ n.whole, c.isDigit
  length_whole : n.whole.head? = some '0' → n.whole.length = 1
  isDigit_fraction : ∀ c ∈ n.fraction, c.isDigit

theorem Numeral.wellFormed_ofNat (n : ℕ) : (ofNat n).WellFormed :=
  ⟨Nat.toDigits_ne_nil, isDigit_toDigits n, length_toDigits_of_head?, nofun⟩

section Scientific

variable {s : Decimal.Scientific}

theorem isDigit_zeros (n : ℕ) : ∀ c ∈ List.replicate n '0', c.isDigit := by
  intro c hc
  rw [List.eq_of_mem_replicate hc]
  decide

/-- The whole part has no zero in front of others, for a number that is not zero times a power
of ten. -/
theorem wellFormed_parts (h : s.digits ≠ 0 ∨ s.exponent ≤ 0) :
    s.parts.1 ≠ [] ∧ (∀ c ∈ s.parts.1 ++ s.parts.2, c.isDigit) ∧
      (s.parts.1.head? = some '0' → s.parts.1.length = 1) := by
  unfold Decimal.Scientific.parts
  have hone := length_toDigits_of_head? (n := s.digits)
  have hhead := head?_toDigits_ne (n := s.digits)
  have hdigits := isDigit_toDigits s.digits
  have hpos := Nat.length_toDigits_pos (b := 10) (n := s.digits)
  set digits := Nat.toDigits 10 s.digits
  set places := (-s.exponent).toNat with hplaces
  dsimp only
  set padded := List.replicate (places + 1 - digits.length) '0' ++ digits with hpadded
  have hlength : padded.length = max (places + 1) digits.length := by
    rw [hpadded, List.length_append, List.length_replicate]
    omega
  have htake : (padded.take (padded.length - places)).length = padded.length - places := by
    rw [List.length_take]
    omega
  refine ⟨fun hnil => ?_, fun c hc => ?_, fun hzero => ?_⟩
  · have := congrArg List.length hnil
    rw [List.length_append, htake, List.length_nil] at this
    omega
  · have hpad : ∀ c ∈ padded, c.isDigit := fun c hc =>
      (List.mem_append.1 hc).elim (isDigit_zeros _ c) (hdigits c)
    rcases List.mem_append.1 hc with hc | hc
    · exact (List.mem_append.1 hc).elim (fun hc => hpad c (List.mem_of_mem_take hc))
        (isDigit_zeros _ c)
    · exact hpad c (List.mem_of_mem_drop hc)
  · by_cases hshort : digits.length ≤ places
    · have hexp : s.exponent.toNat = 0 := by omega
      rw [List.length_append, htake, hexp, List.length_replicate]
      omega
    · -- no zero is put in front of the digits, whose first one is not zero
      have hsame : padded = digits := by
        rw [hpadded, Nat.sub_eq_zero_of_le (by omega)]
        rfl
      have hfirst : digits.head? = some '0' := by
        obtain ⟨d, ds, hds⟩ := List.exists_cons_of_length_pos hpos
        obtain ⟨cut, hcut⟩ := Nat.exists_eq_succ_of_ne_zero (n := padded.length - places) (by omega)
        rw [hcut, hsame, hds] at hzero
        rw [hds]
        exact hzero
      have hexp : s.exponent ≤ 0 := h.resolve_left fun hne => hhead hne hfirst
      rw [List.length_append, htake, List.length_replicate, hsame, hone hfirst]
      have := hone hfirst
      omega

theorem Numeral.wellFormed_ofScientific (negative : Bool) (h : s.digits ≠ 0 ∨ s.exponent ≤ 0) :
    (ofScientific negative s).WellFormed := by
  obtain ⟨hne, hdigit, hone⟩ := wellFormed_parts h
  unfold ofScientific
  split
  · refine ⟨hne, fun c hc => hdigit c (List.mem_append_left _ hc), hone, fun c hc => ?_⟩
    dsimp only at hc
    split at hc
    · obtain rfl := List.mem_singleton.1 hc
      decide
    · exact hdigit c (List.mem_append_right _ hc)
  · obtain ⟨d, ds, hds⟩ := List.exists_cons_of_ne_nil (Nat.toDigits_ne_nil (n := s.digits) (b := 10))
    have hdigits := isDigit_toDigits s.digits
    dsimp only
    rw [hds] at hdigits ⊢
    exact ⟨List.cons_ne_nil _ _, fun c hc => hdigits c (List.mem_of_mem_take hc), fun _ => rfl,
      fun c hc => hdigits c (List.mem_of_mem_drop hc)⟩

end Scientific

section Parts

variable {rest : List Char}

/-- The first character behind a numeral's digits. -/
def Stops (rest : List Char) : Prop := ∀ c ∈ rest.head?, c.isDigit = false ∧ c ≠ '.'

theorem Ends.stops (h : Ends rest) : Stops rest := by
  intro c hc
  obtain rfl | rfl | rfl := h c hc <;> decide

theorem fraction?_append {ds : List Char} (hds : ∀ c ∈ ds, c.isDigit) (hrest : Stops rest) :
    (fraction? (Decimal.fractionText ds ++ rest)).map (fun e => (e.1.getD [], e.2)) =
      some (ds, rest) := by
  cases ds with
  | nil =>
    change (fraction? rest).map _ = _
    unfold fraction?
    split
    · exact absurd rfl (hrest _ rfl).2
    · rfl
  | cons d ds =>
    change Option.map _ ((digits? (d :: ds ++ rest)).map _) = _
    rw [digits?_append (List.cons_ne_nil _ _) hds fun c hc => (hrest c hc).1]
    rfl

/-- The text of a power of ten. -/
def powerText (power : Option ℤ) : List Char := power.elim [] fun p => 'e' :: p.repr.toList

theorem stops_powerText (power : Option ℤ) (hrest : Ends rest) : Stops (powerText power ++ rest) := by
  cases power with
  | none => exact hrest.stops
  | some p =>
    rintro _ ⟨⟩
    decide

theorem sign_toDigits (n : ℕ) (rest : List Char) :
    sign (Nat.toDigits 10 n ++ rest) = (false, Nat.toDigits 10 n ++ rest) := by
  obtain ⟨d, ds, hds⟩ := List.exists_cons_of_ne_nil (Nat.toDigits_ne_nil (n := n) (b := 10))
  have hd : d.isDigit := isDigit_toDigits n d (by rw [hds]; exact List.mem_cons_self)
  rw [hds, List.cons_append]
  unfold sign
  split
  · next heq => cases heq; exact absurd hd (by decide)
  · next heq => cases heq; exact absurd hd (by decide)
  · rfl

theorem power?_append (power : Option ℤ) (hrest : Ends rest) :
    power? (powerText power ++ rest) = some (power, rest) := by
  have hread (n : ℕ) : digits? (Nat.toDigits 10 n ++ rest) = some (Nat.toDigits 10 n, rest) :=
    digits?_append Nat.toDigits_ne_nil (isDigit_toDigits n) fun c hc => (hrest.stops c hc).1
  have hpower {cs : List Char} {negative : Bool} {n : ℕ}
      (hsign : sign cs = (negative, Nat.toDigits 10 n ++ rest)) :
      power? ('e' :: cs) = some (some (if negative then -(n : ℤ) else n), rest) := by
    simp [power?, hsign, hread, Decimal.valueOf_toDigits]
  cases power with
  | none =>
    change power? rest = _
    cases rest with
    | nil => rfl
    | cons c rest => obtain rfl | rfl | rfl := hrest c rfl <;> rfl
  | some p =>
    change power? ('e' :: (p.repr.toList ++ rest)) = _
    by_cases hp : 0 ≤ p
    · rw [Int.repr_eq_if, if_pos hp, Nat.toList_repr, hpower (sign_toDigits _ _)]
      simp [Int.toNat_of_nonneg hp]
    · have hsign : sign (("-" ++ (-p).toNat.repr).toList ++ rest) =
          (true, Nat.toDigits 10 (-p).toNat ++ rest) := by
        simp [sign]
      rw [Int.repr_eq_if, if_neg hp, hpower hsign, if_pos rfl,
        Int.toNat_of_nonneg (by omega), Int.neg_neg]

end Parts

theorem Numeral.toList_render (n : Numeral) : n.render.toList =
    (if n.negative then ['-'] else []) ++ (n.whole ++ (Decimal.fractionText n.fraction ++
      powerText n.power)) := by
  obtain ⟨negative, whole, fraction, power⟩ := n
  have hpower : (power.elim "" fun p => toString "e" ++ p.repr).toList = powerText power := by
    cases power with
    | none => rfl
    | some p => exact String.toList_append
  cases negative <;> simp [render, hpower]

theorem readNumeral_render {n : Numeral} (h : n.WellFormed) {rest : List Char} (hrest : Ends rest) :
    readNumeral (n.render.toList ++ rest) = some (n, rest) := by
  obtain ⟨negative, whole, fraction, power⟩ := n
  obtain ⟨hne, hwhole, hlength, hfraction⟩ := h
  dsimp only at hne hwhole hlength hfraction
  have hpower := power?_append power hrest
  have hfront := fraction?_append hfraction (stops_powerText power hrest)
  have hdigits : digits? (whole ++ (Decimal.fractionText fraction ++ (powerText power ++ rest))) =
      some (whole, Decimal.fractionText fraction ++ (powerText power ++ rest)) := by
    refine digits?_append hne hwhole fun c hc => ?_
    cases fraction with
    | nil => exact (stops_powerText power hrest c hc).1
    | cons d ds =>
      cases hc
      decide
  obtain ⟨⟨found, after⟩, hfound, heq⟩ := Option.map_eq_some_iff.1 hfront
  obtain ⟨rfl, rfl⟩ := Prod.mk.inj heq
  have hzero : (whole.head? == some '0' && whole.length != 1) = false := by
    simpa using hlength
  rw [Numeral.toList_render]
  simp only [List.append_assoc]
  cases negative with
  | true =>
    change readNumeral ('-' :: (whole ++ _)) = _
    unfold readNumeral
    simp only [hdigits, hzero, hfound, hpower, Option.bind_eq_bind, Option.bind_some]
    rfl
  | false =>
    obtain ⟨d, ds, rfl⟩ := List.exists_cons_of_ne_nil hne
    have hd : d ≠ '-' := by
      rintro rfl
      exact absurd (hwhole _ List.mem_cons_self) (by decide)
    unfold readNumeral
    split
    next negative cs heq =>
      split at heq
      · next hcons =>
        exact absurd (List.cons.inj hcons).1 hd
      · obtain ⟨rfl, rfl⟩ := Prod.mk.inj heq
        simp only [List.nil_append, Bool.false_eq_true, if_false, hdigits, hzero,
          hfound, hpower, Option.bind_eq_bind, Option.bind_some]
        rfl

end Json

end WeightedAutomata
