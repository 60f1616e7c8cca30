import Mathlib.Data.List.Basic
import WeightedAutomata.Text.Labels

/-!
Lines and their labels. Labels that a line can have come back when they are written as a line and
read again, and so do the labels of every line.
-/
namespace WeightedAutomata.Text

/-- The code points with the Unicode property White_Space. -/
def whiteSpace : List ℕ :=
  [0x9, 0xA, 0xB, 0xC, 0xD, 0x20, 0x85, 0xA0, 0x1680, 0x2000, 0x2001, 0x2002, 0x2003, 0x2004, 0x2005,
    0x2006, 0x2007, 0x2008, 0x2009, 0x200A, 0x2028, 0x2029, 0x202F, 0x205F, 0x3000]

theorem isBlank_iff {c : Char} : isBlank c = true ↔ c.toNat ∈ whiteSpace := by
  simp only [isBlank, whiteSpace, List.mem_cons, List.not_mem_nil, or_false, Bool.or_eq_true,
    Bool.and_eq_true, decide_eq_true_eq, beq_iff_eq]
  omega

section Words

variable {w cs : List Char} {ws : List (List Char)} {c : Char}

/-- What can stand between two blanks. -/
structure IsWord (w : List Char) : Prop where
  ne_nil : w ≠ []
  unbroken : ∀ c ∈ w, isBlank c = false

theorem endWord_filter (w : List Char) (ws : List (List Char)) :
    endWord w (ws.filter (· ≠ [])) = (w :: ws).filter (· ≠ []) := by
  cases w <;> simp [endWord]

theorem words_eq_endWord (cs : List Char) :
    words cs = endWord (splitFront cs).1 (splitFront cs).2 := rfl

theorem splitFront_cons (c : Char) (cs : List Char) : splitFront (c :: cs) =
    if isBlank c then ([], words cs) else (c :: (splitFront cs).1, (splitFront cs).2) := by
  rw [splitFront, List.foldr_cons]
  rfl

/-- The word at the front reaches to the first blank, and after it empty words are left out. -/
theorem exists_splitOnP_eq (cs : List Char) : ∃ rest, cs.splitOnP isBlank =
    (splitFront cs).1 :: rest ∧ (splitFront cs).2 = rest.filter (· ≠ []) := by
  induction cs with
  | nil => exact ⟨[], rfl, rfl⟩
  | cons c cs ih =>
    obtain ⟨rest, hsplit, hrest⟩ := ih
    rw [List.splitOnP_cons_eq_if_modifyHead, splitFront_cons, hsplit]
    by_cases hc : isBlank c = true
    · rw [if_pos hc, if_pos hc]
      refine ⟨_, rfl, ?_⟩
      rw [words_eq_endWord, hrest, endWord_filter]
    · rw [if_neg hc, if_neg hc]
      exact ⟨rest, rfl, hrest⟩

/-- The words are what stands between the blanks, where it is not empty. -/
theorem words_eq_filter (cs : List Char) :
    words cs = (cs.splitOnP isBlank).filter (· ≠ []) := by
  obtain ⟨rest, hsplit, hrest⟩ := exists_splitOnP_eq cs
  rw [hsplit, words_eq_endWord, hrest, endWord_filter]

theorem words_append_blank (hc : isBlank c = true) (xs ys : List Char) :
    words (xs ++ c :: ys) = words xs ++ words ys := by
  simp only [words_eq_filter, List.splitOnP_append_cons xs ys hc, List.filter_append]

theorem IsWord.words_eq (hw : IsWord w) : words w = [w] := by
  rw [words_eq_filter, List.splitOnP_eq_singleton hw.unbroken]
  exact List.filter_cons_of_pos (by simpa using hw.ne_nil)

/-- Words that are joined by single blanks are found again. -/
theorem words_intercalate (hws : ∀ w ∈ ws, IsWord w) : words ([' '].intercalate ws) = ws := by
  induction ws with
  | nil => rfl
  | cons w ws ih =>
    obtain ⟨hw, hws⟩ := List.forall_mem_cons.1 hws
    cases ws with
    | nil => rw [List.intercalate_singleton, hw.words_eq]
    | cons v ws =>
      rw [List.intercalate_cons_cons, List.append_assoc, List.singleton_append,
        words_append_blank rfl, hw.words_eq, ih hws, List.singleton_append]

theorem forall_isWord_endWord (hw : ∀ c ∈ w, isBlank c = false) (hws : ∀ v ∈ ws, IsWord v) :
    ∀ v ∈ endWord w ws, IsWord v := by
  rw [endWord]
  split
  · exact hws
  · next hne => exact List.forall_mem_cons.2 ⟨⟨by simpa using hne, hw⟩, hws⟩

theorem splitFront_unbroken (cs : List Char) :
    (∀ c ∈ (splitFront cs).1, isBlank c = false) ∧ ∀ w ∈ (splitFront cs).2, IsWord w := by
  induction cs with
  | nil => exact ⟨nofun, nofun⟩
  | cons c cs ih =>
    obtain ⟨hfront, hrest⟩ := ih
    rw [splitFront_cons]
    split
    · exact ⟨nofun, forall_isWord_endWord hfront hrest⟩
    · next hc => exact ⟨List.forall_mem_cons.2 ⟨by simpa using hc, hfront⟩, hrest⟩

theorem isWord_of_mem_words (hw : w ∈ words cs) : IsWord w := by
  obtain ⟨hfront, hrest⟩ := splitFront_unbroken cs
  exact forall_isWord_endWord hfront hrest w hw

end Words

/-- The labels that a line can have. -/
def Labeling.Admits : Labeling → String → Prop
  | .characters, label => ∃ c, label = String.singleton c
  | .tokens, label => label ≠ "" ∧ ∀ c ∈ label.toList, c.toNat ∉ whiteSpace

theorem admits_tokens_iff {label : String} : Labeling.tokens.Admits label ↔ IsWord label.toList := by
  have hblank (c : Char) : isBlank c = false ↔ c.toNat ∉ whiteSpace := by
    rw [← isBlank_iff, Bool.not_eq_true]
  constructor
  · rintro ⟨hne, hunbroken⟩
    exact ⟨by simpa using hne, fun c hc => (hblank c).2 (hunbroken c hc)⟩
  · rintro ⟨hne, hunbroken⟩
    exact ⟨by simpa using hne, fun c hc => (hblank c).1 (hunbroken c hc)⟩

section Labels

variable {labeling : Labeling} {labels : List String}

theorem admits_of_mem_tokenize {line label : String} (h : label ∈ tokenize labeling line) :
    labeling.Admits label := by
  cases labeling with
  | characters =>
    obtain ⟨c, -, rfl⟩ := List.mem_map.1 h
    exact ⟨c, rfl⟩
  | tokens =>
    obtain ⟨w, hw, rfl⟩ := List.mem_map.1 h
    rw [admits_tokens_iff, String.toList_ofList]
    exact isWord_of_mem_words hw

theorem toList_detokenize_characters (labels : List String) :
    (detokenize .characters labels).toList = labels.flatMap String.toList := by
  change ("".intercalate labels).toList = _
  induction labels with
  | nil => rfl
  | cons label labels ih =>
    cases labels with
    | nil => rw [String.intercalate_singleton, List.flatMap_singleton]
    | cons next labels =>
      rw [String.intercalate_cons_cons, String.append_empty, String.toList_append, ih]
      exact List.flatMap_cons.symm

theorem detokenize_tokenize_characters (line : String) :
    detokenize .characters (tokenize .characters line) = line := by
  rw [← String.toList_inj, toList_detokenize_characters, tokenize, List.flatMap_map]
  simp only [String.toList_singleton, List.flatMap_singleton']

theorem tokenize_detokenize (h : ∀ label ∈ labels, labeling.Admits label) :
    tokenize labeling (detokenize labeling labels) = labels := by
  cases labeling with
  | characters =>
    have hsingle : ∀ label ∈ labels, label.toList.map String.singleton = [label] := by
      intro label hlabel
      obtain ⟨c, rfl⟩ := h label hlabel
      rw [String.toList_singleton, List.map_singleton]
    rw [tokenize, toList_detokenize_characters, List.map_flatMap, List.flatMap_congr hsingle,
      List.flatMap_singleton']
  | tokens =>
    have hwords : ∀ w ∈ labels.map String.toList, IsWord w := by
      intro w hw
      obtain ⟨label, hlabel, rfl⟩ := List.mem_map.1 hw
      exact admits_tokens_iff.1 (h label hlabel)
    change (words (" ".intercalate labels).toList).map String.ofList = labels
    rw [String.toList_intercalate]
    change (words ([' '].intercalate (labels.map String.toList))).map String.ofList = labels
    rw [words_intercalate hwords, List.map_map]
    simp only [Function.comp_def, String.ofList_toList, List.map_id']

end Labels

/-- Writing labels as a line undoes reading them. The labels of a line come back, and so does a line
of characters; any labels come back if and only if a line can have them. The tokens of a line are
what stands between characters of White_Space, where it is not empty. -/
theorem detokenize_inverts_tokenize :
    (∀ labeling line, tokenize labeling (detokenize labeling (tokenize labeling line)) =
      tokenize labeling line) ∧
    (∀ line, detokenize .characters (tokenize .characters line) = line) ∧
    (∀ labeling labels, tokenize labeling (detokenize labeling labels) = labels ↔
      ∀ label ∈ labels, labeling.Admits label) ∧
    ∀ line, tokenize .tokens line = ((line.toList.splitOnP fun c => c.toNat ∈ whiteSpace).filter
      (· ≠ [])).map String.ofList := by
  refine ⟨fun labeling line => ?_, detokenize_tokenize_characters, fun labeling labels => ?_,
    fun line => ?_⟩
  · exact tokenize_detokenize fun label hlabel => admits_of_mem_tokenize hlabel
  · constructor
    · intro h label hlabel
      rw [← h] at hlabel
      exact admits_of_mem_tokenize hlabel
    · exact tokenize_detokenize
  · have hblank : isBlank = fun c => decide (c.toNat ∈ whiteSpace) :=
      funext fun c => Bool.eq_iff_iff.2 (by rw [isBlank_iff, decide_eq_true_iff])
    rw [tokenize, words_eq_filter, hblank]

example : tokenize .tokens "\u2003the\u3000 cat\t" = ["the", "cat"] := by decide

end WeightedAutomata.Text
