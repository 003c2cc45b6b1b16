import CodonGrammar.CommandLine.CodonList
import CodonGrammar.Proofs.Number.PlainNumeral
import CodonGrammar.Proofs.Text.Splitting

/-!
# Numerals in a list of codons

The decimal forms of integers with commas around them and spaces anywhere are read as these
integers, and a text of digits, minus signs, commas and spaces is refused only if a part of it is no
numeral or if all its parts are empty (`readCodonList_spaced`).

Spaces can be left out before the text is split or after it, which makes no difference
(`codonParts_eq`). Commas with nothing between them make parts that are left out (`fullParts`), so
what is left are the decimal forms (`Enumerates.fullParts_eq`).
-/

namespace CodonGrammar.CommandLine

open Text (splitAtEach)
open Number (IsPlainNumeral)

/-! ## Parts -/

/-- The parts of a text between its commas but for the empty ones. -/
def fullParts (text : List Char) : List (List Char) :=
  (splitAtEach ',' text).filter (!·.isEmpty)

/-- The text without its spaces. -/
def spaceless (text : List Char) : List Char := text.filter (· != ' ')

theorem codonParts_eq (text : List Char) :
    codonParts text = ((splitAtEach ',' text).map spaceless).filter (!·.isEmpty) := by
  rw [codonParts, Text.splitAtEach_filter (by decide)]
  rfl

theorem mem_codonParts {text part : List Char} :
    part ∈ codonParts text ↔
      part ≠ [] ∧ ∃ original ∈ splitAtEach ',' text, spaceless original = part := by
  rw [codonParts_eq, List.mem_filter, List.mem_map, and_comm]
  simp

theorem fullParts_replicate (commas : Nat) (text : List Char) :
    fullParts (List.replicate commas ',' ++ text) = fullParts text := by
  induction commas with
  | zero => rfl
  | succ commas ih =>
    rw [← ih, List.replicate_succ, List.cons_append, fullParts, splitAtEach, if_pos rfl]
    rfl

theorem fullParts_append {part : List Char} (hSome : part ≠ []) (hFree : ',' ∉ part)
    (text : List Char) : fullParts (part ++ ',' :: text) = part :: fullParts text := by
  rw [fullParts, Text.splitAtEach_append hFree, List.filter_cons_of_pos (by simp [hSome])]
  rfl

theorem fullParts_of_not_mem {part : List Char} (hSome : part ≠ []) (hFree : ',' ∉ part) :
    fullParts part = [part] := by
  rw [fullParts, Text.splitAtEach_of_not_mem hFree, List.filter_cons_of_pos (by simp [hSome])]
  rfl

/-! ## Reading parts -/

theorem length_of_readParts {parts : List (List Char)} {numbers : List Int}
    (h : readParts parts = some numbers) : numbers.length = parts.length := by
  induction parts generalizing numbers with
  | nil => cases h; rfl
  | cons part rest ih =>
    rw [readParts] at h
    split at h
    · rename_i hRest
      cases h
      rw [List.length_cons, List.length_cons, ih hRest]
    · cases h

theorem readParts_eq_none_iff {parts : List (List Char)} :
    readParts parts = none ↔
      ∃ part ∈ parts, ¬ ∃ number, Number.readInteger (String.ofList part) = .ok number := by
  induction parts with
  | nil => simp [readParts]
  | cons part rest ih =>
    simp only [List.mem_cons, exists_eq_or_imp, ← ih]
    rw [readParts]
    cases Number.readInteger (String.ofList part) with
    | error => simp
    | ok number => cases readParts rest <;> simp

theorem readCodonList_error_iff {text : String} :
    (∃ error, readCodonList text = .error error) ↔
      (∃ part ∈ codonParts text.toList,
        ¬ ∃ number, Number.readInteger (String.ofList part) = .ok number) ∨
      codonParts text.toList = [] := by
  rw [← readParts_eq_none_iff, readCodonList]
  cases hRead : readParts (codonParts text.toList) with
  | none => simp
  | some numbers =>
    have hLength := length_of_readParts hRead
    cases numbers with
    | nil => simpa using hLength.symm
    | cons first rest =>
      have hSome : codonParts text.toList ≠ [] := by
        intro hNil
        rw [hNil] at hLength
        cases hLength
      simp [hSome]

/-! ## Decimal forms with commas -/

/-- The decimal forms of integers in order, with one or more commas between neighbours and any
number of commas behind the last one. -/
inductive Enumerates : List Int → List Char → Prop where
  | last (number : Int) (commas : Nat) :
      Enumerates [number] (number.repr.toList ++ List.replicate commas ',')
  | next (number : Int) (commas : Nat) {numbers : List Int} {text : List Char} :
      Enumerates numbers text →
      Enumerates (number :: numbers)
        (number.repr.toList ++ (List.replicate (commas + 1) ',' ++ text))

theorem comma_not_mem_repr (number : Int) : ',' ∉ number.repr.toList := by
  intro hMem
  exact absurd ((Number.isPlainNumeral_repr number).forall_mem ',' hMem) (by decide)

theorem toList_repr_ne_nil (number : Int) : number.repr.toList ≠ [] :=
  (Number.isPlainNumeral_repr number).ne_nil

theorem Enumerates.fullParts_eq {numbers : List Int} {text : List Char}
    (h : Enumerates numbers text) :
    fullParts text = numbers.map fun number => number.repr.toList := by
  induction h with
  | last number commas =>
    cases commas with
    | zero =>
      rw [List.replicate_zero, List.append_nil,
        fullParts_of_not_mem (toList_repr_ne_nil number) (comma_not_mem_repr number)]
      rfl
    | succ commas =>
      rw [List.replicate_succ,
        fullParts_append (toList_repr_ne_nil number) (comma_not_mem_repr number)]
      have hNothing := fullParts_replicate commas []
      rw [List.append_nil] at hNothing
      rw [hNothing]
      rfl
  | next number commas _ ih =>
    rw [List.replicate_succ, List.cons_append,
      fullParts_append (toList_repr_ne_nil number) (comma_not_mem_repr number),
      fullParts_replicate, ih, List.map_cons]

theorem readParts_map_repr {numbers : List Int}
    (hLength : ∀ number ∈ numbers, number.natAbs.repr.length ≤ Number.maxDigits) :
    readParts (numbers.map fun number => number.repr.toList) = some numbers := by
  induction numbers with
  | nil => rfl
  | cons number rest ih =>
    obtain ⟨hFirst, hRest⟩ := List.forall_mem_cons.mp hLength
    rw [List.map_cons, readParts, String.ofList_toList, Number.readInteger_repr hFirst, ih hRest]

theorem Enumerates.ne_nil {numbers : List Int} {text : List Char} (h : Enumerates numbers text) :
    numbers ≠ [] := by
  cases h <;> exact List.cons_ne_nil _ _

theorem readCodonList_of_enumerates {text : String} {numbers : List Int} {commas : Nat}
    {body : List Char} (hBody : Enumerates numbers body)
    (hLength : ∀ number ∈ numbers, number.natAbs.repr.length ≤ Number.maxDigits)
    (hText : spaceless text.toList = List.replicate commas ',' ++ body) :
    readCodonList text = .ok numbers := by
  have hParts : codonParts text.toList = numbers.map fun number => number.repr.toList := by
    rw [← hBody.fullParts_eq, ← fullParts_replicate commas, ← hText]
    rfl
  obtain ⟨first, rest, rfl⟩ := List.exists_cons_of_ne_nil hBody.ne_nil
  rw [readCodonList, hParts, readParts_map_repr hLength]

/-! ## Refused texts -/

/-- Without its spaces a part of such a text has digits and minus signs only. -/
theorem forall_mem_spaceless {text part : List Char}
    (hChars : ∀ c ∈ text, c.isDigit = true ∨ c = '-' ∨ c = ',' ∨ c = ' ')
    (hPart : part ∈ splitAtEach ',' text) :
    ∀ c ∈ spaceless part, c.isDigit = true ∨ c = '-' := by
  intro c hMem
  obtain ⟨hInner, hSpace⟩ := List.mem_filter.mp hMem
  have hComma : c ≠ ',' := by
    rintro rfl
    exact Text.not_mem_of_mem_splitAtEach hPart hInner
  rcases hChars c (Text.mem_of_mem_splitAtEach hPart hInner) with hDigit | hMinus | hIs | hIs
  · exact .inl hDigit
  · exact .inr hMinus
  · exact absurd hIs hComma
  · exact absurd hIs (by simpa using hSpace)

theorem filter_isDigit_spaceless (part : List Char) :
    (spaceless part).filter Char.isDigit = part.filter Char.isDigit := by
  rw [spaceless, List.filter_filter]
  refine List.filter_congr fun c _ => ?_
  cases hDigit : c.isDigit with
  | true =>
    have hSpace : c ≠ ' ' := by
      rintro rfl
      exact absurd hDigit (by decide)
    simp [hSpace]
  | false => rfl

/-- Spaces and further commas do not change which integers a text is read as, and a text of the
characters of such lists is refused only for a part that is no numeral, or for want of parts. -/
theorem readCodonList_spaced (text : String) :
    (∀ numbers commas body, Enumerates numbers body →
      (∀ number ∈ numbers, number.natAbs.repr.length ≤ 4300) →
      spaceless text.toList = List.replicate commas ',' ++ body →
      readCodonList text = .ok numbers) ∧
    ((∀ c ∈ text.toList, c.isDigit = true ∨ c = '-' ∨ c = ',' ∨ c = ' ') →
      (∀ part ∈ splitAtEach ',' text.toList, (part.filter Char.isDigit).length ≤ 4300) →
      ((∃ error, readCodonList text = .error error) ↔
        (∃ part ∈ splitAtEach ',' text.toList,
          spaceless part ≠ [] ∧ ¬ IsPlainNumeral (spaceless part)) ∨
        ∀ part ∈ splitAtEach ',' text.toList, spaceless part = [])) := by
  refine ⟨fun numbers commas body => readCodonList_of_enumerates, fun hChars hCount => ?_⟩
  have hNumeral : ∀ part ∈ splitAtEach ',' text.toList,
      (∃ number, Number.readInteger (String.ofList (spaceless part)) = .ok number)
        ↔ IsPlainNumeral (spaceless part) := by
    intro part hPart
    refine Number.readInteger_iff_isPlainNumeral (forall_mem_spaceless hChars hPart) ?_
    rw [filter_isDigit_spaceless]
    exact hCount part hPart
  rw [readCodonList_error_iff, codonParts_eq]
  refine or_congr ?_ ?_
  · constructor
    · rintro ⟨part, hMem, hRead⟩
      obtain ⟨hSome, original, hOriginal, rfl⟩ := mem_codonParts.mp (codonParts_eq _ ▸ hMem)
      exact ⟨original, hOriginal, hSome, fun h => hRead ((hNumeral original hOriginal).mpr h)⟩
    · rintro ⟨original, hOriginal, hSome, hNone⟩
      refine ⟨spaceless original, ?_, fun h => hNone ((hNumeral original hOriginal).mp h)⟩
      rw [← codonParts_eq]
      exact mem_codonParts.mpr ⟨hSome, original, hOriginal, rfl⟩
  · simp

/-- Spaces stand inside of a numeral too, and a hyphen between digits is no sign. -/
theorem readCodonList_spaced_numerals :
    Enumerates [-10, 7] "-10,,7,".toList ∧
      spaceless ", -1 0,,7,".toList = ',' :: "-10,,7,".toList ∧
      readCodonList ", -1 0,,7," = .ok [-10, 7] ∧
      ∃ error, readCodonList "1-2, ," = .error error := by
  have hBody : Enumerates [-10, 7] "-10,,7,".toList := .next (-10) 1 (.last 7 1)
  have hText : spaceless ", -1 0,,7,".toList = ',' :: "-10,,7,".toList := by decide
  refine ⟨hBody, hText, ?_, ?_⟩
  · exact (readCodonList_spaced ", -1 0,,7,").1 [-10, 7] 1 _ hBody (by decide) hText
  · have hChars : ∀ c ∈ "1-2, ,".toList, c.isDigit = true ∨ c = '-' ∨ c = ',' ∨ c = ' ' := by
      simp
    refine ((readCodonList_spaced "1-2, ,").2 hChars (by decide)).mpr (.inl ?_)
    refine ⟨['1', '-', '2'], by decide, by decide, ?_⟩
    rintro ⟨negative, digits, hDigits, -, hAll⟩
    have hHyphen : '-' ∈ digits := by
      cases negative with
      | true => exact absurd (List.cons.inj hDigits).1 (by decide)
      | false =>
        have hSame : ['1', '-', '2'] = digits := hDigits
        exact hSame ▸ by decide
    exact absurd (hAll '-' hHyphen) (by decide)

end CodonGrammar.CommandLine
