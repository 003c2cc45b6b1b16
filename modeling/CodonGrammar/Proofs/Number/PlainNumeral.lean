import CodonGrammar.Number.Numeral
import Mathlib.Data.List.TakeWhile

/-!
# Plain numerals

A plain numeral is one or more of the digits from `0` to `9`, with at most a minus sign in front.
Texts of these digits and of minus signs are read as integers if they are plain numerals of at most
4300 digits, and not otherwise (`isPlainNumeral_of_readInteger`). What is read is the number that
the digits stand for, so the decimal form of an integer is read as this integer
(`readInteger_repr`).
-/

namespace CodonGrammar.Number

/-! ## Digits -/

theorem exists_digit {c : Char} (h : c.isDigit = true) :
    ∃ value : Fin 10, c = Char.ofNat (48 + value) := by
  rw [Char.isDigit, Bool.and_eq_true, decide_eq_true_eq, decide_eq_true_eq] at h
  have hLow : 48 ≤ c.toNat := h.1
  have hHigh : c.toNat ≤ 57 := h.2
  refine ⟨⟨c.toNat - 48, by omega⟩, ?_⟩
  rw [Nat.add_sub_of_le hLow, Char.ofNat_toNat]

theorem digitValue?_of_isDigit {c : Char} (h : c.isDigit = true) :
    Text.digitValue? c = some (c.toNat - '0'.toNat) := by
  obtain ⟨value, rfl⟩ := exists_digit h
  revert value
  decide

theorem isNumeralPart_of_isDigit {c : Char} (h : c.isDigit = true) : isNumeralPart c = true := by
  rw [isNumeralPart, digitValue?_of_isDigit h]
  rfl

theorem not_isSurroundingSpace_of_isDigit {c : Char} (h : c.isDigit = true) :
    isSurroundingSpace c = false := by
  obtain ⟨value, rfl⟩ := exists_digit h
  revert value
  decide

theorem ne_underscore_of_isDigit {c : Char} (h : c.isDigit = true) : c ≠ '_' := by
  rintro rfl
  exact absurd h (by decide)

/-! ## Runs of digits -/

theorem underscoresFit_digits {digits : List Char} (hDigits : ∀ c ∈ digits, c.isDigit = true)
    (afterDigit : Bool) : underscoresFit afterDigit digits = (afterDigit || !digits.isEmpty) := by
  induction digits generalizing afterDigit with
  | nil => simp [underscoresFit]
  | cons c rest ih =>
    obtain ⟨hDigit, hRest⟩ := List.forall_mem_cons.mp hDigits
    rw [underscoresFit, if_neg (ne_underscore_of_isDigit hDigit), ih hRest]
    simp

theorem filterMap_digitValue? {digits : List Char} (hDigits : ∀ c ∈ digits, c.isDigit = true) :
    digits.filterMap Text.digitValue? = digits.map fun c => c.toNat - '0'.toNat := by
  induction digits with
  | nil => rfl
  | cons c rest ih =>
    obtain ⟨hDigit, hRest⟩ := List.forall_mem_cons.mp hDigits
    rw [List.filterMap_cons_some (digitValue?_of_isDigit hDigit), ih hRest, List.map_cons]

theorem ofDigits_map (digits : List Char) :
    ofDigits (digits.map fun c => c.toNat - '0'.toNat) = Nat.ofDigitChars 10 digits 0 := by
  rw [ofDigits, List.foldl_map, Nat.ofDigitChars_eq_foldl]

/-! ## Reading -/

/-- The sign of a number in front of its digits. -/
def signed (negative : Bool) (digits : List Char) : List Char :=
  if negative then '-' :: digits else digits

/-- One or more of the digits from zero to nine, with or without a minus sign. -/
def IsPlainNumeral (text : List Char) : Prop :=
  ∃ negative digits, text = signed negative digits ∧ digits ≠ [] ∧
    ∀ c ∈ digits, c.isDigit = true

theorem mem_signed {negative : Bool} {digits : List Char} {c : Char}
    (hMem : c ∈ signed negative digits) : c ∈ digits ∨ c = '-' := by
  cases negative with
  | true => exact (List.mem_cons.mp hMem).symm
  | false => exact .inl hMem

namespace IsPlainNumeral

variable {text : List Char}

theorem ne_nil (h : IsPlainNumeral text) : text ≠ [] := by
  obtain ⟨negative, digits, rfl, hSome, -⟩ := h
  cases negative with
  | true => exact List.cons_ne_nil _ _
  | false => exact hSome

theorem forall_mem (h : IsPlainNumeral text) : ∀ c ∈ text, c.isDigit = true ∨ c = '-' := by
  obtain ⟨negative, digits, rfl, -, hDigits⟩ := h
  exact fun c hMem => (mem_signed hMem).imp_left (hDigits c)

end IsPlainNumeral

theorem not_isSurroundingSpace {c : Char} (h : c.isDigit = true ∨ c = '-') :
    isSurroundingSpace c = false := by
  rcases h with hDigit | rfl
  · exact not_isSurroundingSpace_of_isDigit hDigit
  · decide

/-- No white space is taken away from a text of digits and minus signs. -/
theorem dropWhile_isSurroundingSpace {text : List Char}
    (hChars : ∀ c ∈ text, isSurroundingSpace c = false) :
    text.dropWhile isSurroundingSpace = text := by
  cases text with
  | nil => rfl
  | cons c rest => rw [List.dropWhile_cons_of_neg (by simp [hChars c List.mem_cons_self])]

theorem splitSign_signed {digits : List Char} (negative : Bool)
    (hHead : ∀ c, digits.head? = some c → c ≠ '-' ∧ c ≠ '+') :
    splitSign (signed negative digits) = (negative, digits) := by
  cases negative with
  | true => rfl
  | false =>
    rw [signed, if_neg Bool.false_ne_true]
    unfold splitSign
    split
    · exact absurd rfl (hHead '-' rfl).1
    · exact absurd rfl (hHead '+' rfl).2
    · rfl

/-- Digits behind a sign are read as the number that they stand for. -/
theorem readInteger_signed {digits : List Char} (negative : Bool)
    (hDigits : ∀ c ∈ digits, c.isDigit = true) (hSome : digits ≠ [])
    (hLength : digits.length ≤ maxDigits) :
    readInteger (String.ofList (signed negative digits))
      = .ok (withSign negative (Nat.ofDigitChars 10 digits 0)) := by
  have hSpace : ∀ c ∈ signed negative digits, isSurroundingSpace c = false := fun c hMem =>
    not_isSurroundingSpace ((mem_signed hMem).imp_left (hDigits c))
  have hSplit : splitSign (signed negative digits) = (negative, digits) := by
    refine splitSign_signed negative fun c hHead => ?_
    have hDigit := hDigits c (List.mem_of_mem_head? hHead)
    constructor <;> rintro rfl <;> exact absurd hDigit (by decide)
  have hRun : digits.takeWhile isNumeralPart = digits :=
    List.takeWhile_eq_self_iff.mpr fun c hMem => isNumeralPart_of_isDigit (hDigits c hMem)
  have hAfter : digits.dropWhile isNumeralPart = [] :=
    List.dropWhile_eq_nil_iff.mpr fun c hMem => isNumeralPart_of_isDigit (hDigits c hMem)
  have hCount : ¬ maxDigits < (digits.map fun c => c.toNat - '0'.toNat).length := by
    rw [List.length_map]
    exact Nat.not_lt.mpr hLength
  rw [readInteger, String.toList_ofList, dropWhile_isSurroundingSpace hSpace, hSplit]
  dsimp only
  rw [hRun, hAfter, underscoresFit_digits hDigits, filterMap_digitValue? hDigits, if_neg hCount,
    ofDigits_map]
  simp [hSome]

theorem exists_splitSign {text : List Char} (hPlus : '+' ∉ text) :
    ∃ negative unsigned, text = signed negative unsigned ∧
      splitSign text = (negative, unsigned) := by
  unfold splitSign
  split
  · exact ⟨true, _, rfl, rfl⟩
  · exact absurd List.mem_cons_self hPlus
  · exact ⟨false, _, rfl, rfl⟩

/-- Nothing but a plain numeral is read from digits and minus signs. -/
theorem isPlainNumeral_of_readInteger {text : List Char} {number : Int}
    (hChars : ∀ c ∈ text, c.isDigit = true ∨ c = '-')
    (hRead : readInteger (String.ofList text) = .ok number) : IsPlainNumeral text := by
  have hSpace : ∀ c ∈ text, isSurroundingSpace c = false := fun c hMem =>
    not_isSurroundingSpace (hChars c hMem)
  have hPlus : '+' ∉ text := fun hMem => absurd (hChars '+' hMem) (by decide)
  obtain ⟨negative, unsigned, rfl, hSplit⟩ := exists_splitSign hPlus
  have hInner : ∀ c ∈ unsigned, c ∈ signed negative unsigned := by
    intro c hMem
    cases negative with
    | true => exact List.mem_cons_of_mem _ hMem
    | false => exact hMem
  rw [readInteger, String.toList_ofList, dropWhile_isSurroundingSpace hSpace, hSplit] at hRead
  dsimp only at hRead
  split at hRead
  case isFalse => cases hRead
  case isTrue hFits =>
    split at hRead
    case isTrue => cases hRead
    case isFalse =>
      split at hRead
      case isFalse => cases hRead
      case isTrue hAfter =>
        -- What follows the run would have to be white space.
        have hNothing : unsigned.dropWhile isNumeralPart = [] := by
          refine List.eq_nil_iff_forall_not_mem.mpr fun c hMem => ?_
          have hBlank := List.all_eq_true.mp hAfter c hMem
          rw [hSpace c (hInner c ((List.dropWhile_suffix _).subset hMem))] at hBlank
          cases hBlank
        have hParts := List.dropWhile_eq_nil_iff.mp hNothing
        have hDigits : ∀ c ∈ unsigned, c.isDigit = true := by
          intro c hMem
          rcases hChars c (hInner c hMem) with hDigit | rfl
          · exact hDigit
          · exact absurd (hParts '-' hMem) (by decide)
        refine ⟨negative, unsigned, rfl, ?_, hDigits⟩
        rintro rfl
        cases hFits

theorem readInteger_iff_isPlainNumeral {text : List Char}
    (hChars : ∀ c ∈ text, c.isDigit = true ∨ c = '-')
    (hCount : (text.filter Char.isDigit).length ≤ maxDigits) :
    (∃ number, readInteger (String.ofList text) = .ok number) ↔ IsPlainNumeral text := by
  constructor
  · rintro ⟨number, hRead⟩
    exact isPlainNumeral_of_readInteger hChars hRead
  · rintro ⟨negative, digits, rfl, hSome, hDigits⟩
    refine ⟨_, readInteger_signed negative hDigits hSome ?_⟩
    have hAll : digits.filter Char.isDigit = digits := List.filter_eq_self.mpr hDigits
    cases negative with
    | true =>
      rw [signed, if_pos rfl, List.filter_cons_of_neg (by decide), hAll] at hCount
      exact hCount
    | false =>
      rw [signed, if_neg Bool.false_ne_true, hAll] at hCount
      exact hCount

/-! ## Decimal forms -/

theorem toList_repr (number : Int) :
    number.repr.toList = signed (number < 0) (Nat.toDigits 10 number.natAbs) := by
  rw [Int.repr_eq_if]
  by_cases hNegative : number < 0
  · have hAbs : (-number).toNat = number.natAbs := by omega
    rw [if_neg (Int.not_le.mpr hNegative), hAbs]
    simp [signed, hNegative]
  · have hAbs : number.toNat = number.natAbs := by omega
    rw [if_pos (Int.not_lt.mp hNegative), hAbs]
    simp [signed, hNegative]

theorem isDigit_of_mem_toDigits (number : Nat) :
    ∀ c ∈ Nat.toDigits 10 number, c.isDigit = true := fun _ hMem =>
  Nat.isDigit_of_mem_toDigits (by decide) (by decide) hMem

theorem isPlainNumeral_repr (number : Int) : IsPlainNumeral number.repr.toList :=
  ⟨_, _, toList_repr number, Nat.toDigits_ne_nil, isDigit_of_mem_toDigits number.natAbs⟩

theorem withSign_natAbs (number : Int) : withSign (number < 0) number.natAbs = number := by
  rw [withSign]
  split
  · rename_i hNegative
    have hBelow : number < 0 := of_decide_eq_true hNegative
    omega
  · rename_i hNegative
    have hAbove : ¬ number < 0 := of_decide_eq_false (Bool.eq_false_iff.mpr hNegative)
    omega

/-- The decimal form of an integer is read as this integer. -/
theorem readInteger_repr {number : Int} (hLength : number.natAbs.repr.length ≤ maxDigits) :
    readInteger number.repr = .ok number := by
  have hDigits := isDigit_of_mem_toDigits number.natAbs
  rw [← String.length_toList, Nat.toList_repr] at hLength
  have hRead := readInteger_signed (number < 0) hDigits Nat.toDigits_ne_nil hLength
  rw [← toList_repr, String.ofList_toList, Nat.ofDigitChars_ten_toDigits, withSign_natAbs] at hRead
  exact hRead

end CodonGrammar.Number
