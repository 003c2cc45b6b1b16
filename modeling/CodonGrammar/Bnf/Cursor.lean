import CodonGrammar.Bnf.Characters
import CodonGrammar.Bnf.Error

/-!
# Reading tokens from source

A cursor stands between two characters of a source. `Cursor.next` skips blanks and reads one token.
What it reads depends on the characters that follow and on whether the one before is `<`, because
only a name right after `<` may hold spaces, and only if `>` follows it at once.

A token takes at least one character (`next_shortens`), so reading all tokens of a source ends.
Reading at the end of the source, or after an error, leaves the cursor where it is.
-/

namespace CodonGrammar.Bnf

open Text (apostrophe isBlank isPrintable)

def terminalOf (chars : List Char) (hQuoteFree : apostrophe ∉ chars) : Terminal :=
  ⟨String.ofList chars, by simpa using hQuoteFree⟩

/-- What stands at the front of characters that do not start with a blank. -/
inductive Front where
  /-- A lexeme, written with the characters `read`, before the characters `rest`. -/
  | lexeme (lexeme : Lexeme) (read rest : List Char)
  /-- Nothing at all. -/
  | finish
  /-- A character that starts no lexeme. -/
  | invalid (char : Char)
  /-- An apostrophe that no other one follows. -/
  | unclosed

namespace Front

/-- A name between angle brackets: name characters and spaces, directly before `>`. -/
def ofBracketedName? (chars : List Char) : Option Front :=
  if (chars.dropWhile isBracketedNamePart).head? = some '>' then
    let text := terminalOf (chars.takeWhile isBracketedNamePart)
      (apostrophe_not_mem_takeWhile isBracketedNamePart_apostrophe chars)
    some (.lexeme (.word .name text) (chars.takeWhile isBracketedNamePart)
      (chars.dropWhile isBracketedNamePart))
  else
    none

/-- A name, or the bare run that it is only the beginning of. -/
def ofName (chars : List Char) : Front :=
  let name := chars.takeWhile isNamePart
  let after := chars.dropWhile isNamePart
  have hNameFree : apostrophe ∉ name := apostrophe_not_mem_takeWhile isNamePart_apostrophe chars
  if endsBareRun after then
    .lexeme (.word .name (terminalOf name hNameFree)) name after
  else
    have hRunFree : apostrophe ∉ name ++ bareRun after := by
      simp [hNameFree, apostrophe_not_mem_bareRun]
    .lexeme (.word .bare (terminalOf (name ++ bareRun after) hRunFree)) (name ++ bareRun after)
      (afterBareRun after)

/-- A quoted text, from the characters after its first apostrophe. -/
def ofQuoted (chars : List Char) : Front :=
  match chars.dropWhile (· != apostrophe) with
  | [] => .unclosed
  | _ :: after =>
    let inner := chars.takeWhile (· != apostrophe)
    let text := terminalOf inner (apostrophe_not_mem_takeWhile (by simp) chars)
    .lexeme (.word .quoted text) (apostrophe :: inner ++ [apostrophe]) after

def ofBareRun (chars : List Char) : Front :=
  .lexeme (.word .bare (terminalOf (bareRun chars) (apostrophe_not_mem_bareRun chars)))
    (bareRun chars) (afterBareRun chars)

/-- What stands at the front of the characters; `afterLt` says whether `<` stands before them. -/
def of (afterLt : Bool) (chars : List Char) : Front :=
  match chars with
  | [] => .finish
  | c :: rest =>
    if startsWithAssign chars then
      .lexeme (.mark .assign) assignText (chars.drop assignText.length)
    else
      match Mark.ofChar? c with
      | some mark => .lexeme (.mark mark) [c] rest
      | none =>
        if isNameStart c then
          match if afterLt then ofBracketedName? chars else none with
          | some front => front
          | none => ofName chars
        else if c = apostrophe then ofQuoted rest
        else if isPrintable c then ofBareRun chars
        else .invalid c

end Front

/-- A place in a source: the character before it, the characters after it, and how many characters
of the source lie before it. -/
structure Cursor where
  previous : Option Char
  rest : List Char
  position : Nat

namespace Cursor

def ofSource (source : String) : Cursor := ⟨none, source.toList, 0⟩

/-- The cursor moved past the characters `read`, with the characters `rest` after it. -/
def past (cursor : Cursor) (read rest : List Char) : Cursor :=
  ⟨read.getLast?.or cursor.previous, rest, cursor.position + read.length⟩

/-- The cursor moved past the blanks that follow it. -/
def skipBlanks (cursor : Cursor) : Cursor :=
  cursor.past (cursor.rest.takeWhile isBlank) (cursor.rest.dropWhile isBlank)

/-- Reads one token. -/
def next (cursor : Cursor) : Except Error Token × Cursor :=
  let here := cursor.skipBlanks
  match Front.of (here.previous == some '<') here.rest with
  | .lexeme lexeme read rest => (.ok ⟨lexeme, here.position⟩, here.past read rest)
  | .finish => (.ok ⟨.finish, here.position⟩, here)
  | .invalid char => (.error (.lexical char here.position), here)
  | .unclosed =>
    let after := here.past here.rest []
    (.error (.misplaced .closingQuote ⟨.finish, after.position⟩), after)

/-- Reads tokens a number of times and keeps each answer with the cursor after it. -/
def readTimes : Nat → Cursor → List (Except Error Token × Cursor)
  | 0, _ => []
  | times + 1, cursor => cursor.next :: readTimes times cursor.next.2

end Cursor

/-! ## Every lexeme takes characters from the source -/

namespace Front

/-- A lexeme is made of the characters at the front, and takes at least one of them. -/
def TakesFrom (chars : List Char) (front : Front) : Prop :=
  ∀ lexeme read rest, front = .lexeme lexeme read rest →
    read ++ rest = chars ∧ read ≠ [] ∧ lexeme ≠ .finish

theorem takesFrom_ofBracketedName? {c : Char} {rest : List Char} {front : Front}
    (hStart : isNameStart c = true) (h : ofBracketedName? (c :: rest) = some front) :
    TakesFrom (c :: rest) front := by
  have hPart : isBracketedNamePart c = true := by
    rw [isNameStart, Bool.or_eq_true] at hStart
    rcases hStart with hLetter | hUnderscore
    · simp [isBracketedNamePart, isNamePart, Text.isAlphanumeric_of_isLetter hLetter]
    · simp [isBracketedNamePart, isNamePart, hUnderscore]
  unfold ofBracketedName? at h
  split at h
  · cases h
    intro lexeme read after hFront
    cases hFront
    exact ⟨List.takeWhile_append_dropWhile, by simp [hPart], by simp⟩
  · cases h

theorem takesFrom_ofName {c : Char} {rest : List Char} (hStart : isNameStart c = true) :
    TakesFrom (c :: rest) (ofName (c :: rest)) := by
  have hPart : isNamePart c = true := by
    rw [isNameStart, Bool.or_eq_true] at hStart
    rcases hStart with hLetter | hUnderscore
    · simp [isNamePart, Text.isAlphanumeric_of_isLetter hLetter]
    · simp [isNamePart, hUnderscore]
  intro lexeme read after hFront
  unfold ofName at hFront
  simp only at hFront
  split at hFront
  · cases hFront
    exact ⟨List.takeWhile_append_dropWhile, by simp [hPart], by simp⟩
  · cases hFront
    refine ⟨?_, by simp [hPart], by simp⟩
    rw [List.append_assoc, bareRun_append_afterBareRun, List.takeWhile_append_dropWhile]

theorem takesFrom_ofQuoted (rest : List Char) :
    TakesFrom (apostrophe :: rest) (ofQuoted rest) := by
  intro lexeme read after hFront
  unfold ofQuoted at hFront
  split at hFront
  · cases hFront
  · next c _ hSplit =>
    cases hFront
    have hClosing : c = apostrophe := by
      have hStops := List.head_dropWhile_not (· != apostrophe) (l := rest) (by simp [hSplit])
      simpa [hSplit] using hStops
    refine ⟨?_, by simp, by simp⟩
    have hWhole := List.takeWhile_append_dropWhile (p := (· != apostrophe)) (l := rest)
    rw [hSplit, hClosing] at hWhole
    simp [hWhole]

theorem takesFrom_ofBareRun {c : Char} {rest : List Char}
    (hGoesOn : endsBareRun (c :: rest) = false) :
    TakesFrom (c :: rest) (ofBareRun (c :: rest)) := by
  intro lexeme read after hFront
  cases hFront
  exact ⟨bareRun_append_afterBareRun _, by simp [bareRun, hGoesOn], by simp⟩

theorem takesFrom_of {afterLt : Bool} {chars : List Char}
    (hVisible : ∀ c, chars.head? = some c → isBlank c = false) :
    TakesFrom chars (of afterLt chars) := by
  unfold of
  split
  · intro lexeme read rest hFront
    cases hFront
  · next c rest =>
    have hFirst : isBlank c = false := hVisible c rfl
    split
    · next hAssign =>
      intro lexeme read after hFront
      cases hFront
      obtain ⟨behind, hWhole⟩ := List.isPrefixOf_iff_prefix.mp hAssign
      refine ⟨?_, by simp [assignText], by simp⟩
      rw [← hWhole]
      simp
    · next hNoAssign =>
      split
      · intro lexeme read after hFront
        cases hFront
        exact ⟨rfl, by simp, by simp⟩
      · next hNoMark =>
        split
        · next hStart =>
          split
          · next front hFound =>
            cases afterLt with
            | true => exact takesFrom_ofBracketedName? hStart hFound
            | false => cases hFound
          · exact takesFrom_ofName hStart
        · split
          · next hQuote =>
            subst hQuote
            exact takesFrom_ofQuoted rest
          · split
            · next hNoQuote hPrintable =>
              apply takesFrom_ofBareRun
              simp [endsBareRun, hFirst, hNoMark, hNoQuote, hNoAssign, hPrintable]
            · intro lexeme read after hFront
              cases hFront

end Front

namespace Cursor

/-- No blank follows a cursor that has skipped blanks. -/
theorem head?_rest_skipBlanks (cursor : Cursor) (c : Char)
    (h : cursor.skipBlanks.rest.head? = some c) : isBlank c = false := by
  have hKept : cursor.rest.dropWhile isBlank ≠ [] := by
    intro hNone
    simp [skipBlanks, past, hNone] at h
  have hStops := List.head_dropWhile_not isBlank (l := cursor.rest) hKept
  have hHead : (cursor.rest.dropWhile isBlank).head hKept = c := by
    simpa [skipBlanks, past, List.head?_eq_some_head hKept] using h
  rwa [hHead] at hStops

theorem length_rest_skipBlanks_le (cursor : Cursor) :
    cursor.skipBlanks.rest.length ≤ cursor.rest.length :=
  (List.dropWhile_suffix isBlank).length_le

/-- A token other than the final one takes at least one character. -/
theorem next_shortens {cursor after : Cursor} {token : Token}
    (h : cursor.next = (.ok token, after)) (hFinish : token.lexeme ≠ .finish) :
    after.rest.length < cursor.rest.length := by
  have hBound := cursor.length_rest_skipBlanks_le
  have hTakes := @Front.takesFrom_of (cursor.skipBlanks.previous == some '<') _
    cursor.head?_rest_skipBlanks
  unfold next at h
  simp only at h
  split at h
  · next lexeme read rest hFront =>
    obtain ⟨hWhole, hSome, _⟩ := hTakes lexeme read rest hFront
    cases h
    rw [← hWhole] at hBound
    have hPositive := List.length_pos_iff.mpr hSome
    simp only [past, List.length_append] at hBound ⊢
    omega
  · cases h
    exact absurd rfl hFinish
  · cases h
  · cases h

/-- Reads all tokens from a cursor on, or fails with the first error. -/
def readAll (cursor : Cursor) : Except Error TokenList :=
  match _hAnswer : cursor.next with
  | (.error error, _) => .error error
  | (.ok token, after) =>
    if _hFinish : token.lexeme = .finish then
      .ok ⟨[], token.position⟩
    else
      match after.readAll with
      | .error error => .error error
      | .ok list => .ok ⟨token :: list.tokens, list.endPosition⟩
termination_by cursor.rest.length
decreasing_by exact next_shortens _hAnswer _hFinish

end Cursor

/-- The tokens of a source. -/
def tokenize (source : String) : Except Error TokenList :=
  (Cursor.ofSource source).readAll

end CodonGrammar.Bnf
