import CodonGrammar.Proofs.Bnf.Lexemes
import Mathlib.Logic.Function.Iterate

/-!
# The progress of a reader

A reader of a source is called again and again, also after the end of the source or after an error.
Each call moves it forward over characters of the source, past the lexeme that it answers with. So
the calls come to the end of the source or to an error, and what they answer from there on is known
(`advances`).

Two answers leave the reader in front of what it has found: the end of the source, and a character
that starts no lexeme. To skip blanks there changes nothing, so such an answer comes again and again
(`Cursor.next_next_of_stops`). An open quote takes the reader to the end of the source instead.
-/

namespace CodonGrammar.Bnf

open Text (apostrophe isBlank)

namespace Cursor

/-! ## One call -/

namespace Reads

variable {before rest : List Char} {place : Cursor}

theorem exists_read {answer : Except Error Token} (h : Reads before rest answer place) :
    ∃ read left, rest = read ++ left ∧ place = between (before ++ read) left := by
  cases h with
  | finish => exact ⟨rest, [], (List.append_nil _).symm, rfl⟩
  | @invalid blanks c after => exact ⟨blanks, c :: after, rfl, rfl⟩
  | unclosed => exact ⟨_, [], (List.append_nil _).symm, rfl⟩
  | @lexeme blanks after lexeme =>
    exact ⟨blanks ++ lexeme.written, after, (List.append_assoc _ _ _).symm, rfl⟩

theorem exists_blanks {token : Token} (h : Reads before rest (.ok token) place)
    (hToken : token.lexeme ≠ .finish) :
    ∃ blanks after, rest = blanks ++ (token.lexeme.written ++ after) ∧
      token.lexeme.written ≠ [] ∧ token.position = (before ++ blanks).length ∧
      place = between (before ++ (blanks ++ token.lexeme.written)) after := by
  cases h with
  | finish => exact absurd rfl hToken
  | @lexeme blanks after _ _ hSome => exact ⟨blanks, after, rfl, hSome, rfl, rfl⟩

theorem position_finish {position : Nat} (h : Reads before rest (.ok ⟨.finish, position⟩) place) :
    position = (before ++ rest).length := by
  cases h with
  | finish => rfl
  | lexeme _ hSome => exact absurd rfl hSome

theorem position_lexical {c : Char} {position : Nat}
    (h : Reads before rest (.error (.lexical c position)) place) : place.position = position := by
  cases h with
  | invalid => rfl

/-- The only thing that a call misses is a closing quote, and it looks for it up to the end. -/
theorem misplaced {expected : Expected} {actual : Token}
    (h : Reads before rest (.error (.misplaced expected actual)) place) :
    expected = .closingQuote ∧ actual = ⟨.finish, (before ++ rest).length⟩ ∧
      place = between (before ++ rest) [] := by
  cases h with
  | unclosed => exact ⟨rfl, rfl, rfl⟩

end Reads

theorem next_between_nil (before : List Char) :
    (between before []).next = (.ok ⟨.finish, before.length⟩, between before []) := by
  simp [next, skipBlanks, past, between, Front.of]

theorem skipBlanks_skipBlanks (cursor : Cursor) :
    cursor.skipBlanks.skipBlanks = cursor.skipBlanks := by
  obtain ⟨previous, rest, position⟩ := cursor
  obtain ⟨blanks, chars, rfl, hBlanks, hHead⟩ := Cursor.exists_blanks rest
  rw [skipBlanks_append previous position hBlanks hHead]
  exact skipBlanks_append _ _ (List.forall_mem_nil _) hHead

theorem next_skipBlanks (cursor : Cursor) : cursor.skipBlanks.next = cursor.next := by
  rw [next, skipBlanks_skipBlanks, next]

/-- An answer with which the reader stays in front of what it has found. -/
inductive Stops : Except Error Token → Prop where
  | finish (position : Nat) : Stops (.ok ⟨.finish, position⟩)
  | invalid (char : Char) (position : Nat) : Stops (.error (.lexical char position))

theorem next_snd_of_stops {cursor : Cursor} (h : Stops cursor.next.1) :
    cursor.next.2 = cursor.skipBlanks := by
  have hTakes := @Front.takesFrom_of (cursor.skipBlanks.previous == some '<') _
    cursor.head?_rest_skipBlanks
  unfold next at h ⊢
  dsimp only at h ⊢
  generalize Front.of (cursor.skipBlanks.previous == some '<') cursor.skipBlanks.rest = front
    at h hTakes ⊢
  cases front with
  | lexeme lexeme read rest =>
    have hLexeme := (hTakes lexeme read rest rfl).2.2
    cases h
    exact absurd rfl hLexeme
  | finish => rfl
  | invalid => rfl
  | unclosed => cases h

/-- The call after such an answer is the same call again. -/
theorem next_next_of_stops {cursor : Cursor} (h : Stops cursor.next.1) :
    cursor.next.2.next = cursor.next := by
  rw [next_snd_of_stops h, next_skipBlanks]

/-! ## Many calls -/

/-- The cursor after a number of calls. -/
def afterCalls (cursor : Cursor) (calls : Nat) : Cursor :=
  (fun place => place.next.2)^[calls] cursor

theorem afterCalls_succ (cursor : Cursor) (calls : Nat) :
    cursor.afterCalls (calls + 1) = (cursor.afterCalls calls).next.2 :=
  Function.iterate_succ_apply' _ calls cursor

theorem afterCalls_add (cursor : Cursor) (calls more : Nat) :
    cursor.afterCalls (calls + more) = (cursor.afterCalls calls).afterCalls more := by
  rw [afterCalls, Nat.add_comm, Function.iterate_add_apply]
  rfl

theorem readTimes_eq_map (times : Nat) (cursor : Cursor) :
    readTimes times cursor = (List.range times).map fun calls => (cursor.afterCalls calls).next := by
  induction times generalizing cursor with
  | zero => rfl
  | succ times ih =>
    rw [readTimes, ih, List.range_succ_eq_map, List.map_cons, List.map_map]
    rfl

theorem next_afterCalls_of_stops {cursor : Cursor} (h : Stops cursor.next.1) (calls : Nat) :
    (cursor.afterCalls calls).next = cursor.next := by
  induction calls with
  | zero => rfl
  | succ calls ih => rw [afterCalls_succ, next_next_of_stops (ih ▸ h), ih]

end Cursor

/-! ## The calls of one reader -/

/-- The place of a reader of the source after a number of calls. -/
def placeAfter (source : String) (calls : Nat) : Cursor :=
  (Cursor.ofSource source).afterCalls calls

/-- The answer of a reader of the source after a number of calls, to one more. -/
def answerAfter (source : String) (calls : Nat) : Except Error Token :=
  (placeAfter source calls).next.1

/-- The end of the source or an error. -/
def Ends (answer : Except Error Token) : Prop :=
  (∃ position, answer = .ok ⟨.finish, position⟩) ∨ ∃ error, answer = .error error

theorem ends_or_lexeme (answer : Except Error Token) :
    Ends answer ∨ ∃ token, answer = .ok token ∧ token.lexeme ≠ .finish := by
  rcases answer with error | ⟨lexeme, position⟩
  · exact .inl (.inr ⟨error, rfl⟩)
  · by_cases hLexeme : lexeme = .finish
    · exact .inl (.inl ⟨position, hLexeme ▸ rfl⟩)
    · exact .inr ⟨_, rfl, hLexeme⟩

section Calls

variable {source : String} {calls : Nat}

theorem placeAfter_succ (source : String) (calls : Nat) :
    placeAfter source (calls + 1) = (placeAfter source calls).next.2 :=
  Cursor.afterCalls_succ _ calls

/-- The reader stands between two parts of the source. -/
theorem exists_placeAfter (source : String) (calls : Nat) :
    ∃ before rest, source.toList = before ++ rest ∧
      placeAfter source calls = .between before rest := by
  induction calls with
  | zero => exact ⟨[], source.toList, rfl, rfl⟩
  | succ calls ih =>
    obtain ⟨before, rest, hSource, hPlace⟩ := ih
    obtain ⟨read, left, rfl, hNext⟩ := (Cursor.reads_next before rest).exists_read
    refine ⟨before ++ read, left, by rw [hSource, List.append_assoc], ?_⟩
    rw [placeAfter_succ, hPlace, hNext]

/-- What one more call does, with the parts of the source between which it starts. -/
theorem exists_reads (source : String) (calls : Nat) :
    ∃ before rest, source.toList = before ++ rest ∧
      (placeAfter source calls).position = before.length ∧
      Cursor.Reads before rest (answerAfter source calls) (placeAfter source (calls + 1)) := by
  obtain ⟨before, rest, hSource, hPlace⟩ := exists_placeAfter source calls
  refine ⟨before, rest, hSource, by rw [hPlace]; rfl, ?_⟩
  rw [answerAfter, placeAfter_succ, hPlace]
  exact Cursor.reads_next before rest

theorem position_placeAfter_le (source : String) (calls : Nat) :
    (placeAfter source calls).position ≤ source.length := by
  obtain ⟨before, rest, hSource, hPlace⟩ := exists_placeAfter source calls
  rw [hPlace, ← String.length_toList, hSource, List.length_append]
  exact Nat.le_add_right _ _

theorem position_placeAfter_succ (source : String) (calls : Nat) :
    (placeAfter source calls).position ≤ (placeAfter source (calls + 1)).position := by
  obtain ⟨before, rest, -, hBefore, hReads⟩ := exists_reads source calls
  obtain ⟨read, left, -, hNext⟩ := hReads.exists_read
  rw [hBefore, hNext, Cursor.between, List.length_append]
  exact Nat.le_add_right _ _

/-- A call with a lexeme ends directly behind it. -/
theorem exists_written {token : Token} (hAnswer : answerAfter source calls = .ok token)
    (hToken : token.lexeme ≠ .finish) :
    (placeAfter source calls).position < (placeAfter source (calls + 1)).position ∧
      ∃ front back, source.toList = front ++ token.lexeme.written ++ back ∧
        token.position = front.length ∧
        (placeAfter source (calls + 1)).position = (front ++ token.lexeme.written).length := by
  obtain ⟨before, rest, hSource, hBefore, hReads⟩ := exists_reads source calls
  rw [hAnswer] at hReads
  obtain ⟨blanks, after, rfl, hSome, hPosition, hNext⟩ := hReads.exists_blanks hToken
  have hPositive := List.length_pos_iff.mpr hSome
  rw [hBefore, hNext, Cursor.between]
  refine ⟨?_, before ++ blanks, after, ?_, hPosition, by rw [List.append_assoc]⟩
  · simp only [List.length_append]
    omega
  · rw [hSource]
    simp only [List.append_assoc]

/-- Each call with a lexeme takes at least one character of the source. -/
theorem exists_ends_or_le_position (source : String) (calls : Nat) :
    (∃ earlier < calls, Ends (answerAfter source earlier)) ∨
      calls ≤ (placeAfter source calls).position := by
  induction calls with
  | zero => exact .inr (Nat.zero_le _)
  | succ calls ih =>
    rcases ih with ⟨earlier, hEarlier, hEnds⟩ | hLe
    · exact .inl ⟨earlier, Nat.lt_succ_of_lt hEarlier, hEnds⟩
    · rcases ends_or_lexeme (answerAfter source calls) with hEnds | ⟨token, hAnswer, hToken⟩
      · exact .inl ⟨calls, Nat.lt_succ_self calls, hEnds⟩
      · exact .inr (Nat.lt_of_le_of_lt hLe (exists_written hAnswer hToken).1)

theorem exists_ends (source : String) :
    ∃ calls ≤ source.length, Ends (answerAfter source calls) := by
  rcases exists_ends_or_le_position source (source.length + 1) with ⟨calls, hLess, hEnds⟩ | hLe
  · exact ⟨calls, Nat.le_of_lt_succ hLess, hEnds⟩
  · exact absurd (Nat.le_trans hLe (position_placeAfter_le source _)) (Nat.not_succ_le_self _)

theorem next_of_stops {later : Nat} (hStops : Cursor.Stops (answerAfter source calls))
    (hLater : calls ≤ later) : (placeAfter source later).next = (placeAfter source calls).next := by
  obtain ⟨more, rfl⟩ := Nat.exists_eq_add_of_le hLater
  rw [placeAfter, Cursor.afterCalls_add]
  exact Cursor.next_afterCalls_of_stops hStops more

/-- Behind an open quote only the end of the source is left. -/
theorem next_of_misplaced {later : Nat} {expected : Expected} {actual : Token}
    (hAnswer : answerAfter source calls = .error (.misplaced expected actual))
    (hLater : calls < later) :
    (placeAfter source later).position = source.length ∧
      answerAfter source later = .ok ⟨.finish, source.length⟩ := by
  obtain ⟨before, rest, hSource, -, hReads⟩ := exists_reads source calls
  rw [hAnswer] at hReads
  obtain ⟨-, -, hPlace⟩ := hReads.misplaced
  rw [← hSource] at hPlace
  obtain ⟨more, rfl⟩ := Nat.exists_eq_add_of_le (Nat.succ_le_of_lt hLater)
  have hEnd : placeAfter source (calls + 1 + more) = .between source.toList [] := by
    induction more with
    | zero => exact hPlace
    | succ more ih =>
      rw [← Nat.add_assoc, placeAfter_succ, ih (by omega), Cursor.next_between_nil]
  rw [answerAfter, hEnd, Cursor.next_between_nil, ← String.length_toList]
  exact ⟨rfl, rfl⟩

end Calls

/-- How a reader of the source goes on from call to call. -/
structure Advances (source : String) : Prop where
  /-- The calls are those that reading a number of times makes. -/
  readTimes_eq : ∀ times, Cursor.readTimes times (.ofSource source)
    = (List.range times).map fun calls =>
        (answerAfter source calls, placeAfter source (calls + 1))
  forward : ∀ calls,
    (placeAfter source calls).position ≤ (placeAfter source (calls + 1)).position
  inside : ∀ calls, (placeAfter source calls).position ≤ source.length
  /-- A lexeme leaves the reader further on, directly behind its own characters. -/
  past_lexeme : ∀ calls token, answerAfter source calls = .ok token → token.lexeme ≠ .finish →
    (placeAfter source calls).position < (placeAfter source (calls + 1)).position ∧
      ∃ front back, source.toList = front ++ token.lexeme.written ++ back ∧
        token.position = front.length ∧
        (placeAfter source (calls + 1)).position = (front ++ token.lexeme.written).length
  /-- The end of the source or an error comes soon enough. -/
  ends : ∃ calls ≤ source.length, Ends (answerAfter source calls)
  finish : ∀ calls token, answerAfter source calls = .ok token → token.lexeme = .finish →
    token.position = source.length ∧
      ∀ later ≥ calls, answerAfter source later = .ok token
  invalid : ∀ calls c position, answerAfter source calls = .error (.lexical c position) →
    ∀ later ≥ calls, (placeAfter source (later + 1)).position = position ∧
      answerAfter source later = .error (.lexical c position)
  /-- The other error is an open quote. -/
  unclosed : ∀ calls expected actual,
    answerAfter source calls = .error (.misplaced expected actual) →
    expected = .closingQuote ∧ actual = ⟨.finish, source.length⟩ ∧
      ∀ later > calls, (placeAfter source later).position = source.length ∧
        answerAfter source later = .ok ⟨.finish, source.length⟩

/-- A reader goes forward to the end of the source or to an error, whatever the source is, and from
there on its answers stay the same. -/
theorem advances (source : String) : Advances source where
  readTimes_eq times := by
    rw [Cursor.readTimes_eq_map]
    refine List.map_congr_left fun calls _ => ?_
    rw [placeAfter_succ]
    rfl
  forward := position_placeAfter_succ source
  inside := position_placeAfter_le source
  past_lexeme _ _ := exists_written
  ends := exists_ends source
  finish := by
    rintro calls ⟨lexeme, position⟩ hAnswer rfl
    obtain ⟨before, rest, hSource, -, hReads⟩ := exists_reads source calls
    rw [hAnswer] at hReads
    refine ⟨?_, fun later hLater => ?_⟩
    · rw [← String.length_toList, hSource]
      exact hReads.position_finish
    · rw [← hAnswer, answerAfter, next_of_stops (hAnswer ▸ .finish position) hLater, answerAfter]
  invalid := by
    intro calls c position hAnswer later hLater
    have hStops : Cursor.Stops (answerAfter source calls) := hAnswer ▸ .invalid c position
    have hSame := next_of_stops hStops hLater
    have hLast : answerAfter source later = .error (.lexical c position) := by
      rw [← hAnswer, answerAfter, hSame, answerAfter]
    obtain ⟨before, rest, -, -, hReads⟩ := exists_reads source later
    rw [hLast] at hReads
    exact ⟨hReads.position_lexical, hLast⟩
  unclosed := by
    intro calls expected actual hAnswer
    obtain ⟨before, rest, hSource, -, hReads⟩ := exists_reads source calls
    rw [hAnswer] at hReads
    obtain ⟨hExpected, hActual, -⟩ := hReads.misplaced
    rw [← hSource, String.length_toList] at hActual
    exact ⟨hExpected, hActual, fun later hLater => next_of_misplaced hAnswer hLater⟩

end CodonGrammar.Bnf
