import CodonGrammar.Proofs.Bnf.Lexemes
import Mathlib.Algebra.Ring.Parity

/-!
# Sources that cannot be cut into tokens

Whether a source can be cut into tokens depends on its apostrophes and on the characters outside of
quoted texts only. A position is outside if an even number of apostrophes stands before it. A stray
character, one that is neither blank nor printable, is an error at the first outside position that
holds one. Without stray characters, an odd number of apostrophes is an error at the end of the
source, and every other source can be cut into tokens (`tokenize_verdict`).

What has been read is always closed: it has no stray character, and quoted texts in it have ended.
-/

namespace CodonGrammar.Bnf

open Text (apostrophe isBlank isPrintable)

/-! ## Stray characters -/

/-- A position that is not inside a quoted text. -/
def Outside (chars : List Char) (position : Nat) : Prop :=
  Even ((chars.take position).count apostrophe)

/-- An outside position holds this character, which is neither blank nor printable. -/
def StrayAt (chars : List Char) (position : Nat) (c : Char) : Prop :=
  Outside chars position ∧ chars[position]? = some c ∧ isBlank c = false ∧ isPrintable c = false

instance (chars : List Char) (position : Nat) : Decidable (Outside chars position) :=
  inferInstanceAs (Decidable (Even _))

instance (chars : List Char) (position : Nat) (c : Char) :
    Decidable (StrayAt chars position c) :=
  inferInstanceAs (Decidable (_ ∧ _))

theorem strayAt_append_left {front : List Char} {position : Nat} (h : position < front.length)
    (back : List Char) (c : Char) :
    StrayAt (front ++ back) position c ↔ StrayAt front position c := by
  rw [StrayAt, StrayAt, Outside, Outside, List.take_append_of_le_length (Nat.le_of_lt h),
    List.getElem?_append_left h]

theorem strayAt_append_right {front : List Char} (hFront : Even (front.count apostrophe))
    (back : List Char) (position : Nat) (c : Char) :
    StrayAt (front ++ back) (front.length + position) c ↔ StrayAt back position c := by
  rw [StrayAt, StrayAt, Outside, Outside, List.take_length_add_append, List.count_append,
    Nat.even_add, iff_true_left hFront, List.getElem?_append_right (Nat.le_add_right _ _),
    Nat.add_sub_cancel_left]

/-- No character is stray, and every quoted text has ended. -/
structure Closed (chars : List Char) : Prop where
  even : Even (chars.count apostrophe)
  clean : ∀ position c, ¬ StrayAt chars position c

theorem clean_append {front back : List Char} (hFront : Closed front)
    (hBack : ∀ position c, ¬ StrayAt back position c) :
    ∀ position c, ¬ StrayAt (front ++ back) position c := by
  intro position c hStray
  by_cases hLess : position < front.length
  · exact hFront.clean position c ((strayAt_append_left hLess back c).mp hStray)
  · obtain ⟨rest, rfl⟩ := Nat.exists_eq_add_of_le (Nat.not_lt.mp hLess)
    exact hBack rest c ((strayAt_append_right hFront.even back rest c).mp hStray)

namespace Closed

theorem nil : Closed [] := ⟨by simp, by simp [StrayAt]⟩

theorem append {front back : List Char} (hFront : Closed front) (hBack : Closed back) :
    Closed (front ++ back) where
  even := by
    rw [List.count_append]
    exact hFront.even.add hBack.even
  clean := clean_append hFront hBack.clean

theorem of_seen {chars : List Char}
    (h : ∀ c ∈ chars, c ≠ apostrophe ∧ (isBlank c = true ∨ isPrintable c = true)) :
    Closed chars where
  even := by
    have hFree : apostrophe ∉ chars := fun hMem => (h _ hMem).1 rfl
    rw [List.count_eq_zero_of_not_mem hFree]
    exact Even.zero
  clean := by
    rintro position c ⟨-, hChar, hBlank, hPrintable⟩
    rcases (h c (List.mem_of_getElem? hChar)).2 with hSeen | hSeen
    · rw [hBlank] at hSeen
      cases hSeen
    · rw [hPrintable] at hSeen
      cases hSeen

theorem blanks {chars : List Char} (h : ∀ c ∈ chars, isBlank c = true) : Closed chars := by
  refine of_seen fun c hMem => ⟨?_, .inl (h c hMem)⟩
  rintro rfl
  exact absurd (h _ hMem) (by decide)

end Closed

/-- Behind an apostrophe all positions up to the next one are inside. -/
theorem clean_quote {inner : List Char} (hFree : apostrophe ∉ inner) (after : List Char)
    (position : Nat) (hPosition : position ≤ inner.length + 1) (c : Char) :
    ¬ StrayAt (apostrophe :: (inner ++ after)) position c := by
  rintro ⟨hOutside, hChar, -, hPrintable⟩
  cases position with
  | zero =>
    cases hChar
    exact absurd hPrintable (by decide)
  | succ position =>
    have hLength : position ≤ inner.length := by omega
    have hNone : (inner.take position).count apostrophe = 0 :=
      List.count_eq_zero_of_not_mem fun hMem => hFree (List.mem_of_mem_take hMem)
    rw [Outside, List.take_succ_cons, List.take_append_of_le_length hLength,
      List.count_cons_self, hNone] at hOutside
    exact absurd hOutside (by decide)

theorem Closed.quoted {inner : List Char} (hFree : apostrophe ∉ inner) :
    Closed (apostrophe :: inner ++ [apostrophe]) where
  even := by
    rw [List.cons_append, List.count_cons_self, List.count_append,
      List.count_eq_zero_of_not_mem hFree]
    decide
  clean := by
    intro position c hStray
    refine clean_quote hFree [apostrophe] position ?_ c hStray
    have hLess := (List.getElem?_eq_some_iff.mp hStray.2.1).1
    simp only [List.cons_append, List.length_cons, List.length_append, List.length_nil] at hLess
    omega

theorem IsBare.closed {text : List Char} (h : IsBare text) : Closed text := by
  refine .of_seen fun c hMem => ⟨(h.2 c hMem).2, .inr ?_⟩
  have hForces := (h.2 c hMem).1
  simp only [forcesQuotes, Bool.or_eq_false_iff, Bool.not_eq_false'] at hForces
  exact hForces.2

theorem closed_of_isBracketedNamePart {text : List Char}
    (h : ∀ c ∈ text, isBracketedNamePart c = true) : Closed text := by
  refine .of_seen fun c hMem => ⟨ne_apostrophe_of_isBracketedNamePart (h c hMem), .inr ?_⟩
  have hPart := h c hMem
  simp only [isBracketedNamePart, Bool.or_eq_true, beq_iff_eq] at hPart
  rcases hPart with hName | rfl
  · exact isPrintable_of_isNamePart hName
  · decide

theorem Mark.closed (mark : Mark) : Closed mark.text := by
  have hSeen : mark.text.all (fun c => c != apostrophe && isPrintable c) = true := by
    cases mark <;> decide
  refine .of_seen fun c hMem => ?_
  have hChar := List.all_eq_true.mp hSeen c hMem
  rw [Bool.and_eq_true, bne_iff_ne] at hChar
  exact ⟨hChar.1, .inr hChar.2⟩

theorem Lexeme.Stands.closed {lexeme : Lexeme} {before after : List Char}
    (h : lexeme.Stands before after) : Closed lexeme.written := by
  cases h with
  | mark mark after => simpa [written, value] using mark.closed
  | quoted text after => exact .quoted text.quoteFree
  | bracketedName _ hParts _ => exact closed_of_isBracketedNamePart hParts
  | name hParts _ =>
    exact closed_of_isBracketedNamePart fun c hMem =>
      isBracketedNamePart_of_isNamePart (hParts c hMem)
  | bare hBare _ => exact hBare.closed

/-! ## Verdicts -/

/-- What the apostrophes and the stray characters of a source say about reading its tokens. -/
inductive Verdict (chars : List Char) : Except Error TokenList → Prop where
  | stray {position : Nat} {c : Char} : StrayAt chars position c →
      (∀ earlier < position, ∀ d, ¬ StrayAt chars earlier d) →
      Verdict chars (.error (.lexical c position))
  | unclosed : (∀ position c, ¬ StrayAt chars position c) → Odd (chars.count apostrophe) →
      Verdict chars (.error (.misplaced .closingQuote ⟨.finish, chars.length⟩))
  | closed (list : TokenList) : Closed chars → Verdict chars (.ok list)

theorem Verdict.map {chars : List Char} {outcome : Except Error TokenList}
    (h : Verdict chars outcome) (f : TokenList → TokenList) : Verdict chars (outcome.map f) := by
  cases h with
  | stray hStray hFirst => exact .stray hStray hFirst
  | unclosed hClean hOdd => exact .unclosed hClean hOdd
  | closed list hClosed => exact .closed (f list) hClosed

/-- The first stray character stands behind what is closed. -/
theorem Verdict.stray_of_closed {front : List Char} (hFront : Closed front) {c : Char}
    (hBlank : isBlank c = false) (hPrintable : isPrintable c = false) (after : List Char) :
    Verdict (front ++ c :: after) (.error (.lexical c front.length)) := by
  refine .stray ?_ ?_
  · have hHere := strayAt_append_right hFront.even (c :: after) 0 c
    refine hHere.mpr ⟨by simp [Outside], rfl, hBlank, hPrintable⟩
  · intro earlier hLess d hStray
    exact hFront.clean earlier d ((strayAt_append_left hLess _ d).mp hStray)

theorem Verdict.unclosed_of_closed {front : List Char} (hFront : Closed front)
    {after : List Char} (hFree : apostrophe ∉ after) :
    Verdict (front ++ apostrophe :: after)
      (.error (.misplaced .closingQuote ⟨.finish, (front ++ apostrophe :: after).length⟩)) := by
  refine .unclosed (clean_append hFront ?_) ?_
  · intro position c hStray
    have hLess := (List.getElem?_eq_some_iff.mp hStray.2.1).1
    rw [List.length_cons] at hLess
    rw [← List.append_nil after] at hStray
    exact clean_quote hFree [] position (by omega) c hStray
  · rw [List.count_append, List.count_cons_self, List.count_eq_zero_of_not_mem hFree]
    exact hFront.even.add_one

theorem Scans.verdict {before rest : List Char} {outcome : Except Error TokenList}
    (h : Scans before rest outcome) (hBefore : Closed before) :
    Verdict (before ++ rest) outcome := by
  induction h with
  | @finish before blanks hBlanks => exact .closed _ (hBefore.append (.blanks hBlanks))
  | @invalid before blanks c after hBlanks hVisible hPrintable =>
    rw [← List.append_assoc]
    exact .stray_of_closed (hBefore.append (.blanks hBlanks)) hVisible hPrintable after
  | @unclosed before blanks after hBlanks hFree =>
    rw [← List.append_assoc]
    exact .unclosed_of_closed (hBefore.append (.blanks hBlanks)) hFree
  | @lexeme before blanks after lexeme outcome hBlanks _ hStands _ ih =>
    have hRead := hBefore.append ((Closed.blanks hBlanks).append hStands.closed)
    have hVerdict := (ih hRead).map (TokenList.prepend ⟨lexeme, (before ++ blanks).length⟩)
    simpa only [List.append_assoc] using hVerdict

/-- A source with a stray character is rejected at the first one. Without any, it is rejected at its
end for the closing quote that is missing, if its number of apostrophes is odd, and otherwise it can
be cut into tokens. -/
theorem tokenize_verdict (source : String) :
    ((∃ position c, StrayAt source.toList position c) →
      ∃ position c, StrayAt source.toList position c ∧
        (∀ earlier < position, ∀ d, ¬ StrayAt source.toList earlier d) ∧
        tokenize source = .error (.lexical c position)) ∧
    ((∀ position c, ¬ StrayAt source.toList position c) →
      (Odd (source.toList.count apostrophe) →
        tokenize source = .error (.misplaced .closingQuote ⟨.finish, source.length⟩) ∧
          Expected.closingQuote.shown = "closing quote of QUOTED_STRING") ∧
      (¬ Odd (source.toList.count apostrophe) → ∃ list, tokenize source = .ok list)) := by
  have hVerdict : Verdict source.toList (tokenize source) :=
    (scans_readAll [] source.toList).verdict .nil
  generalize tokenize source = outcome at hVerdict
  cases hVerdict with
  | @stray position c hStray hFirst =>
    exact ⟨fun _ => ⟨position, c, hStray, hFirst, rfl⟩,
      fun hClean => absurd hStray (hClean position c)⟩
  | unclosed hClean hOdd =>
    refine ⟨fun ⟨position, c, hStray⟩ => absurd hStray (hClean position c), fun _ => ⟨?_, ?_⟩⟩
    · intro _
      rw [String.length_toList]
      exact ⟨rfl, rfl⟩
    · exact fun hEven => absurd hOdd hEven
  | closed list hClosed =>
    refine ⟨fun ⟨position, c, hStray⟩ => absurd hStray (hClosed.clean position c),
      fun _ => ⟨?_, ?_⟩⟩
    · exact fun hOdd => absurd hClosed.even (Nat.not_even_iff_odd.mpr hOdd)
    · exact fun _ => ⟨list, rfl⟩

/-- A control character is an error outside of a quoted text, where it comes before an open quote,
and none inside. -/
theorem tokenize_verdict_quoted :
    (∃ c, tokenize "\x01'" = .error (.lexical c 0)) ∧
      tokenize "'\x01''" = .error (.misplaced .closingQuote ⟨.finish, 4⟩) := by
  constructor
  · have hHere : StrayAt "\x01'".toList 0 '\x01' := by decide
    obtain ⟨position, c, -, hFirst, hError⟩ := (tokenize_verdict "\x01'").1 ⟨0, _, hHere⟩
    have hZero : position = 0 := by
      cases position with
      | zero => rfl
      | succ position => exact absurd hHere (hFirst 0 (Nat.succ_pos position) _)
    exact ⟨c, hZero ▸ hError⟩
  · refine (((tokenize_verdict "'\x01''").2 ?_).1 (by decide)).1
    rintro position c ⟨hOutside, hChar, -, hPrintable⟩
    match position with
    | 0 =>
      cases hChar
      exact absurd hPrintable (by decide)
    | 1 => exact absurd hOutside (by decide)
    | 2 | 3 =>
      cases hChar
      exact absurd hPrintable (by decide)
    | position + 4 => cases hChar

end CodonGrammar.Bnf
