import CodonGrammar.Proofs.Bnf.TokenReading

/-!
# Lexemes in their places

Reading the tokens of a source takes it apart from its beginning to its end. `Scans` describes this
without the reader: what stands before the present place has been read, blanks are skipped, and then
there is the end of the source, a lexeme that may stand in this place (`Lexeme.Stands`), a character
of no token, or an apostrophe without another one behind it. Every source is scanned, with the
outcome that reading it has (`scans_readAll`), so what holds of all scans holds of `tokenize`.
-/

namespace CodonGrammar.Bnf

open Text (apostrophe isBlank isAlphanumeric isPrintable isPrintable_of_isAlphanumeric)

/-! ## Characters of words -/

theorem isPrintable_of_isNamePart {c : Char} (h : isNamePart c = true) : isPrintable c = true := by
  simp only [isNamePart, Bool.or_eq_true, beq_iff_eq] at h
  rcases h with (hAlphanumeric | rfl) | rfl
  · exact isPrintable_of_isAlphanumeric hAlphanumeric
  · decide
  · decide

theorem ofChar?_of_isNamePart {c : Char} (h : isNamePart c = true) : Mark.ofChar? c = none := by
  unfold Mark.ofChar?
  split
  case h_10 => rfl
  all_goals exact absurd h (by decide)

theorem ne_apostrophe_of_isBracketedNamePart {c : Char} (h : isBracketedNamePart c = true) :
    c ≠ apostrophe := by
  rintro rfl
  rw [isBracketedNamePart_apostrophe] at h
  cases h

theorem forcesQuotes_of_isNamePart {c : Char} (h : isNamePart c = true) :
    forcesQuotes c = false := by
  simp [forcesQuotes, not_isBlank_of_isNamePart h, ofChar?_of_isNamePart h,
    isPrintable_of_isNamePart h]

theorem ne_colon_of_isBracketedNamePart {c : Char} (h : isBracketedNamePart c = true) :
    c ≠ ':' := by
  rintro rfl
  exact absurd h (by decide)

theorem holdsAssign_append_of_ne {front : List Char} (hFront : ∀ c ∈ front, c ≠ ':')
    (back : List Char) : holdsAssign (front ++ back) = holdsAssign back := by
  induction front with
  | nil => rfl
  | cons c front ih =>
    obtain ⟨hColon, hRest⟩ := List.forall_mem_cons.mp hFront
    rw [List.cons_append, holdsAssign, startsWithAssign_cons_of_ne hColon, ih hRest,
      Bool.false_or]

theorem startsWithAssign_append {front : List Char} (h : startsWithAssign front = true)
    (back : List Char) : startsWithAssign (front ++ back) = true := by
  rw [startsWithAssign, List.isPrefixOf_iff_prefix] at h ⊢
  exact h.trans (List.prefix_append front back)

theorem isBare_bareRun (chars : List Char) : IsBare (bareRun chars) := by
  induction chars with
  | nil => exact ⟨rfl, by simp [bareRun]⟩
  | cons c rest ih =>
    rw [bareRun]
    split
    · exact ⟨rfl, by simp⟩
    · rename_i hGoesOn
      simp only [endsBareRun, Bool.or_eq_true, not_or, Bool.not_eq_true, beq_eq_false_iff_ne,
        Bool.not_eq_false'] at hGoesOn
      obtain ⟨⟨⟨⟨hBlank, hMark⟩, hQuote⟩, hAssign⟩, hPrintable⟩ := hGoesOn
      have hStart : startsWithAssign (c :: bareRun rest) = false := by
        refine Bool.eq_false_iff.mpr fun hStarts => ?_
        have hWhole := startsWithAssign_append hStarts (afterBareRun rest)
        rw [List.cons_append, bareRun_append_afterBareRun, hAssign] at hWhole
        cases hWhole
      refine ⟨by rw [holdsAssign, hStart, ih.1, Bool.or_false], List.forall_mem_cons.mpr ⟨?_, ih.2⟩⟩
      exact ⟨by simp [forcesQuotes, hBlank, hMark, hPrintable], hQuote⟩

theorem endsBareRun_afterBareRun (chars : List Char) : endsBareRun (afterBareRun chars) = true := by
  induction chars with
  | nil => rfl
  | cons c rest ih =>
    rw [afterBareRun]
    split
    · assumption
    · exact ih

/-- A bare run stays one behind characters of a name. -/
theorem IsBare.append_left {front back : List Char} (hFront : ∀ c ∈ front, isNamePart c = true)
    (h : IsBare back) : IsBare (front ++ back) := by
  have hParts : ∀ c ∈ front, isBracketedNamePart c = true := fun c hMem =>
    isBracketedNamePart_of_isNamePart (hFront c hMem)
  refine ⟨?_, List.forall_mem_append.mpr ⟨?_, h.2⟩⟩
  · rw [holdsAssign_append_of_ne fun c hMem => ne_colon_of_isBracketedNamePart (hParts c hMem)]
    exact h.1
  · intro c hMem
    exact ⟨forcesQuotes_of_isNamePart (hFront c hMem),
      ne_apostrophe_of_isBracketedNamePart (hParts c hMem)⟩

/-! ## Lexemes -/

/-- The characters of a lexeme in a source: its value, between apostrophes if it is a quoted text.
The end of a source has none. -/
def Lexeme.written (lexeme : Lexeme) : List Char :=
  match lexeme with
  | .word .quoted _ => apostrophe :: lexeme.value.toList ++ [apostrophe]
  | .finish => []
  | _ => lexeme.value.toList

/-- A lexeme may stand between these characters. Marks and quoted texts may stand anywhere, while
other words depend on what is around them. -/
inductive Lexeme.Stands (before : List Char) : Lexeme → List Char → Prop where
  | mark (mark : Mark) (after : List Char) : Stands before (.mark mark) after
  | quoted (text : Terminal) (after : List Char) : Stands before (.word .quoted text) after
  | bracketedName {text : Terminal} {after : List Char} :
      before.getLast? = some '<' → (∀ c ∈ text.text.toList, isBracketedNamePart c = true) →
      after.head? = some '>' → Stands before (.word .name text) after
  | name {text : Terminal} {after : List Char} :
      (∀ c ∈ text.text.toList, isNamePart c = true) → endsBareRun after = true →
      Stands before (.word .name text) after
  | bare {text : Terminal} {after : List Char} :
      IsBare text.text.toList → endsBareRun after = true → Stands before (.word .bare text) after

/-- What is found between characters that have been read and characters that do not start with a
blank. -/
inductive Front.Found (before : List Char) : List Char → Front → Prop where
  | lexeme {chars read after : List Char} {lexeme : Lexeme} :
      read = lexeme.written → chars = read ++ after → read ≠ [] → lexeme.Stands before after →
      Found before chars (.lexeme lexeme read after)
  | finish : Found before [] .finish
  | invalid {c : Char} (after : List Char) : isBlank c = false → isPrintable c = false →
      Found before (c :: after) (.invalid c)
  | unclosed {after : List Char} : apostrophe ∉ after → Found before (apostrophe :: after) .unclosed

namespace Front.Found

variable {before : List Char}

theorem ofBracketedName? {c : Char} {rest : List Char} {front : Front}
    (hBefore : before.getLast? = some '<') (hStart : isNameStart c = true)
    (h : Front.ofBracketedName? (c :: rest) = some front) : Found before (c :: rest) front := by
  have hPart := isBracketedNamePart_of_isNamePart (isNamePart_of_isNameStart hStart)
  rw [Front.ofBracketedName?] at h
  split at h
  · rename_i hClosed
    cases h
    refine .lexeme (by simp [Lexeme.written, Lexeme.value, terminalOf])
      List.takeWhile_append_dropWhile.symm (by simp [hPart]) (.bracketedName hBefore ?_ hClosed)
    simpa [terminalOf] using List.all_eq_true.mp List.all_takeWhile
  · cases h

theorem ofName {c : Char} {rest : List Char} (hStart : isNameStart c = true) :
    Found before (c :: rest) (Front.ofName (c :: rest)) := by
  have hPart := isNamePart_of_isNameStart hStart
  have hWhole := List.takeWhile_append_dropWhile (p := isNamePart) (l := c :: rest)
  have hName : ∀ d ∈ (c :: rest).takeWhile isNamePart, isNamePart d = true :=
    List.all_eq_true.mp List.all_takeWhile
  rw [Front.ofName]
  dsimp only
  split
  · rename_i hEnds
    refine .lexeme (by simp [Lexeme.written, Lexeme.value, terminalOf]) hWhole.symm
      (by simp [hPart]) (.name ?_ hEnds)
    simpa [terminalOf] using hName
  · refine .lexeme (by simp [Lexeme.written, Lexeme.value, terminalOf]) ?_ (by simp [hPart])
      (.bare ?_ (endsBareRun_afterBareRun _))
    · rw [List.append_assoc, bareRun_append_afterBareRun, hWhole]
    · simpa [terminalOf] using IsBare.append_left hName (isBare_bareRun _)

theorem ofQuoted (rest : List Char) :
    Found before (apostrophe :: rest) (Front.ofQuoted rest) := by
  have hWhole := List.takeWhile_append_dropWhile (p := (· != apostrophe)) (l := rest)
  have hFree : apostrophe ∉ rest.takeWhile (· != apostrophe) :=
    apostrophe_not_mem_takeWhile (by simp) rest
  rw [Front.ofQuoted]
  split
  · rename_i hDrop
    rw [hDrop, List.append_nil] at hWhole
    exact .unclosed (hWhole ▸ hFree)
  · rename_i c after hDrop
    have hStops := List.head_dropWhile_not (· != apostrophe) (l := rest) (by simp [hDrop])
    have hClosing : c = apostrophe := by simpa [hDrop] using hStops
    rw [hDrop, hClosing] at hWhole
    refine .lexeme (by simp [Lexeme.written, Lexeme.value, terminalOf]) ?_ (by simp) (.quoted _ _)
    simp only [List.cons_append, List.append_assoc, List.nil_append, hWhole]

theorem ofBareRun {c : Char} {rest : List Char} (hGoesOn : endsBareRun (c :: rest) = false) :
    Found before (c :: rest) (Front.ofBareRun (c :: rest)) := by
  refine .lexeme (by simp [Lexeme.written, Lexeme.value, terminalOf])
    (bareRun_append_afterBareRun _).symm (by simp [bareRun, hGoesOn])
    (.bare ?_ (endsBareRun_afterBareRun _))
  simpa [terminalOf] using isBare_bareRun _

end Front.Found

/-- Whatever the characters are, one of these things is found. -/
theorem Front.found_of (before : List Char) {chars : List Char}
    (hHead : ∀ c, chars.head? = some c → isBlank c = false) :
    Found before chars (Front.of (before.getLast? == some '<') chars) := by
  unfold Front.of
  split
  · exact .finish
  · rename_i c rest
    have hVisible : isBlank c = false := hHead c rfl
    split
    · rename_i hAssign
      obtain ⟨after, hWhole⟩ := List.isPrefixOf_iff_prefix.mp hAssign
      refine .lexeme (by simp [Lexeme.written, Lexeme.value, Mark.text]) ?_ (by decide) (.mark _ _)
      rw [← hWhole, List.drop_left]
    · rename_i hAssign
      split
      · rename_i mark hMark
        have hText := Mark.text_of_ofChar? hMark
        exact .lexeme (by simp [Lexeme.written, Lexeme.value, hText]) rfl (by simp) (.mark _ _)
      · rename_i hMark
        split
        · rename_i hStart
          split
          · rename_i front hFront
            split at hFront
            · rename_i hBefore
              exact .ofBracketedName? (by simpa using hBefore) hStart hFront
            · cases hFront
          · exact .ofName hStart
        · split
          · rename_i hQuote
            exact hQuote ▸ .ofQuoted rest
          · rename_i hQuote
            split
            · rename_i hPrintable
              apply Found.ofBareRun
              simp [endsBareRun, hVisible, hMark, hQuote, hAssign, hPrintable]
            · rename_i hPrintable
              exact .invalid rest hVisible (by simpa using hPrintable)

/-! ## Sources -/

/-- The place between characters that have been read and the others. -/
def Cursor.between (before rest : List Char) : Cursor := ⟨before.getLast?, rest, before.length⟩

/-- Tokens with one more in front. -/
def TokenList.prepend (token : Token) (list : TokenList) : TokenList :=
  ⟨token :: list.tokens, list.endPosition⟩

namespace Cursor

theorem past_between (before read rest : List Char) :
    (between before (read ++ rest)).past read rest = between (before ++ read) rest := by
  simp [between, past, List.getLast?_append]

theorem skipBlanks_between (before : List Char) {blanks chars : List Char}
    (hBlanks : ∀ c ∈ blanks, isBlank c = true)
    (hHead : ∀ c, chars.head? = some c → isBlank c = false) :
    (between before (blanks ++ chars)).skipBlanks = between (before ++ blanks) chars := by
  rw [between, skipBlanks_append _ _ hBlanks hHead]
  simp [between, List.getLast?_append]

/-- Behind characters that have been read, reading one token of the others has this answer, and
takes the reader to this place. -/
inductive Reads (before : List Char) : List Char → Except Error Token → Cursor → Prop where
  | finish {blanks : List Char} : (∀ c ∈ blanks, isBlank c = true) →
      Reads before blanks (.ok ⟨.finish, (before ++ blanks).length⟩)
        (between (before ++ blanks) [])
  | invalid {blanks : List Char} {c : Char} (after : List Char) :
      (∀ c ∈ blanks, isBlank c = true) → isBlank c = false → isPrintable c = false →
      Reads before (blanks ++ c :: after) (.error (.lexical c (before ++ blanks).length))
        (between (before ++ blanks) (c :: after))
  | unclosed {blanks after : List Char} : (∀ c ∈ blanks, isBlank c = true) →
      apostrophe ∉ after →
      Reads before (blanks ++ apostrophe :: after)
        (.error (.misplaced .closingQuote
          ⟨.finish, (before ++ (blanks ++ apostrophe :: after)).length⟩))
        (between (before ++ (blanks ++ apostrophe :: after)) [])
  | lexeme {blanks after : List Char} {lexeme : Lexeme} :
      (∀ c ∈ blanks, isBlank c = true) → lexeme.written ≠ [] →
      lexeme.Stands (before ++ blanks) after →
      Reads before (blanks ++ (lexeme.written ++ after))
        (.ok ⟨lexeme, (before ++ blanks).length⟩)
        (between (before ++ (blanks ++ lexeme.written)) after)

theorem exists_blanks (chars : List Char) :
    ∃ blanks rest, chars = blanks ++ rest ∧ (∀ c ∈ blanks, isBlank c = true) ∧
      ∀ c, rest.head? = some c → isBlank c = false := by
  refine ⟨chars.takeWhile isBlank, chars.dropWhile isBlank,
    List.takeWhile_append_dropWhile.symm, List.all_eq_true.mp List.all_takeWhile, ?_⟩
  intro c hHead
  have hStops := List.head?_dropWhile_not isBlank chars
  rw [hHead] at hStops
  simpa using hStops

theorem reads_next (before rest : List Char) :
    Reads before rest (between before rest).next.1 (between before rest).next.2 := by
  obtain ⟨blanks, chars, rfl, hBlanks, hHead⟩ := exists_blanks rest
  have hFound := Front.found_of (before ++ blanks) hHead
  have hPast := past_between (before ++ blanks)
  rw [next, skipBlanks_between before hBlanks hHead]
  simp only [between] at hPast ⊢
  generalize Front.of ((before ++ blanks).getLast? == some '<') chars = front at hFound
  cases hFound with
  | finish =>
    rw [List.append_nil]
    exact .finish hBlanks
  | invalid after hVisible hPrintable => exact .invalid after hBlanks hVisible hPrintable
  | @unclosed after hFree =>
    have hAll := hPast (apostrophe :: after) []
    rw [List.append_nil, List.append_assoc] at hAll
    dsimp only
    rw [hAll]
    exact .unclosed hBlanks hFree
  | @lexeme _ read after lexeme hRead hChars hSome hStands =>
    subst hRead hChars
    dsimp only
    rw [hPast, List.append_assoc]
    exact .lexeme hBlanks hSome hStands

theorem readAll_of_error {cursor after : Cursor} {error : Error}
    (hNext : cursor.next = (.error error, after)) : cursor.readAll = .error error := by
  rw [readAll]
  split
  · rename_i hError
    rw [hNext] at hError
    cases hError
    rfl
  · rename_i hFound
    rw [hNext] at hFound
    cases hFound

theorem readAll_eq_map {cursor after : Cursor} {token : Token}
    (hNext : cursor.next = (.ok token, after)) (hToken : token.lexeme ≠ .finish) :
    cursor.readAll = after.readAll.map (TokenList.prepend token) := by
  rw [readAll]
  split
  · rename_i hError
    rw [hNext] at hError
    cases hError
  · rename_i hFound
    rw [hNext] at hFound
    cases hFound
    rw [dif_neg hToken]
    cases after.readAll <;> rfl

end Cursor

theorem Lexeme.ne_finish_of_written {lexeme : Lexeme} (h : lexeme.written ≠ []) :
    lexeme ≠ .finish := by
  rintro rfl
  exact h rfl

/-- Behind characters that have been read, the others are read with this outcome. -/
inductive Scans : (before rest : List Char) → Except Error TokenList → Prop where
  | finish {before blanks : List Char} : (∀ c ∈ blanks, isBlank c = true) →
      Scans before blanks (.ok ⟨[], (before ++ blanks).length⟩)
  | invalid {before blanks : List Char} {c : Char} (after : List Char) :
      (∀ c ∈ blanks, isBlank c = true) → isBlank c = false → isPrintable c = false →
      Scans before (blanks ++ c :: after) (.error (.lexical c (before ++ blanks).length))
  | unclosed {before blanks after : List Char} : (∀ c ∈ blanks, isBlank c = true) →
      apostrophe ∉ after →
      Scans before (blanks ++ apostrophe :: after)
        (.error (.misplaced .closingQuote
          ⟨.finish, (before ++ (blanks ++ apostrophe :: after)).length⟩))
  | lexeme {before blanks after : List Char} {lexeme : Lexeme}
      {outcome : Except Error TokenList} :
      (∀ c ∈ blanks, isBlank c = true) → lexeme.written ≠ [] →
      lexeme.Stands (before ++ blanks) after →
      Scans (before ++ (blanks ++ lexeme.written)) after outcome →
      Scans before (blanks ++ (lexeme.written ++ after))
        (outcome.map (TokenList.prepend ⟨lexeme, (before ++ blanks).length⟩))

theorem scans_readAll (before rest : List Char) :
    Scans before rest (Cursor.between before rest).readAll := by
  induction hLength : rest.length using Nat.strongRecOn generalizing before rest with
  | ind length ih =>
    have hReads := Cursor.reads_next before rest
    generalize hNext : (Cursor.between before rest).next = answer at hReads
    obtain ⟨outcome, place⟩ := answer
    cases hReads with
    | finish hBlanks =>
      rw [Cursor.readAll_of_finish hNext]
      exact .finish hBlanks
    | invalid after hBlanks hVisible hPrintable =>
      rw [Cursor.readAll_of_error hNext]
      exact .invalid after hBlanks hVisible hPrintable
    | unclosed hBlanks hFree =>
      rw [Cursor.readAll_of_error hNext]
      exact .unclosed hBlanks hFree
    | lexeme hBlanks hSome hStands =>
      rw [Cursor.readAll_eq_map hNext (Lexeme.ne_finish_of_written hSome)]
      have hPositive := List.length_pos_iff.mpr hSome
      refine .lexeme hBlanks hSome hStands (ih _ ?_ _ _ rfl)
      simp only [List.length_append] at hLength
      omega

end CodonGrammar.Bnf
