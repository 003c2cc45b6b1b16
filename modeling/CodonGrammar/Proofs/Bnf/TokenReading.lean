import CodonGrammar.Bnf.Cursor
import CodonGrammar.Bnf.Written
import CodonGrammar.Proofs.Bnf.TokenGrammar

/-!
# Reading tokens from characters

`Lexes` says which signs a text is read as, without positions: blanks are skipped, and each lexeme
is the one that stands at the front of what follows. The character before the text matters, because
a name may hold spaces only right after `<`. A text that lexes is one that can be cut into tokens
(`tokenize_iff_lexes`).

The second part builds such readings from the end of a text to its beginning: a mark, a name between
angle brackets, or the written form of a terminal before a blank is read as one sign. Of the
character classes it uses that letters are alphanumeric and that alphanumeric characters are neither
blank nor unprintable, and to which classes the characters of the notation itself belong.
-/

namespace CodonGrammar.Bnf

open Text (apostrophe isBlank isLetter isAlphanumeric isPrintable isAlphanumeric_of_isLetter
  isPrintable_of_isAlphanumeric not_isBlank_of_isAlphanumeric)

/-! ## Character classes -/

theorem isNamePart_of_isNameStart {c : Char} (h : isNameStart c = true) : isNamePart c = true := by
  rcases Bool.or_eq_true_iff.mp h with hLetter | hUnderscore
  · simp [isNamePart, isAlphanumeric_of_isLetter hLetter]
  · simp [isNamePart, hUnderscore]

theorem isBracketedNamePart_of_isNamePart {c : Char} (h : isNamePart c = true) :
    isBracketedNamePart c = true := by
  simp [isBracketedNamePart, h]

theorem not_isBlank_of_isNamePart {c : Char} (h : isNamePart c = true) : isBlank c = false := by
  simp only [isNamePart, Bool.or_eq_true, beq_iff_eq] at h
  rcases h with (hAlphanumeric | rfl) | rfl
  · exact not_isBlank_of_isAlphanumeric hAlphanumeric
  · decide
  · decide

theorem ofChar?_of_isNameStart {c : Char} (h : isNameStart c = true) : Mark.ofChar? c = none := by
  unfold Mark.ofChar?
  split
  case h_10 => rfl
  all_goals exact absurd h (by decide)

theorem startsWithAssign_cons_of_ne {c : Char} (h : c ≠ ':') (rest : List Char) :
    startsWithAssign (c :: rest) = false := by
  simp [startsWithAssign, assignText, List.isPrefixOf, h.symm]

theorem ne_colon_of_isNameStart {c : Char} (h : isNameStart c = true) : c ≠ ':' := by
  rintro rfl
  exact absurd h (by decide)

@[simp] theorem terminalOf_toList (text : Terminal) (hFree : apostrophe ∉ text.text.toList) :
    terminalOf text.text.toList hFree = text :=
  Terminal.ext String.ofList_toList

/-- A name between angle brackets: a letter or an underscore, and then alphanumeric characters,
underscores, hyphens and spaces. -/
def IsName (name : String) : Prop :=
  ∃ first rest, name.toList = first :: rest ∧ isNameStart first = true ∧
    ∀ c ∈ rest, isBracketedNamePart c = true

theorem IsName.forall_mem {name : String} (h : IsName name) :
    ∀ c ∈ name.toList, isBracketedNamePart c = true := by
  obtain ⟨first, rest, hName, hFirst, hRest⟩ := h
  intro c hMem
  rw [hName] at hMem
  rcases List.mem_cons.mp hMem with rfl | hMem
  · exact isBracketedNamePart_of_isNamePart (isNamePart_of_isNameStart hFirst)
  · exact hRest c hMem

/-! ## Texts as signs -/

/-- After the given character, the text is read as these signs. -/
inductive Lexes : Option Char → List Char → List Sign → Prop where
  | finish {previous : Option Char} {blanks : List Char} :
      (∀ c ∈ blanks, isBlank c = true) → Lexes previous blanks []
  | lexeme {previous : Option Char} (blanks : List Char) {chars read rest : List Char}
      {lexeme : Lexeme} {signs : List Sign} :
      (∀ c ∈ blanks, isBlank c = true) →
      (∀ c, chars.head? = some c → isBlank c = false) →
      Front.of (blanks.getLast?.or previous == some '<') chars = .lexeme lexeme read rest →
      Lexes (read.getLast?.or (blanks.getLast?.or previous)) rest signs →
      Lexes previous (blanks ++ chars) (lexeme.sign :: signs)

theorem Cursor.skipBlanks_append (previous : Option Char) {blanks chars : List Char}
    (position : Nat) (hBlanks : ∀ c ∈ blanks, isBlank c = true)
    (hChars : ∀ c, chars.head? = some c → isBlank c = false) :
    Cursor.skipBlanks ⟨previous, blanks ++ chars, position⟩
      = ⟨blanks.getLast?.or previous, chars, position + blanks.length⟩ := by
  have hTake : chars.takeWhile isBlank = [] := by
    cases chars with
    | nil => rfl
    | cons c rest => simp [hChars c rfl]
  have hDrop : chars.dropWhile isBlank = chars := by
    have hWhole := List.takeWhile_append_dropWhile (p := isBlank) (l := chars)
    rwa [hTake, List.nil_append] at hWhole
  simp [skipBlanks, past, List.takeWhile_append_of_pos hBlanks,
    List.dropWhile_append_of_pos hBlanks, hTake, hDrop]

theorem Cursor.readAll_of_next {cursor after : Cursor} {token : Token}
    (hNext : cursor.next = (.ok token, after)) (hToken : token.lexeme ≠ .finish)
    {list : TokenList} (hAfter : after.readAll = .ok list) :
    cursor.readAll = .ok ⟨token :: list.tokens, list.endPosition⟩ := by
  rw [readAll]
  split
  · rename_i hError
    rw [hNext] at hError
    cases hError
  · rename_i found rest hFound
    rw [hNext] at hFound
    cases hFound
    rw [dif_neg hToken, hAfter]

theorem Cursor.readAll_of_finish {cursor after : Cursor} {position : Nat}
    (hNext : cursor.next = (.ok ⟨.finish, position⟩, after)) :
    cursor.readAll = .ok ⟨[], position⟩ := by
  rw [readAll]
  split
  · rename_i hError
    rw [hNext] at hError
    cases hError
  · rename_i found rest hFound
    rw [hNext] at hFound
    cases hFound
    rfl

theorem Lexes.readAll {previous : Option Char} {chars : List Char} {signs : List Sign}
    (h : Lexes previous chars signs) : ∀ position,
    ∃ list : TokenList, Cursor.readAll ⟨previous, chars, position⟩ = .ok list ∧
      list.tokens.map Token.sign = signs := by
  induction h with
  | @finish previous blanks hBlanks =>
    intro position
    have hNothing : ∀ c, ([] : List Char).head? = some c → isBlank c = false := by simp
    have hSkip := Cursor.skipBlanks_append previous position hBlanks hNothing
    rw [List.append_nil] at hSkip
    refine ⟨⟨[], position + blanks.length⟩, ?_, rfl⟩
    exact Cursor.readAll_of_finish (by rw [Cursor.next, hSkip]; rfl)
  | @lexeme previous blanks chars read rest lexeme signs hBlanks hChars hFront _ ih =>
    intro position
    have hSkip := Cursor.skipBlanks_append previous position hBlanks hChars
    have hTakes := Front.takesFrom_of hChars lexeme read rest hFront
    obtain ⟨list, hRead, hSigns⟩ := ih (position + blanks.length + read.length)
    refine ⟨⟨⟨lexeme, position + blanks.length⟩ :: list.tokens, list.endPosition⟩, ?_, ?_⟩
    · apply Cursor.readAll_of_next _ hTakes.2.2 hRead
      simp only [Cursor.next, hSkip, hFront]
      rfl
    · rw [List.map_cons, hSigns]
      rfl

/-- What can stand at the front of characters: a mark, a name, a quoted text, a bare run, or nothing
that can be read. -/
theorem Front.of_cases (afterLt : Bool) (c : Char) (rest : List Char) :
    (∃ mark read after, Front.of afterLt (c :: rest) = .lexeme (.mark mark) read after) ∨
      (isNameStart c = true ∧ (ofBracketedName? (c :: rest) = some (Front.of afterLt (c :: rest)) ∨
        Front.of afterLt (c :: rest) = ofName (c :: rest))) ∨
      Front.of afterLt (c :: rest) = ofQuoted rest ∨
      Front.of afterLt (c :: rest) = ofBareRun (c :: rest) ∨
      Front.of afterLt (c :: rest) = .invalid c := by
  unfold Front.of
  dsimp only
  by_cases hAssign : startsWithAssign (c :: rest) = true
  · exact .inl ⟨.assign, _, _, by rw [if_pos hAssign]⟩
  rw [if_neg hAssign]
  cases hMark : Mark.ofChar? c with
  | some mark => exact .inl ⟨mark, [c], rest, rfl⟩
  | none =>
    refine .inr ?_
    by_cases hStart : isNameStart c = true
    · refine .inl ⟨hStart, ?_⟩
      simp only [hStart, if_true]
      cases hFront : if afterLt then ofBracketedName? (c :: rest) else none with
      | none => exact .inr rfl
      | some front =>
        cases afterLt with
        | false => cases hFront
        | true => exact .inl hFront
    · refine .inr ?_
      simp only [hStart]
      by_cases hQuote : c = apostrophe
      · exact .inl (by simp [hQuote])
      · refine .inr ?_
        by_cases hPrintable : isPrintable c = true
        · exact .inl (by simp [hQuote, hPrintable])
        · exact .inr (by simp [hQuote, hPrintable])

theorem Front.eq_nil_of_finish {afterLt : Bool} {chars : List Char}
    (h : Front.of afterLt chars = .finish) : chars = [] := by
  cases chars with
  | nil => rfl
  | cons c rest =>
    rcases Front.of_cases afterLt c rest with
      ⟨mark, read, after, hMark⟩ | ⟨-, hName | hName⟩ | hQuoted | hRun | hInvalid
    · cases h.symm.trans hMark
    · rw [h] at hName
      simp [ofBracketedName?] at hName
    · have hFinish := h.symm.trans hName
      simp only [ofName] at hFinish
      split at hFinish <;> cases hFinish
    · have hFinish := h.symm.trans hQuoted
      unfold ofQuoted at hFinish
      split at hFinish <;> cases hFinish
    · cases h.symm.trans hRun
    · cases h.symm.trans hInvalid

/-- What one token is: the end behind nothing but blanks, or the lexeme at the front of what follows
the blanks. -/
theorem Cursor.next_cases {cursor after : Cursor} {token : Token}
    (h : cursor.next = (.ok token, after)) :
    (token.lexeme = .finish ∧ ∀ c ∈ cursor.rest, isBlank c = true) ∨
      ∃ blanks chars read, cursor.rest = blanks ++ chars ∧
        (∀ c ∈ blanks, isBlank c = true) ∧ (∀ c, chars.head? = some c → isBlank c = false) ∧
        Front.of (blanks.getLast?.or cursor.previous == some '<') chars
          = .lexeme token.lexeme read after.rest ∧
        after.previous = read.getLast?.or (blanks.getLast?.or cursor.previous) := by
  have hBlanks : ∀ c ∈ cursor.rest.takeWhile isBlank, isBlank c = true :=
    List.all_eq_true.mp List.all_takeWhile
  have hWhole := List.takeWhile_append_dropWhile (p := isBlank) (l := cursor.rest)
  unfold next at h
  simp only at h
  split at h
  · rename_i lexeme read rest hFront
    cases h
    exact .inr ⟨_, _, read, hWhole.symm, hBlanks, cursor.head?_rest_skipBlanks, hFront, rfl⟩
  · rename_i hFront
    cases h
    have hNothing : cursor.rest.dropWhile isBlank = [] := Front.eq_nil_of_finish hFront
    rw [hNothing, List.append_nil] at hWhole
    exact .inl ⟨rfl, hWhole ▸ hBlanks⟩
  · cases h
  · cases h

theorem Lexes.ofReadAll {cursor : Cursor} : ∀ {list : TokenList}, cursor.readAll = .ok list →
    Lexes cursor.previous cursor.rest (list.tokens.map Token.sign) := by
  fun_induction Cursor.readAll cursor with
  | case1 => intro list h; cases h
  | case2 cursor token after hNext hFinish =>
    intro list h
    cases h
    obtain ⟨-, hBlanks⟩ | ⟨blanks, chars, read, -, -, hHead, hFront, -⟩ := Cursor.next_cases hNext
    · exact .finish hBlanks
    · exact absurd hFinish (Front.takesFrom_of hHead token.lexeme read after.rest hFront).2.2
  | case3 => intro list h; cases h
  | case4 cursor token after hNext hToken list hAfter ih =>
    intro found h
    cases h
    obtain ⟨hFinish, -⟩ | ⟨blanks, chars, read, hRest, hBlanks, hHead, hFront, hPrevious⟩ :=
      Cursor.next_cases hNext
    · exact absurd hFinish hToken
    · have hAfterRest := ih hAfter
      rw [hPrevious] at hAfterRest
      rw [hRest]
      exact .lexeme blanks hBlanks hHead hFront hAfterRest

/-- A text can be cut into tokens with these signs exactly when it is read as them. -/
theorem tokenize_iff_lexes {source : String} {signs : List Sign} :
    (∃ list, tokenize source = .ok list ∧ list.tokens.map Token.sign = signs) ↔
      Lexes none source.toList signs := by
  constructor
  · rintro ⟨list, hTokens, rfl⟩
    exact Lexes.ofReadAll hTokens
  · intro h
    exact h.readAll 0

/-! ## Reading one more sign -/

namespace Lexes

/-- A blank in front changes nothing, but it is now the character before the text. -/
theorem blank {c : Char} {chars : List Char} {signs : List Sign} (hBlank : isBlank c = true)
    (h : Lexes (some c) chars signs) (previous : Option Char) :
    Lexes previous (c :: chars) signs := by
  have hLast : ∀ blanks : List Char,
      blanks.getLast?.or (some c) = (c :: blanks).getLast?.or previous := by
    intro blanks
    cases hGet : blanks.getLast? <;> simp [List.getLast?_cons, hGet]
  cases h with
  | finish hBlanks =>
    refine .finish ?_
    simpa [hBlank] using hBlanks
  | @lexeme _ blanks chars _ _ _ _ hBlanks hChars hFront hRest =>
    rw [hLast] at hFront hRest
    exact .lexeme (c :: blanks) (by simpa [hBlank] using hBlanks) hChars hFront hRest

theorem ofFront (lexeme : Lexeme) {previous : Option Char} {c : Char}
    {chars read rest : List Char} {signs : List Sign} (hVisible : isBlank c = false)
    (hFront : Front.of (previous == some '<') (c :: chars) = .lexeme lexeme read rest)
    (h : Lexes (read.getLast?.or previous) rest signs) :
    Lexes previous (c :: chars) (lexeme.sign :: signs) := by
  refine .lexeme [] (by simp) ?_ hFront h
  intro first hFirst
  cases hFirst
  exact hVisible

theorem mark {c : Char} {mark : Mark} {rest : List Char} {signs : List Sign}
    (hMark : Mark.ofChar? c = some mark) (h : Lexes (some c) rest signs)
    (previous : Option Char) : Lexes previous (c :: rest) (mark.sign :: signs) := by
  have hVisible : isBlank c = false := by
    unfold Mark.ofChar? at hMark
    split at hMark
    case h_10 => cases hMark
    all_goals decide
  have hColon : c ≠ ':' := by
    rintro rfl
    cases hMark
  have hFront : Front.of (previous == some '<') (c :: rest) = .lexeme (.mark mark) [c] rest := by
    simp [Front.of, startsWithAssign_cons_of_ne hColon, hMark]
  exact ofFront (.mark mark) hVisible hFront h

theorem assign {rest : List Char} {signs : List Sign} (h : Lexes (some '=') rest signs)
    (previous : Option Char) :
    Lexes previous (':' :: ':' :: '=' :: rest) (Mark.assign.sign :: signs) :=
  ofFront (.mark .assign) (by decide) (show _ = Front.lexeme _ assignText rest from rfl) h

theorem name {name : String} (hName : IsName name) {rest : List Char} {signs : List Sign}
    (h : ∀ previous, Lexes previous ('>' :: rest) signs) :
    Lexes (some '<') (name.toList ++ '>' :: rest) (⟨.word .name, name⟩ :: signs) := by
  have hParts := hName.forall_mem
  obtain ⟨first, others, hChars, hFirst, -⟩ := hName
  have hFree : apostrophe ∉ name.toList := fun hMem =>
    absurd (hParts _ hMem) (by rw [isBracketedNamePart_apostrophe]; simp)
  obtain ⟨text, rfl⟩ : ∃ text : Terminal, text.text = name := ⟨⟨name, hFree⟩, rfl⟩
  have hGt : isBracketedNamePart '>' = false := by decide
  have hTake : (text.text.toList ++ '>' :: rest).takeWhile isBracketedNamePart
      = text.text.toList := by
    rw [List.takeWhile_append_of_pos hParts]
    simp [hGt]
  have hDrop : (text.text.toList ++ '>' :: rest).dropWhile isBracketedNamePart
      = '>' :: rest := by
    rw [List.dropWhile_append_of_pos hParts]
    simp [hGt]
  have hBracketed : Front.ofBracketedName? (text.text.toList ++ '>' :: rest)
      = some (.lexeme (.word .name text) text.text.toList ('>' :: rest)) := by
    simp [Front.ofBracketedName?, hTake, hDrop]
  rw [hChars, List.cons_append] at hBracketed ⊢
  have hFront : Front.of true (first :: (others ++ '>' :: rest))
      = .lexeme (.word .name text) (first :: others) ('>' :: rest) := by
    simp [Front.of, startsWithAssign_cons_of_ne (ne_colon_of_isNameStart hFirst),
      ofChar?_of_isNameStart hFirst, hFirst, hBracketed]
  exact ofFront (.word .name text) (not_isBlank_of_isNamePart (isNamePart_of_isNameStart hFirst))
    hFront (h _)

theorem nonTerminal {symbol : NonTerminal} (hName : IsName symbol.name) {rest : List Char}
    {signs : List Sign} (h : Lexes (some '>') rest signs) (previous : Option Char) :
    Lexes previous (symbol.written.toList ++ rest) (Sign.ofNonTerminal symbol ++ signs) := by
  have hClosed : ∀ last, Lexes last ('>' :: rest) (Mark.gt.sign :: signs) :=
    fun last => mark rfl h last
  have hChars : symbol.written.toList ++ rest = '<' :: (symbol.name.toList ++ '>' :: rest) := by
    simp [NonTerminal.written]
  rw [hChars]
  exact mark rfl (name hName hClosed) previous

end Lexes

/-! ## Terminals before a blank -/

theorem holdsAssign_append_right {front back : List Char}
    (h : holdsAssign (front ++ back) = false) : holdsAssign back = false := by
  induction front with
  | nil => exact h
  | cons c front ih =>
    rw [List.cons_append, holdsAssign, Bool.or_eq_false_iff] at h
    exact ih h.2

/-- No assignment mark is completed by a blank. -/
theorem startsWithAssign_append_blank {b : Char} (hBlank : isBlank b = true)
    (chars rest : List Char) :
    startsWithAssign (chars ++ b :: rest) = startsWithAssign chars := by
  have hColon : ':' ≠ b := by
    rintro rfl
    exact absurd hBlank (by decide)
  have hEquals : '=' ≠ b := by
    rintro rfl
    exact absurd hBlank (by decide)
  rcases chars with _ | ⟨c₁, _ | ⟨c₂, _ | ⟨c₃, chars⟩⟩⟩ <;>
    simp [startsWithAssign, assignText, List.isPrefixOf, hColon, hEquals]

theorem endsBareRun_blank {b : Char} (hBlank : isBlank b = true) (rest : List Char) :
    endsBareRun (b :: rest) = true := by
  simp [endsBareRun, hBlank]

/-- A text that a bare run can hold as a whole. -/
def IsBare (text : List Char) : Prop :=
  holdsAssign text = false ∧ ∀ c ∈ text, forcesQuotes c = false ∧ c ≠ apostrophe

theorem IsBare.append_right (front : List Char) {back : List Char} (h : IsBare (front ++ back)) :
    IsBare back :=
  ⟨holdsAssign_append_right h.1, fun c hMem => h.2 c (List.mem_append_right _ hMem)⟩

theorem IsBare.endsBareRun_cons {c b : Char} {text : List Char} (h : IsBare (c :: text))
    (hBlank : isBlank b = true) (rest : List Char) :
    endsBareRun (c :: (text ++ b :: rest)) = false := by
  obtain ⟨hAssign, hChars⟩ := h
  obtain ⟨hForces, hQuote⟩ := hChars c List.mem_cons_self
  have hStarts := startsWithAssign_append_blank hBlank (c :: text) rest
  rw [holdsAssign, Bool.or_eq_false_iff] at hAssign
  rw [List.cons_append, hAssign.1] at hStarts
  simp only [forcesQuotes, Bool.or_eq_false_iff] at hForces
  simp [endsBareRun, hForces, hQuote, hStarts]

/-- A bare run goes on to the blank behind it. -/
theorem IsBare.run {b : Char} (hBlank : isBlank b = true) (rest : List Char) {text : List Char}
    (h : IsBare text) :
    bareRun (text ++ b :: rest) = text ∧ afterBareRun (text ++ b :: rest) = b :: rest := by
  induction text with
  | nil => simp [bareRun, afterBareRun, endsBareRun_blank hBlank]
  | cons c text ih =>
    obtain ⟨hRun, hAfter⟩ := ih (h.append_right [c])
    have hGoesOn := h.endsBareRun_cons hBlank rest
    simp [bareRun, afterBareRun, hGoesOn, hRun, hAfter]

theorem takeWhile_append_stop {p : Char → Bool} {b : Char} (hStop : p b = false)
    (text rest : List Char) : (text ++ b :: rest).takeWhile p = text.takeWhile p := by
  induction text with
  | nil => simp [hStop]
  | cons c text ih => cases hc : p c <;> simp [hc, ih]

theorem dropWhile_append_stop {p : Char → Bool} {b : Char} (hStop : p b = false)
    (text rest : List Char) :
    (text ++ b :: rest).dropWhile p = text.dropWhile p ++ b :: rest := by
  induction text with
  | nil => simp [hStop]
  | cons c text ih => cases hc : p c <;> simp [hc, ih]

theorem Front.ofName_bare {b : Char} (hBlank : isBlank b = true) (rest : List Char)
    {text : Terminal} (h : IsBare text.text.toList) :
    ∃ kind, Front.ofName (text.text.toList ++ b :: rest)
      = .lexeme (.word kind text) text.text.toList (b :: rest) := by
  have hStop : isNamePart b = false := by
    cases hPart : isNamePart b with
    | false => rfl
    | true => rw [not_isBlank_of_isNamePart hPart] at hBlank; cases hBlank
  have hWhole := List.takeWhile_append_dropWhile (p := isNamePart) (l := text.text.toList)
  have hSuffix : IsBare (text.text.toList.dropWhile isNamePart) :=
    IsBare.append_right (text.text.toList.takeWhile isNamePart) (hWhole.symm ▸ h)
  obtain ⟨hRun, hAfter⟩ := hSuffix.run hBlank rest
  unfold Front.ofName
  simp only [takeWhile_append_stop hStop, dropWhile_append_stop hStop, hRun, hAfter]
  split
  · rename_i hEnds
    -- The name ends here, so it is the whole text.
    cases hDrop : text.text.toList.dropWhile isNamePart with
    | nil =>
      rw [hDrop, List.append_nil] at hWhole
      refine ⟨.name, ?_⟩
      simp [hWhole]
    | cons c suffix =>
      rw [hDrop] at hEnds hSuffix
      rw [List.cons_append, hSuffix.endsBareRun_cons hBlank rest] at hEnds
      cases hEnds
  · refine ⟨.bare, ?_⟩
    simp [hWhole]

theorem isBare_of_needsQuotes {text : Terminal} (h : needsQuotes text.text.toList = false) :
    text.text.toList ≠ [] ∧ IsBare text.text.toList := by
  simp only [needsQuotes, Bool.or_eq_false_iff] at h
  obtain ⟨⟨hEmpty, hAssign⟩, hForces⟩ := h
  refine ⟨by simpa using hEmpty, hAssign, ?_⟩
  intro c hMem
  rw [List.any_eq_false] at hForces
  refine ⟨by simpa using hForces c hMem, ?_⟩
  rintro rfl
  exact text.quoteFree hMem

/-- The written form of a terminal before a blank is one word with its text. -/
theorem Front.of_written (text : Terminal) {b : Char} (hBlank : isBlank b = true)
    (rest : List Char) :
    ∃ kind c chars, text.written.toList ++ b :: rest = c :: chars ∧ isBlank c = false ∧
      Front.of false (c :: chars) = .lexeme (.word kind text) text.written.toList (b :: rest) := by
  cases hQuotes : needsQuotes text.text.toList with
  | true =>
    have hWritten : text.written.toList = apostrophe :: text.text.toList ++ [apostrophe] := by
      simp [Terminal.written, hQuotes]
    have hInside : ∀ c ∈ text.text.toList, (c != apostrophe) = true := by
      intro c hMem
      rw [bne_iff_ne]
      rintro rfl
      exact text.quoteFree hMem
    have hTake : (text.text.toList ++ apostrophe :: b :: rest).takeWhile (· != apostrophe)
        = text.text.toList := by
      rw [List.takeWhile_append_of_pos hInside]
      simp
    have hDrop : (text.text.toList ++ apostrophe :: b :: rest).dropWhile (· != apostrophe)
        = apostrophe :: b :: rest := by
      rw [List.dropWhile_append_of_pos hInside]
      simp
    have hName : isNameStart apostrophe = false := by decide
    have hColon : apostrophe ≠ ':' := by decide
    have hMark : Mark.ofChar? apostrophe = none := by decide
    refine ⟨.quoted, apostrophe, text.text.toList ++ apostrophe :: b :: rest, ?_, by decide, ?_⟩
    · simp [hWritten]
    · simp only [Front.of, startsWithAssign_cons_of_ne hColon, hMark, hName, Front.ofQuoted, hDrop]
      simp [hTake, hWritten]
  | false =>
    have hWritten : text.written = text.text := by simp [Terminal.written, hQuotes]
    obtain ⟨hNonempty, hBare⟩ := isBare_of_needsQuotes hQuotes
    obtain ⟨c, others, hChars⟩ := List.exists_cons_of_ne_nil hNonempty
    obtain ⟨hForces, hQuote⟩ := hBare.2 c (hChars ▸ List.mem_cons_self)
    have hStarts : startsWithAssign (c :: (others ++ b :: rest)) = false := by
      have hSame := startsWithAssign_append_blank hBlank (c :: others) rest
      have hAssign := hBare.1
      rw [hChars, holdsAssign, Bool.or_eq_false_iff] at hAssign
      rwa [hAssign.1] at hSame
    simp only [forcesQuotes, Bool.or_eq_false_iff, Bool.not_eq_false'] at hForces
    obtain ⟨⟨hVisible, hMark⟩, hPrintable⟩ := hForces
    have hNoMark : Mark.ofChar? c = none := by simpa using hMark
    rw [hWritten]
    have hSplit : text.text.toList ++ b :: rest = c :: (others ++ b :: rest) := by
      rw [hChars, List.cons_append]
    cases hStart : isNameStart c with
    | true =>
      obtain ⟨kind, hName⟩ := Front.ofName_bare hBlank rest hBare
      rw [hSplit] at hName
      refine ⟨kind, c, others ++ b :: rest, hSplit, hVisible, ?_⟩
      simp [Front.of, hStarts, hNoMark, hStart, hName]
    | false =>
      obtain ⟨hRun, hAfter⟩ := hBare.run hBlank rest
      refine ⟨.bare, c, others ++ b :: rest, hSplit, hVisible, ?_⟩
      rw [hSplit] at hRun hAfter
      simp [Front.of, hStarts, hNoMark, hStart, hQuote, hPrintable, Front.ofBareRun, hRun, hAfter]

theorem Lexes.terminal (text : Terminal) {b : Char} (hBlank : isBlank b = true) {rest : List Char}
    {signs : List Sign} (h : ∀ previous, Lexes previous (b :: rest) signs) {previous : Option Char}
    (hPrevious : previous ≠ some '<') :
    ∃ kind, Lexes previous (text.written.toList ++ b :: rest)
      (⟨.word kind, text.text⟩ :: signs) := by
  obtain ⟨kind, c, chars, hChars, hVisible, hFront⟩ := Front.of_written text hBlank rest
  have hAfter : (previous == some '<') = false := by simpa using hPrevious
  rw [← hAfter] at hFront
  rw [hChars]
  exact ⟨kind, ofFront (.word kind text) hVisible hFront (h _)⟩

end CodonGrammar.Bnf
