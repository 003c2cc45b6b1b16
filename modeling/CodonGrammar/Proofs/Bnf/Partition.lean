import CodonGrammar.Proofs.Bnf.Lexemes

/-!
# Tokens partition their source

When a source is cut into tokens, nothing of it is lost: it is the lexemes of the tokens one after
the other, with nothing but blanks before, between and behind them, and each token has the position
at which its lexeme begins (`tokenize_partition`). A bare run holds no blank, and a name holds
blanks only between angle brackets.
-/

namespace CodonGrammar.Bnf

open Text (apostrophe isBlank isPrintable)

/-! ## Words that are not quoted -/

theorem holdsAssign_iff {chars : List Char} :
    holdsAssign chars = true ↔ assignText <:+: chars := by
  induction chars with
  | nil => simp [holdsAssign, assignText]
  | cons c rest ih =>
    rw [holdsAssign, Bool.or_eq_true, ih, startsWithAssign, List.isPrefixOf_iff_prefix,
      List.infix_cons_iff]

/-- No quote, no mark and no unprintable character is in the text. -/
def IsPlain (text : List Char) : Prop :=
  (∀ c ∈ text, c ≠ apostrophe ∧ Mark.ofChar? c = none ∧ isPrintable c = true) ∧
    ¬ assignText <:+: text

theorem IsBare.isPlain {text : List Char} (h : IsBare text) : IsPlain text := by
  obtain ⟨hAssign, hChars⟩ := h
  refine ⟨?_, ?_⟩
  · intro c hMem
    obtain ⟨hForces, hQuote⟩ := hChars c hMem
    simp only [forcesQuotes, Bool.or_eq_false_iff, Option.isSome_eq_false_iff,
      Option.isNone_iff_eq_none, Bool.not_eq_false'] at hForces
    exact ⟨hQuote, hForces.1.2, hForces.2⟩
  · rw [← holdsAssign_iff, hAssign]
    exact Bool.false_ne_true

theorem IsBare.not_isBlank {text : List Char} (h : IsBare text) :
    ∀ c ∈ text, isBlank c = false := by
  intro c hMem
  have hForces := (h.2 c hMem).1
  simp only [forcesQuotes, Bool.or_eq_false_iff] at hForces
  exact hForces.1.1

theorem isPlain_of_isBracketedNamePart {text : List Char}
    (h : ∀ c ∈ text, isBracketedNamePart c = true) : IsPlain text := by
  refine ⟨?_, ?_⟩
  · intro c hMem
    have hPart := h c hMem
    refine ⟨ne_apostrophe_of_isBracketedNamePart hPart, ?_⟩
    simp only [isBracketedNamePart, Bool.or_eq_true, beq_iff_eq] at hPart
    rcases hPart with hName | rfl
    · exact ⟨ofChar?_of_isNamePart hName, isPrintable_of_isNamePart hName⟩
    · decide
  · have hColon := holdsAssign_append_of_ne
      (fun c hMem => ne_colon_of_isBracketedNamePart (h c hMem)) []
    rw [List.append_nil] at hColon
    rw [← holdsAssign_iff, hColon]
    exact Bool.false_ne_true

/-! ## Tokens in their places -/

/-- What a token between these characters of a source is like. -/
structure Token.Fits (token : Token) (before after : List Char) : Prop where
  position_eq : token.position = before.length
  nonempty : token.lexeme.written ≠ []
  plain : ∀ kind text, token.lexeme = .word kind text → kind ≠ .quoted →
    IsPlain text.text.toList
  solid : ∀ text, token.lexeme = .word .bare text → ∀ c ∈ text.text.toList, isBlank c = false
  spaced : ∀ text, token.lexeme = .word .name text → (∃ c ∈ text.text.toList, isBlank c = true) →
    (∀ c ∈ text.text.toList, isBracketedNamePart c = true) ∧
      before.getLast? = some '<' ∧ after.head? = some '>'

theorem Lexeme.Stands.fits {lexeme : Lexeme} {before after : List Char}
    (h : lexeme.Stands before after) (hSome : lexeme.written ≠ []) :
    Token.Fits ⟨lexeme, before.length⟩ before after where
  position_eq := rfl
  nonempty := hSome
  plain := by
    rintro kind text rfl hKind
    cases h with
    | quoted => exact absurd rfl hKind
    | bracketedName _ hParts _ => exact isPlain_of_isBracketedNamePart hParts
    | name hParts _ =>
      exact isPlain_of_isBracketedNamePart fun c hMem =>
        isBracketedNamePart_of_isNamePart (hParts c hMem)
    | bare hBare _ => exact hBare.isPlain
  solid := by
    rintro text rfl
    cases h with
    | bare hBare _ => exact hBare.not_isBlank
  spaced := by
    rintro text rfl ⟨c, hMem, hBlank⟩
    cases h with
    | bracketedName hBefore hParts hAfter => exact ⟨hParts, hBefore, hAfter⟩
    | name hParts _ =>
      rw [not_isBlank_of_isNamePart (hParts c hMem)] at hBlank
      cases hBlank

/-! ## Partitions -/

/-- A token, and the characters between it and the next one. -/
structure Stretch where
  token : Token
  gap : List Char

/-- The characters of a stretch. -/
def Stretch.text (stretch : Stretch) : List Char := stretch.token.lexeme.written ++ stretch.gap

/-- Behind characters that have been read, the others are a gap and then these stretches. -/
structure Partition (before rest first : List Char) (stretches : List Stretch) : Prop where
  text_eq : rest = first ++ stretches.flatMap Stretch.text
  blank : ∀ gap ∈ first :: stretches.map Stretch.gap, ∀ c ∈ gap, isBlank c = true
  fits : ∀ earlier stretch later, stretches = earlier ++ stretch :: later →
    stretch.token.Fits (before ++ (first ++ earlier.flatMap Stretch.text))
      (stretch.gap ++ later.flatMap Stretch.text)

theorem Partition.blanks {before blanks : List Char} (h : ∀ c ∈ blanks, isBlank c = true) :
    Partition before blanks blanks [] where
  text_eq := (List.append_nil blanks).symm
  blank := by simpa using h
  fits := by simp

theorem Partition.cons {before blanks after first : List Char} {lexeme : Lexeme}
    {stretches : List Stretch} (hBlanks : ∀ c ∈ blanks, isBlank c = true)
    (hSome : lexeme.written ≠ []) (hStands : lexeme.Stands (before ++ blanks) after)
    (h : Partition (before ++ (blanks ++ lexeme.written)) after first stretches) :
    Partition before (blanks ++ (lexeme.written ++ after)) blanks
      (⟨⟨lexeme, (before ++ blanks).length⟩, first⟩ :: stretches) where
  text_eq := by simp [Stretch.text, h.text_eq]
  blank := List.forall_mem_cons.mpr ⟨hBlanks, h.blank⟩
  fits := by
    intro earlier stretch later hStretches
    rcases earlier with _ | ⟨other, earlier⟩
    · cases hStretches
      simpa [← h.text_eq] using hStands.fits hSome
    · obtain ⟨rfl, rfl⟩ := List.cons.inj hStretches
      simpa [Stretch.text] using h.fits earlier stretch later rfl

theorem Scans.exists_partition {before rest : List Char} {outcome : Except Error TokenList}
    (h : Scans before rest outcome) {list : TokenList} (hList : outcome = .ok list) :
    ∃ first stretches, Partition before rest first stretches ∧
      list.tokens = stretches.map Stretch.token ∧ list.endPosition = (before ++ rest).length := by
  induction h generalizing list with
  | @finish before blanks hBlanks =>
    cases hList
    exact ⟨blanks, [], .blanks hBlanks, rfl, rfl⟩
  | invalid => cases hList
  | unclosed => cases hList
  | @lexeme before blanks after lexeme outcome hBlanks hSome hStands _ ih =>
    cases outcome with
    | error error => cases hList
    | ok others =>
      cases hList
      obtain ⟨first, stretches, hPartition, hTokens, hEnd⟩ := ih rfl
      refine ⟨blanks, _, hPartition.cons hBlanks hSome hStands, ?_, ?_⟩
      · simp [TokenList.prepend, hTokens]
      · simpa [TokenList.prepend] using hEnd

/-- Positions strictly increase, up to that of the end. -/
theorem Scans.positions {before rest : List Char} {outcome : Except Error TokenList}
    (h : Scans before rest outcome) {list : TokenList} (hList : outcome = .ok list) :
    (∀ position ∈ list.toList.map Token.position, before.length ≤ position) ∧
      (list.toList.map Token.position).Pairwise (· < ·) := by
  induction h generalizing list with
  | finish =>
    cases hList
    simp [TokenList.toList, TokenList.finishToken]
  | invalid => cases hList
  | unclosed => cases hList
  | @lexeme before blanks after lexeme outcome hBlanks hSome hStands _ ih =>
    cases outcome with
    | error error => cases hList
    | ok others =>
      cases hList
      obtain ⟨hLater, hOrder⟩ := ih rfl
      have hPositive := List.length_pos_iff.mpr hSome
      have hToList : (others.prepend ⟨lexeme, (before ++ blanks).length⟩).toList.map Token.position
          = (before ++ blanks).length :: others.toList.map Token.position := rfl
      rw [hToList, List.pairwise_cons, List.forall_mem_cons]
      refine ⟨⟨?_, ?_⟩, ?_, hOrder⟩
      · simp
      · intro position hMem
        have hLess := hLater position hMem
        simp only [List.length_append] at hLess ⊢
        omega
      · intro position hMem
        have hLess := hLater position hMem
        simp only [List.length_append] at hLess ⊢
        omega

/-- A source that is cut into tokens is their lexemes, each at the position of its token, with
nothing but blanks around them. Lexemes have characters, so positions strictly increase, and the
position of the end is the number of all characters. -/
theorem tokenize_partition {source : String} {list : TokenList}
    (h : tokenize source = .ok list) :
    ∃ (first : List Char) (stretches : List Stretch),
      list.tokens = stretches.map Stretch.token ∧
      source.toList = first ++ stretches.flatMap Stretch.text ∧
      (∀ gap ∈ first :: stretches.map Stretch.gap, ∀ c ∈ gap, isBlank c = true) ∧
      (∀ earlier stretch later, stretches = earlier ++ stretch :: later →
        stretch.token.Fits (first ++ earlier.flatMap Stretch.text)
          (stretch.gap ++ later.flatMap Stretch.text)) ∧
      (list.toList.map Token.position).Pairwise (· < ·) ∧
      list.finishToken = ⟨.finish, source.length⟩ := by
  have hScans := scans_readAll [] source.toList
  obtain ⟨first, stretches, hPartition, hTokens, hEnd⟩ := hScans.exists_partition h
  refine ⟨first, stretches, hTokens, hPartition.text_eq, hPartition.blank, hPartition.fits,
    (hScans.positions h).2, ?_⟩
  rw [TokenList.finishToken, hEnd, List.nil_append, String.length_toList]

set_option maxRecDepth 3000 in
/-- A name with a space, a quoted text and a bare run. -/
theorem tokenize_partition_spaced :
    ∃ (list : TokenList) (first : List Char) (stretches : List Stretch),
      tokenize "<a b>'|' x:" = .ok list ∧ list.tokens = stretches.map Stretch.token ∧
      "<a b>'|' x:".toList = first ++ stretches.flatMap Stretch.text ∧
      (list.toList.map Token.position) = [0, 1, 4, 5, 9, 11] := by
  have hTokens : tokenize "<a b>'|' x:" = .ok ⟨[⟨.mark .lt, 0⟩,
      ⟨.word .name ⟨"a b", by decide⟩, 1⟩, ⟨.mark .gt, 4⟩,
      ⟨.word .quoted ⟨"|", by decide⟩, 5⟩, ⟨.word .bare ⟨"x:", by decide⟩, 9⟩], 11⟩ := by
    cbv
  obtain ⟨first, stretches, hStretches, hText, -⟩ := tokenize_partition hTokens
  exact ⟨_, first, stretches, hTokens, hStretches, hText, rfl⟩

end CodonGrammar.Bnf
