import CodonGrammar.Proofs.Bnf.Acceptance
import CodonGrammar.Proofs.Bnf.Partition

/-!
# Other blanks between the tokens

Blanks between tokens, before the first one and behind the last one may be replaced by other blanks,
as long as there are still some and none of them is a space. The source has the same lexemes then,
and the same grammar or none (`tokenize_respaced`). A space is excluded because it may become part
of a name: behind a `<`, all up to a `>` is one name if it consists of name characters and spaces.

That reading looks arbitrarily far ahead, but no further than to the first blank that is no space.
So no lexeme depends on what is behind a replaced blank. Two texts agree if they are the same up to
such a place (`Agrees`), and what stands at the front of one of them stands at the front of the
other (`Front.of_agrees`). The readings of both sources then go side by side, from lexeme to lexeme.
-/

namespace CodonGrammar.Bnf

open Text (apostrophe isBlank isPrintable)

/-! ## Texts that agree -/

/-- The texts are the same, or they are up to a place where the first one has a blank and the second
one a blank that is no space. -/
inductive Agrees : List Char → List Char → Prop where
  | nil : Agrees [] []
  | cons (c : Char) {rest others : List Char} :
      Agrees rest others → Agrees (c :: rest) (c :: others)
  | blank {first second : Char} (rest others : List Char) : isBlank first = true →
      isBlank second = true → second ≠ ' ' → Agrees (first :: rest) (second :: others)

namespace Agrees

variable {first second : List Char}

theorem append_left (h : Agrees first second) (front : List Char) :
    Agrees (front ++ first) (front ++ second) := by
  induction front with
  | nil => exact h
  | cons c front ih => exact .cons c ih

/-- A text without blanks is at the front of both or of none. -/
theorem isPrefixOf_eq {mark : List Char} (hMark : ∀ c ∈ mark, isBlank c = false)
    (h : Agrees first second) : mark.isPrefixOf first = mark.isPrefixOf second := by
  induction mark generalizing first second with
  | nil => simp
  | cons c mark ih =>
    obtain ⟨hVisible, hRest⟩ := List.forall_mem_cons.mp hMark
    cases h with
    | nil => rfl
    | cons d hAgrees => simp [List.isPrefixOf, ih hRest hAgrees]
    | blank rest others hFirst hSecond _ =>
      have hNe : ∀ {blank}, isBlank blank = true → (c == blank) = false := by
        intro blank hBlank
        refine beq_eq_false_iff_ne.mpr ?_
        rintro rfl
        rw [hVisible] at hBlank
        cases hBlank
      simp [List.isPrefixOf, hNe hFirst, hNe hSecond]

theorem startsWithAssign_eq (h : Agrees first second) :
    startsWithAssign first = startsWithAssign second := by
  have hAssign : assignText.all (fun c => !isBlank c) = true := by decide
  exact h.isPrefixOf_eq (by simpa using List.all_eq_true.mp hAssign)

theorem endsBareRun_eq (h : Agrees first second) : endsBareRun first = endsBareRun second := by
  cases h with
  | nil => rfl
  | cons c hRest =>
    have hAssign := (Agrees.cons c hRest).startsWithAssign_eq
    rw [endsBareRun, endsBareRun, hAssign]
  | blank rest others hFirst hSecond _ =>
    rw [endsBareRun_blank hFirst, endsBareRun_blank hSecond]

theorem bareRun_eq (h : Agrees first second) : bareRun first = bareRun second := by
  induction h with
  | nil => rfl
  | cons c hRest ih => rw [bareRun, bareRun, (Agrees.cons c hRest).endsBareRun_eq, ih]
  | blank rest others hFirst hSecond _ =>
    rw [bareRun, bareRun, endsBareRun_blank hFirst, endsBareRun_blank hSecond]
    rfl

section Part

variable {part : Char → Bool} (hPart : ∀ c, part c = true → isBlank c = false)

include hPart

theorem not_part {c : Char} (hBlank : isBlank c = true) : part c = false := by
  cases hc : part c with
  | false => rfl
  | true =>
    rw [hPart c hc] at hBlank
    cases hBlank

/-- A run that no blank belongs to is the same. -/
theorem takeWhile_eq (h : Agrees first second) :
    first.takeWhile part = second.takeWhile part := by
  induction h with
  | nil => rfl
  | cons c _ ih => simp only [List.takeWhile_cons, ih]
  | blank rest others hFirst hSecond _ =>
    simp [not_part hPart hFirst, not_part hPart hSecond]

theorem dropWhile (h : Agrees first second) :
    Agrees (first.dropWhile part) (second.dropWhile part) := by
  induction h with
  | nil => exact .nil
  | cons c hRest ih =>
    simp only [List.dropWhile_cons]
    split
    · exact ih
    · exact .cons c hRest
  | blank rest others hFirst hSecond hSpace =>
    simpa [not_part hPart hFirst, not_part hPart hSecond]
      using Agrees.blank rest others hFirst hSecond hSpace

end Part

/-- A name between angle brackets does not appear by changing blanks to others that are no
spaces. -/
theorem closes_of_closes (h : Agrees first second)
    (hCloses : (second.dropWhile isBracketedNamePart).head? = some '>') :
    (first.dropWhile isBracketedNamePart).head? = some '>' := by
  induction h with
  | nil => exact hCloses
  | cons c _ ih =>
    rw [List.dropWhile_cons] at hCloses ⊢
    split
    · rename_i hPart
      rw [if_pos hPart] at hCloses
      exact ih hCloses
    · rename_i hPart
      rwa [if_neg hPart] at hCloses
  | @blank b d rest others _ hSecond hSpace =>
    have hName : isNamePart d = false := not_part (fun _ => not_isBlank_of_isNamePart) hSecond
    have hPart : isBracketedNamePart d = false := by simp [isBracketedNamePart, hName, hSpace]
    rw [List.dropWhile_cons, hPart] at hCloses
    cases hCloses
    exact absurd hSecond (by decide)

end Agrees

/-! ## What stands at the front -/

namespace Front

variable {lexeme : Lexeme} {read rest others : List Char}

theorem ofName_agrees (h : ofName (read ++ rest) = .lexeme lexeme read rest)
    (hAgrees : Agrees rest others) : ofName (read ++ others) = .lexeme lexeme read others := by
  have hVisible : ∀ c, isNamePart c = true → isBlank c = false :=
    fun _ => not_isBlank_of_isNamePart
  have hWhole := hAgrees.append_left read
  have hAfter := hWhole.dropWhile hVisible
  have hSplit := List.takeWhile_append_dropWhile (p := isNamePart) (l := read ++ others)
  simp only [ofName, hWhole.takeWhile_eq hVisible, hAfter.endsBareRun_eq, hAfter.bareRun_eq] at h ⊢
  by_cases hEnds : endsBareRun ((read ++ others).dropWhile isNamePart) = true
  · rw [if_pos hEnds] at h ⊢
    obtain ⟨hLexeme, hRead, -⟩ := Front.lexeme.inj h
    rw [hRead] at hSplit
    rw [hLexeme, hRead, List.append_cancel_left hSplit]
  · rw [if_neg hEnds] at h ⊢
    obtain ⟨hLexeme, hRead, -⟩ := Front.lexeme.inj h
    rw [← bareRun_append_afterBareRun ((read ++ others).dropWhile isNamePart), ← List.append_assoc,
      hRead] at hSplit
    rw [hLexeme, hRead, List.append_cancel_left hSplit]

theorem ofBareRun_agrees (h : ofBareRun (read ++ rest) = .lexeme lexeme read rest)
    (hAgrees : Agrees rest others) :
    ofBareRun (read ++ others) = .lexeme lexeme read others := by
  have hSplit := bareRun_append_afterBareRun (read ++ others)
  simp only [ofBareRun, (hAgrees.append_left read).bareRun_eq] at h ⊢
  obtain ⟨hLexeme, hRead, -⟩ := Front.lexeme.inj h
  rw [hRead] at hSplit
  rw [hLexeme, hRead, List.append_cancel_left hSplit]

/-- A quoted text ends at its second apostrophe, whatever follows. -/
theorem ofQuoted_append {tail : List Char}
    (h : ofQuoted (tail ++ rest) = .lexeme lexeme (apostrophe :: tail) rest)
    (others : List Char) :
    ofQuoted (tail ++ others) = .lexeme lexeme (apostrophe :: tail) others := by
  unfold ofQuoted at h
  split at h
  · cases h
  · obtain ⟨hLexeme, hRead, -⟩ := Front.lexeme.inj h
    have hInside : ∀ c ∈ (tail ++ rest).takeWhile (· != apostrophe), (c != apostrophe) = true :=
      List.all_eq_true.mp List.all_takeWhile
    have hTail : tail = (tail ++ rest).takeWhile (· != apostrophe) ++ [apostrophe] :=
      (List.cons.inj hRead).2.symm
    have hTake : (tail ++ others).takeWhile (· != apostrophe)
        = (tail ++ rest).takeWhile (· != apostrophe) := by
      conv_lhs => rw [hTail]
      rw [List.append_assoc, List.takeWhile_append_of_pos hInside]
      simp
    have hDrop : (tail ++ others).dropWhile (· != apostrophe) = apostrophe :: others := by
      conv_lhs => rw [hTail]
      rw [List.append_assoc, List.dropWhile_append_of_pos hInside]
      simp
    simp only [ofQuoted, hDrop, hTake]
    rw [hLexeme, hRead]

theorem ofBracketedName?_agrees
    (h : ofBracketedName? (read ++ rest) = some (.lexeme lexeme read rest))
    (hAgrees : Agrees rest others) :
    ofBracketedName? (read ++ others) = some (.lexeme lexeme read others) := by
  unfold ofBracketedName? at h
  split at h
  · rename_i hCloses
    obtain ⟨hLexeme, hRead, hRest⟩ := Front.lexeme.inj (Option.some.inj h)
    have hInside : ∀ c ∈ read, isBracketedNamePart c = true := by
      rw [← hRead]
      exact List.all_eq_true.mp List.all_takeWhile
    -- The `>` behind the name is no blank, so it stays.
    obtain ⟨more, rfl⟩ : ∃ more, others = '>' :: more := by
      rw [hRest] at hCloses
      cases hAgrees with
      | nil => cases hCloses
      | cons c hMore =>
        cases hCloses
        exact ⟨_, rfl⟩
      | blank _ _ hFirst _ _ =>
        cases hCloses
        exact absurd hFirst (by decide)
    have hStop : isBracketedNamePart '>' = false := by decide
    have hTake : (read ++ '>' :: more).takeWhile isBracketedNamePart
        = (read ++ rest).takeWhile isBracketedNamePart := by
      rw [hRead, List.takeWhile_append_of_pos hInside]
      simp [hStop]
    have hDrop : (read ++ '>' :: more).dropWhile isBracketedNamePart = '>' :: more := by
      rw [List.dropWhile_append_of_pos hInside]
      simp [hStop]
    have hHead : ('>' :: more).head? = some '>' := rfl
    simp only [ofBracketedName?, hDrop, hTake]
    rw [if_pos hHead, hLexeme, hRead]
  · cases h

theorem ofBracketedName?_eq_none {chars : List Char} (h : ofBracketedName? chars = none)
    {new : List Char} (hAgrees : Agrees chars new) : ofBracketedName? new = none := by
  unfold ofBracketedName? at h ⊢
  split at h
  · cases h
  · rename_i hOpen
    exact if_neg fun hCloses => hOpen (hAgrees.closes_of_closes hCloses)

/-- A lexeme does not depend on what is behind a replaced blank. -/
theorem of_agrees {afterLt : Bool} (h : of afterLt (read ++ rest) = .lexeme lexeme read rest)
    (hSome : read ≠ []) (hAgrees : Agrees rest others) :
    of afterLt (read ++ others) = .lexeme lexeme read others := by
  have hWhole := hAgrees.append_left read
  have hAssign := hWhole.startsWithAssign_eq
  obtain ⟨c, tail, rfl⟩ := List.exists_cons_of_ne_nil hSome
  rw [List.cons_append] at h hWhole hAssign
  rw [List.cons_append] at hWhole hAssign ⊢
  simp only [of, hAssign] at h ⊢
  by_cases hStarts : startsWithAssign (c :: (tail ++ others)) = true
  · rw [if_pos hStarts] at h ⊢
    obtain ⟨hLexeme, hRead, -⟩ := Front.lexeme.inj h
    rw [← List.cons_append, ← hRead, List.drop_left, hLexeme]
  rw [if_neg hStarts] at h ⊢
  cases hMark : Mark.ofChar? c with
  | some mark =>
    rw [hMark] at h
    obtain ⟨hLexeme, hRead, -⟩ := Front.lexeme.inj h
    obtain rfl := (List.cons.inj hRead).2
    simp only [hLexeme, List.nil_append]
  | none =>
    simp only [hMark] at h ⊢
    by_cases hStart : isNameStart c = true
    · rw [if_pos hStart] at h ⊢
      cases afterLt with
      | false => exact @ofName_agrees lexeme (c :: tail) rest others h hAgrees
      | true =>
        simp only [if_true] at h ⊢
        cases hFront : ofBracketedName? (c :: (tail ++ rest)) with
        | some front =>
          rw [hFront] at h
          rw [show front = _ from h] at hFront
          rw [← List.cons_append, ofBracketedName?_agrees hFront hAgrees]
        | none =>
          rw [hFront] at h
          rw [ofBracketedName?_eq_none hFront hWhole]
          exact @ofName_agrees lexeme (c :: tail) rest others h hAgrees
    rw [if_neg hStart] at h ⊢
    by_cases hQuote : c = apostrophe
    · rw [if_pos hQuote] at h ⊢
      subst hQuote
      exact ofQuoted_append h others
    rw [if_neg hQuote] at h ⊢
    by_cases hPrintable : isPrintable c = true
    · rw [if_pos hPrintable] at h ⊢
      exact @ofBareRun_agrees lexeme (c :: tail) rest others h hAgrees
    · rw [if_neg hPrintable] at h
      cases h

end Front

theorem Front.read_eq_written {afterLt : Bool} {chars read rest : List Char} {lexeme : Lexeme}
    (hHead : ∀ c, chars.head? = some c → isBlank c = false)
    (h : Front.of afterLt chars = .lexeme lexeme read rest) : read = lexeme.written := by
  obtain ⟨before, hBefore⟩ : ∃ before : List Char, (before.getLast? == some '<') = afterLt := by
    cases afterLt with
    | true => exact ⟨['<'], rfl⟩
    | false => exact ⟨[], rfl⟩
  have hFound := Front.found_of before hHead
  rw [hBefore, h] at hFound
  cases hFound with
  | lexeme hRead => exact hRead

/-! ## Respaced texts -/

/-- Blanks stay, or other blanks that are no spaces take their place. -/
def Respaced (gap other : List Char) : Prop :=
  other = gap ∨ gap ≠ [] ∧ other ≠ [] ∧ ∀ c ∈ other, isBlank c = true ∧ c ≠ ' '

namespace Respaced

variable {gap other : List Char}

theorem blank (h : Respaced gap other) (hGap : ∀ c ∈ gap, isBlank c = true) :
    ∀ c ∈ other, isBlank c = true := by
  rcases h with rfl | ⟨-, -, hOther⟩
  · exact hGap
  · exact fun c hMem => (hOther c hMem).1

theorem agrees (h : Respaced gap other) (hGap : ∀ c ∈ gap, isBlank c = true)
    {first second : List Char} (hAgrees : Agrees first second) :
    Agrees (gap ++ first) (other ++ second) := by
  rcases h with rfl | ⟨hSome, hOtherSome, hOther⟩
  · exact hAgrees.append_left other
  · obtain ⟨b, gap, rfl⟩ := List.exists_cons_of_ne_nil hSome
    obtain ⟨d, other, rfl⟩ := List.exists_cons_of_ne_nil hOtherSome
    obtain ⟨hBlank, hSpace⟩ := hOther d List.mem_cons_self
    exact .blank _ _ (hGap b List.mem_cons_self) hBlank hSpace

/-- What follows stands behind a `<` in both cases or in none. -/
theorem afterLt_eq (h : Respaced gap other) (hGap : ∀ c ∈ gap, isBlank c = true)
    (previous : Option Char) :
    (other.getLast?.or previous == some '<') = (gap.getLast?.or previous == some '<') := by
  have hBlanks : ∀ chars : List Char, chars ≠ [] → (∀ c ∈ chars, isBlank c = true) →
      (chars.getLast?.or previous == some '<') = false := by
    intro chars hSome hChars
    rw [List.getLast?_eq_some_getLast hSome, Option.some_or]
    refine beq_eq_false_iff_ne.mpr fun hLt => ?_
    have hBlank := hChars _ (List.getLast_mem hSome)
    rw [Option.some.inj hLt] at hBlank
    exact absurd hBlank (by decide)
  rcases h with rfl | ⟨hSome, hOtherSome, hOther⟩
  · rfl
  · rw [hBlanks gap hSome hGap, hBlanks other hOtherSome fun c hMem => (hOther c hMem).1]

end Respaced

/-- The text is that of a gap and then these stretches, with some of the gaps respaced. -/
inductive RespacedText : (first : List Char) → List Stretch → List Char → Prop where
  | nil {first front : List Char} : Respaced first front → RespacedText first [] front
  | cons {first front chars : List Char} {stretch : Stretch} {rest : List Stretch} :
      Respaced first front → RespacedText stretch.gap rest chars →
      RespacedText first (stretch :: rest) (front ++ (stretch.token.lexeme.written ++ chars))

theorem RespacedText.agrees {first chars : List Char} {stretches : List Stretch}
    (h : RespacedText first stretches chars)
    (hBlank : ∀ gap ∈ first :: stretches.map Stretch.gap, ∀ c ∈ gap, isBlank c = true) :
    Agrees (first ++ stretches.flatMap Stretch.text) chars := by
  induction h with
  | nil hFirst =>
    have hAgrees := hFirst.agrees (hBlank _ List.mem_cons_self) .nil
    simpa using hAgrees
  | @cons first front chars stretch rest hFirst _ ih =>
    obtain ⟨hGap, hRest⟩ := List.forall_mem_cons.mp hBlank
    have hAgrees := hFirst.agrees hGap ((ih hRest).append_left stretch.token.lexeme.written)
    simpa [Stretch.text] using hAgrees

/-- Where blanks end is determined. -/
theorem blanks_append_inj {gap other first second : List Char}
    (hGap : ∀ c ∈ gap, isBlank c = true) (hOther : ∀ c ∈ other, isBlank c = true)
    (hFirst : ∀ c, first.head? = some c → isBlank c = false)
    (hSecond : ∀ c, second.head? = some c → isBlank c = false)
    (h : gap ++ first = other ++ second) : gap = other ∧ first = second := by
  have hTake : ∀ {blanks chars : List Char}, (∀ c ∈ blanks, isBlank c = true) →
      (∀ c, chars.head? = some c → isBlank c = false) →
      (blanks ++ chars).takeWhile isBlank = blanks := by
    intro blanks chars hBlanks hChars
    rw [List.takeWhile_append_of_pos hBlanks]
    cases chars with
    | nil => simp
    | cons c rest => simp [hChars c rfl]
  have hSame := congrArg (List.takeWhile isBlank) h
  rw [hTake hGap hFirst, hTake hOther hSecond] at hSame
  subst hSame
  exact ⟨rfl, List.append_cancel_left h⟩

/-- A respaced text is read as the same signs. The induction is on the reading of the text itself,
and keeps that the next lexeme has the same character before it. -/
theorem Lexes.respaced {previous : Option Char} {chars : List Char} {signs : List Sign}
    (h : Lexes previous chars signs) {first : List Char} {stretches : List Stretch}
    (hSigns : stretches.map (fun stretch => stretch.token.sign) = signs)
    (hText : chars = first ++ stretches.flatMap Stretch.text)
    (hBlank : ∀ gap ∈ first :: stretches.map Stretch.gap, ∀ c ∈ gap, isBlank c = true)
    {new : List Char} (hNew : RespacedText first stretches new) : Lexes previous new signs := by
  induction h generalizing first stretches new with
  | finish hBlanks =>
    obtain rfl := List.map_eq_nil_iff.mp hSigns
    cases hNew with
    | nil hFirst => exact .finish (hFirst.blank (hBlank _ List.mem_cons_self))
  | @lexeme previous blanks chars read rest lexeme signs hBlanks hHead hFront _ ih =>
    obtain ⟨stretch, more, rfl, hSign, hMore⟩ := List.map_eq_cons_iff.mp hSigns
    obtain rfl : stretch.token.lexeme = lexeme := Lexeme.sign_injective hSign
    obtain ⟨hGap, hGaps⟩ := List.forall_mem_cons.mp hBlank
    obtain rfl := Front.read_eq_written hHead hFront
    obtain ⟨rfl, hSome, -⟩ := Front.takesFrom_of hHead _ _ _ hFront
    have hStart : ∀ rest c, (stretch.token.lexeme.written ++ rest).head? = some c →
        isBlank c = false := by
      intro rest c hc
      rw [List.head?_append_of_ne_nil _ hSome] at hc
      refine hHead c ?_
      rw [List.head?_append_of_ne_nil _ hSome, hc]
    rw [List.flatMap_cons, Stretch.text, List.append_assoc] at hText
    obtain ⟨rfl, hRest⟩ := blanks_append_inj hBlanks hGap hHead (hStart _) hText
    obtain rfl := List.append_cancel_left hRest
    cases hNew with
    | @cons _ front after _ _ hFirst hAfter =>
      have hFrontNew := Front.of_agrees hFront hSome (hAfter.agrees hGaps)
      rw [← hFirst.afterLt_eq hGap] at hFrontNew
      refine .lexeme front (hFirst.blank hGap) (hStart after) hFrontNew ?_
      rw [List.getLast?_eq_some_getLast hSome, Option.some_or] at ih ⊢
      exact ih hMore rfl hGaps hAfter

/-! ## Respaced sources -/

/-- The names between angle brackets do not depend on positions. -/
theorem TokenList.bracketedNamesOf_map (tokens : List Token) :
    bracketedNamesOf (tokens.map fun token => ⟨token.lexeme, 0⟩) = bracketedNamesOf tokens := by
  fun_induction bracketedNamesOf tokens with
  | case1 _ text _ _ _ ih => simpa [bracketedNamesOf] using ih
  | case2 _ rest hRest ih =>
    rw [List.map_cons, bracketedNamesOf, ih]
    intro text _ _ _ hMap
    obtain ⟨⟨_, position⟩, tail, rfl, hName, hMap⟩ := List.map_eq_cons_iff.mp hMap
    obtain ⟨⟨_, gtPosition⟩, tail, rfl, hGt, -⟩ := List.map_eq_cons_iff.mp hMap
    cases hName
    cases hGt
    exact hRest text position gtPosition tail rfl
  | case3 token rest hToken ih =>
    obtain ⟨lexeme, position⟩ := token
    rw [List.map_cons, bracketedNamesOf, ih]
    intro other hOther
    cases hOther
    exact hToken position rfl
  | case4 => rfl

/-- The source is a gap of blanks, and then its tokens, each with a gap of blanks behind it. -/
structure SpacedBy (source : String) (list : TokenList) (first : List Char)
    (stretches : List Stretch) : Prop where
  tokens_eq : list.tokens = stretches.map Stretch.token
  text_eq : source.toList = first ++ stretches.flatMap Stretch.text
  blank : ∀ gap ∈ first :: stretches.map Stretch.gap, ∀ c ∈ gap, isBlank c = true

/-- A source that is cut into tokens is its tokens and gaps of blanks around them. When some of the
gaps are respaced, the lexemes are the same, and so is the grammar that is read, if there is one. -/
theorem tokenize_respaced {source : String} {list : TokenList}
    (hTokens : tokenize source = .ok list) :
    (∃ first stretches, SpacedBy source list first stretches) ∧
      ∀ (first : List Char) (stretches : List Stretch) (other : String),
        SpacedBy source list first stretches → RespacedText first stretches other.toList →
          ∃ others, tokenize other = .ok others ∧
            others.tokens.map Token.lexeme = list.tokens.map Token.lexeme ∧
            ∀ grammar, Grammar.parse other = .ok grammar ↔ Grammar.parse source = .ok grammar := by
  constructor
  · obtain ⟨first, stretches, hPartition, hStretches, -⟩ :=
      (scans_readAll [] source.toList).exists_partition hTokens
    exact ⟨first, stretches, hStretches, hPartition.text_eq, hPartition.blank⟩
  · intro first stretches other hSpaced hOther
    have hLexes := tokenize_iff_lexes.mp ⟨list, hTokens, rfl⟩
    have hStretches : stretches.map (fun stretch => stretch.token.sign)
        = list.tokens.map Token.sign := by
      rw [hSpaced.tokens_eq, List.map_map]
      rfl
    obtain ⟨others, hOthers, hSigns⟩ := tokenize_iff_lexes.mpr
      (hLexes.respaced hStretches hSpaced.text_eq hSpaced.blank hOther)
    have hLexemes : others.tokens.map Token.lexeme = list.tokens.map Token.lexeme := by
      refine List.map_injective_iff.mpr Lexeme.sign_injective ?_
      rw [List.map_map, List.map_map]
      exact hSigns
    have hNames : others.bracketedNames = list.bracketedNames := by
      have hPlain := congrArg (List.map fun lexeme => (⟨lexeme, 0⟩ : Token)) hLexemes
      rw [List.map_map, List.map_map] at hPlain
      rw [TokenList.bracketedNames, ← TokenList.bracketedNamesOf_map, TokenList.bracketedNames,
        ← TokenList.bracketedNamesOf_map list.tokens]
      exact congrArg (fun tokens => (TokenList.bracketedNamesOf tokens).eraseDups) hPlain
    refine ⟨others, hOthers, hLexemes, ?_⟩
    intro grammar
    rw [parse_eq_ok_iff hOthers, parse_eq_ok_iff hTokens, hSigns, hNames]

set_option maxRecDepth 10000 in
/-- Two gaps are respaced, one of them inside of what is not a name after all. -/
theorem tokenize_respaced_lines :
    ∃ list others, tokenize "<a>::=<b\n>| x" = .ok list ∧
      tokenize "<a>::=<b\t\r>|\nx" = .ok others ∧
      others.tokens.map Token.lexeme = list.tokens.map Token.lexeme ∧
      ∀ grammar, Grammar.parse "<a>::=<b\t\r>|\nx" = .ok grammar ↔
        Grammar.parse "<a>::=<b\n>| x" = .ok grammar := by
  let stretches : List Stretch := [⟨⟨.mark .lt, 0⟩, []⟩, ⟨⟨.word .name ⟨"a", by decide⟩, 1⟩, []⟩,
    ⟨⟨.mark .gt, 2⟩, []⟩, ⟨⟨.mark .assign, 3⟩, []⟩, ⟨⟨.mark .lt, 6⟩, []⟩,
    ⟨⟨.word .name ⟨"b", by decide⟩, 7⟩, ['\n']⟩, ⟨⟨.mark .gt, 9⟩, []⟩, ⟨⟨.mark .bar, 10⟩, [' ']⟩,
    ⟨⟨.word .name ⟨"x", by decide⟩, 12⟩, []⟩]
  have hTokens : tokenize "<a>::=<b\n>| x" = .ok ⟨stretches.map Stretch.token, 13⟩ := by cbv
  have hBlank : ([] :: stretches.map Stretch.gap).all (·.all isBlank) = true := by decide
  have hSpaced : SpacedBy "<a>::=<b\n>| x" ⟨stretches.map Stretch.token, 13⟩ [] stretches :=
    ⟨rfl, by decide, by simpa only [List.all_eq_true] using hBlank⟩
  have hText : RespacedText [] stretches "<a>::=<b\t\r>|\nx".toList := by
    have hLine : Respaced ['\n'] ['\t', '\r'] :=
      .inr ⟨List.cons_ne_nil _ _, List.cons_ne_nil _ _,
        List.forall_mem_cons.mpr ⟨by decide, List.forall_mem_singleton.mpr (by decide)⟩⟩
    have hSpace : Respaced [' '] ['\n'] :=
      .inr ⟨List.cons_ne_nil _ _, List.cons_ne_nil _ _,
        List.forall_mem_singleton.mpr (by decide)⟩
    have hNone : Respaced [] [] := .inl rfl
    exact .cons hNone (.cons hNone (.cons hNone (.cons hNone (.cons hNone (.cons hNone
      (.cons hLine (.cons hNone (.cons hSpace (.nil hNone)))))))))
  obtain ⟨others, hOthers, hLexemes, hParse⟩ := (tokenize_respaced hTokens).2 _ _ _ hSpaced hText
  exact ⟨_, others, hTokens, hOthers, hLexemes, hParse⟩

set_option maxRecDepth 3000 in
/-- A space in the place of a line break would become part of the name. -/
example :
    tokenize "<a\n>"
        = .ok ⟨[⟨.mark .lt, 0⟩, ⟨.word .name ⟨"a", by decide⟩, 1⟩, ⟨.mark .gt, 3⟩], 4⟩ ∧
      tokenize "<a >"
        = .ok ⟨[⟨.mark .lt, 0⟩, ⟨.word .name ⟨"a ", by decide⟩, 1⟩, ⟨.mark .gt, 3⟩], 4⟩ := by
  constructor
  · cbv
  · cbv

end CodonGrammar.Bnf
