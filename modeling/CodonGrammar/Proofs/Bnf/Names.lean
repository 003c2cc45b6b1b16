import CodonGrammar.Proofs.Bnf.Acceptance
import CodonGrammar.Proofs.Bnf.TokenReading

/-!
# The names of a grammar that was read

Every non-terminal of a grammar that was read has a name that can stand between angle brackets. If
it is written in the source, its name was read as a name token, and these are such names. If it was
added for a group, its name is that of a head, which is written in the source, followed by a label
and a number.
-/

namespace CodonGrammar.Bnf

open Text (isAlphanumeric)

/-! ## Name tokens -/

theorem isName_takeWhile {p : Char → Bool} {c : Char} (rest : List Char) {text : Terminal}
    (hStart : isNameStart c = true) (hFirst : p c = true)
    (hParts : ∀ d, p d = true → isBracketedNamePart d = true)
    (hText : text.text.toList = (c :: rest).takeWhile p) : IsName text.text := by
  refine ⟨c, rest.takeWhile p, ?_, hStart, ?_⟩
  · rw [hText, List.takeWhile_cons_of_pos hFirst]
  · intro d hMem
    exact hParts d (List.all_eq_true.mp List.all_takeWhile d hMem)

theorem Front.isName_of_name {afterLt : Bool} {chars read rest : List Char} {text : Terminal}
    (h : Front.of afterLt chars = .lexeme (.word .name text) read rest) : IsName text.text := by
  cases chars with
  | nil => cases h
  | cons c tail =>
    rcases Front.of_cases afterLt c tail with
      ⟨mark, read, after, hMark⟩ | ⟨hStart, hName | hName⟩ | hQuoted | hRun | hInvalid
    · cases h.symm.trans hMark
    · rw [h, ofBracketedName?] at hName
      split at hName
      · cases hName
        have hFirst := isBracketedNamePart_of_isNamePart (isNamePart_of_isNameStart hStart)
        exact isName_takeWhile tail hStart hFirst (fun _ hChar => hChar) (by simp [terminalOf])
      · cases hName
    · have hLexeme := h.symm.trans hName
      simp only [ofName] at hLexeme
      split at hLexeme
      · cases hLexeme
        exact isName_takeWhile tail hStart (isNamePart_of_isNameStart hStart)
          (fun _ => isBracketedNamePart_of_isNamePart) (by simp [terminalOf])
      · cases hLexeme
    · have hLexeme := h.symm.trans hQuoted
      unfold ofQuoted at hLexeme
      split at hLexeme <;> cases hLexeme
    · cases h.symm.trans hRun
    · cases h.symm.trans hInvalid

theorem Lexes.isName {previous : Option Char} {chars : List Char} {signs : List Sign}
    (h : Lexes previous chars signs) :
    ∀ sign ∈ signs, sign.kind = .word .name → IsName sign.value := by
  induction h with
  | finish => simp
  | @lexeme previous blanks chars read rest lexeme signs _ _ hFront _ ih =>
    intro sign hMem hKind
    rcases List.mem_cons.mp hMem with rfl | hMem
    · cases lexeme with
      | word kind text =>
        obtain rfl : kind = .name := Kind.word.inj hKind
        exact Front.isName_of_name hFront
      | mark => cases hKind
      | finish => cases hKind
    · exact ih sign hMem hKind

theorem Outline.isName_of_mem {source : String} {list : TokenList} {outline : Outline}
    (hTokens : tokenize source = .ok list) (hSigns : outline.signs = list.tokens.map Token.sign)
    {symbol : NonTerminal} (h : symbol ∈ outline.nonTerminals) : IsName symbol.name := by
  have hLexes := tokenize_iff_lexes.mp ⟨list, hTokens, rfl⟩
  have hName : (⟨.word .name, symbol.name⟩ : Sign) ∈ Sign.ofNonTerminal symbol := by
    simp [Sign.ofNonTerminal]
  refine hLexes.isName ⟨.word .name, symbol.name⟩ ?_ rfl
  rw [← hSigns]
  exact (outline.infix_signs h).subset hName

/-! ## Names of added rules -/

theorem isAlphanumeric_of_isDigit {c : Char} (h : c.isDigit = true) : isAlphanumeric c = true := by
  have hDigits : ∀ digit : Fin 10, isAlphanumeric (Char.ofNat (48 + digit)) = true := by decide
  obtain ⟨hLow, hHigh⟩ : 48 ≤ c.val ∧ c.val ≤ 57 := by simpa [Char.isDigit] using h
  have hLow : 48 ≤ c.toNat := hLow
  have hHigh : c.toNat ≤ 57 := hHigh
  have hDigit := hDigits ⟨c.toNat - 48, by omega⟩
  rwa [Nat.add_sub_cancel' hLow, Char.ofNat_toNat] at hDigit

theorem isName_auxiliaryName {head : NonTerminal} (hHead : IsName head.name) (bracket : Bracket)
    (number : Nat) : IsName (auxiliaryName head bracket number) := by
  obtain ⟨first, rest, hChars, hFirst, hRest⟩ := hHead
  have hLabel : ('-' :: bracket.label.toList).all isBracketedNamePart = true := by
    cases bracket <;> rfl
  have hHyphen : isBracketedNamePart '-' = true := by decide
  refine ⟨first, rest ++ ('-' :: bracket.label.toList) ++ ('-' :: number.repr.toList), ?_, hFirst,
    ?_⟩
  · simp [auxiliaryName, hChars]
  · intro c hMem
    rcases List.mem_append.mp hMem with hMem | hMem
    · rcases List.mem_append.mp hMem with hMem | hMem
      · exact hRest c hMem
      · exact List.all_eq_true.mp hLabel c hMem
    · rcases List.mem_cons.mp hMem with rfl | hMem
      · exact hHyphen
      · have hDigit : c.isDigit = true := by
          refine Nat.isDigit_of_mem_toDigits (by decide) (by decide) (n := number) (b := 10) ?_
          simpa using hMem
        simp [isBracketedNamePart, isNamePart, isAlphanumeric_of_isDigit hDigit]

/-! ## Where the non-terminals of lowered rules come from -/

/-- The non-terminals among the symbols have a property. -/
def AllNonTerminals (P : NonTerminal → Prop) (symbols : List Symbol) : Prop :=
  ∀ symbol, .nonTerminal symbol ∈ symbols → P symbol

theorem Bracket.allNonTerminals_choices {P : NonTerminal → Prop} (bracket : Bracket)
    {head : NonTerminal} (hHead : P head) {inside : List (List Symbol)}
    (h : ∀ symbols ∈ inside, AllNonTerminals P symbols) :
    ∀ symbols ∈ bracket.choices (.nonTerminal head) inside, AllNonTerminals P symbols := by
  intro symbols hMem
  rcases Bracket.mem_choices.mp hMem with ⟨-, rfl⟩ | ⟨-, hMem⟩ | ⟨-, once, hOnce, rfl⟩
  · simp [AllNonTerminals]
  · exact h symbols hMem
  · intro symbol hSymbol
    rcases List.mem_append.mp hSymbol with hSymbol | hSymbol
    · exact h once hOnce symbol hSymbol
    · cases List.mem_singleton.mp hSymbol
      exact hHead

theorem Rule.allNonTerminals {P : NonTerminal → Prop} {rule : Rule} (hHead : P rule.head)
    (h : ∀ symbols ∈ rule.alternatives.map Expression.symbols, AllNonTerminals P symbols) :
    AllNonTerminals P rule.symbolsInOrder := by
  intro symbol hMem
  rcases List.mem_cons.mp hMem with hSame | hMem
  · cases hSame
    exact hHead
  · obtain ⟨expression, hExpression, hSymbol⟩ := List.mem_flatMap.mp hMem
    exact h _ (List.mem_map_of_mem hExpression) symbol hSymbol

section Lowers

variable {P : NonTerminal → Prop}

mutual

theorem Element.Lowers.allNonTerminals : ∀ {element : Element} {symbol : Symbol}
    {added : List Rule}, element.Lowers symbol added → (∀ name ∈ element.nonTerminals, P name) →
    (∀ rule ∈ added, P rule.head) → AllNonTerminals P [symbol] ∧
      ∀ rule ∈ added, AllNonTerminals P rule.symbolsInOrder
  | _, _, _, .word _ _, _, _ => by simp [AllNonTerminals]
  | _, _, _, .nonTerminal symbol, hNames, _ => by
    simpa [AllNonTerminals, Element.nonTerminals] using hNames
  | _, _, _, @Element.Lowers.group bracket _ _ _ rule hBody hRule, hNames, hHeads => by
    obtain ⟨hInner, hHead⟩ := List.forall_mem_append.mp hHeads
    have hHead : P rule.head := hHead rule (List.mem_singleton.mpr rfl)
    obtain ⟨hInside, hAdded⟩ := hBody.allNonTerminals hNames hInner
    refine ⟨by simpa [AllNonTerminals] using hHead, List.forall_mem_append.mpr ⟨hAdded, ?_⟩⟩
    have hChoices := bracket.allNonTerminals_choices hHead hInside
    rw [← hRule] at hChoices
    simpa using Rule.allNonTerminals hHead hChoices

theorem Sequence.Lowers.allNonTerminals : ∀ {sequence : Sequence} {symbols : List Symbol}
    {added : List Rule}, sequence.Lowers symbols added →
    (∀ name ∈ sequence.nonTerminals, P name) → (∀ rule ∈ added, P rule.head) →
    AllNonTerminals P symbols ∧ ∀ rule ∈ added, AllNonTerminals P rule.symbolsInOrder
  | _, _, _, .single hElement, hNames, hHeads => hElement.allNonTerminals hNames hHeads
  | _, _, _, .cons hElement hRest, hNames, hHeads => by
    obtain ⟨hNames, hNamesRest⟩ := List.forall_mem_append.mp hNames
    obtain ⟨hHeads, hHeadsRest⟩ := List.forall_mem_append.mp hHeads
    obtain ⟨hSymbol, hFirst⟩ := hElement.allNonTerminals hNames hHeads
    obtain ⟨hSymbols, hOthers⟩ := hRest.allNonTerminals hNamesRest hHeadsRest
    refine ⟨?_, List.forall_mem_append.mpr ⟨hFirst, hOthers⟩⟩
    intro name hMem
    rcases List.mem_cons.mp hMem with hSame | hMem
    · exact hSymbol name (List.mem_singleton.mpr hSame)
    · exact hSymbols name hMem

theorem Alternatives.Lowers.allNonTerminals : ∀ {alternatives : Alternatives}
    {inside : List (List Symbol)} {added : List Rule}, alternatives.Lowers inside added →
    (∀ name ∈ alternatives.nonTerminals, P name) → (∀ rule ∈ added, P rule.head) →
    (∀ symbols ∈ inside, AllNonTerminals P symbols) ∧
      ∀ rule ∈ added, AllNonTerminals P rule.symbolsInOrder
  | _, _, _, .single hSequence, hNames, hHeads => by
    simpa using hSequence.allNonTerminals hNames hHeads
  | _, _, _, .cons hSequence hRest, hNames, hHeads => by
    obtain ⟨hNames, hNamesRest⟩ := List.forall_mem_append.mp hNames
    obtain ⟨hHeads, hHeadsRest⟩ := List.forall_mem_append.mp hHeads
    obtain ⟨hSymbols, hFirst⟩ := hSequence.allNonTerminals hNames hHeads
    obtain ⟨hInside, hOthers⟩ := hRest.allNonTerminals hNamesRest hHeadsRest
    exact ⟨List.forall_mem_cons.mpr ⟨hSymbols, hInside⟩,
      List.forall_mem_append.mpr ⟨hFirst, hOthers⟩⟩

end

theorem RulesLower.allNonTerminals {rules : List SourceRule} {stated added : List Rule}
    (h : RulesLower rules stated added)
    (hNames : ∀ rule ∈ rules, P rule.head ∧ ∀ name ∈ rule.alternatives.nonTerminals, P name)
    (hHeads : ∀ rule ∈ added, P rule.head) :
    ∀ rule ∈ stated ++ added, AllNonTerminals P rule.symbolsInOrder := by
  induction h with
  | nil => simp
  | @cons source rule rest stated first others hHead hAlternatives _ ih =>
    obtain ⟨⟨hSource, hBody⟩, hRest⟩ := List.forall_mem_cons.mp hNames
    obtain ⟨hFirst, hOthers⟩ := List.forall_mem_append.mp hHeads
    obtain ⟨hInside, hFirstRules⟩ := hAlternatives.allNonTerminals hBody hFirst
    obtain ⟨hStated, hOtherRules⟩ := List.forall_mem_append.mp (ih hRest hOthers)
    have hRule : AllNonTerminals P rule.symbolsInOrder :=
      Rule.allNonTerminals (hHead ▸ hSource) hInside
    exact List.forall_mem_append.mpr ⟨List.forall_mem_cons.mpr ⟨hRule, hStated⟩,
      List.forall_mem_append.mpr ⟨hFirstRules, hOtherRules⟩⟩

end Lowers

/-- The non-terminals of a grammar that was read have proper names. -/
theorem isName_of_parse {source : String} {grammar : Grammar}
    (h : Grammar.parse source = .ok grammar) :
    ∀ symbol, .nonTerminal symbol ∈ grammar.symbolsInOrder → IsName symbol.name := by
  obtain ⟨list, hTokens⟩ := exists_tokenize_of_parse h
  obtain ⟨outline, hSigns, rfl⟩ := (parse_eq_ok_iff hTokens).mp h
  have hWritten : ∀ symbol ∈ outline.nonTerminals, IsName symbol.name :=
    fun symbol => outline.isName_of_mem hTokens hSigns
  obtain ⟨hLowers, hNamed⟩ := outline.lower_lowersTo list.bracketedNames
    fun symbol => outline.name_mem_bracketedNames hSigns
  have hSource : ∀ rule ∈ outline.rules,
      IsName rule.head.name ∧ ∀ name ∈ rule.alternatives.nonTerminals, IsName name.name := by
    intro rule hRule
    have hMem : ∀ name ∈ rule.head :: rule.alternatives.nonTerminals, IsName name.name :=
      fun name hName => hWritten name (List.mem_flatMap.mpr ⟨rule, hRule, hName⟩)
    exact List.forall_mem_cons.mp hMem
  have hAdded : ∀ rule ∈ (outline.lower list.bracketedNames).added, IsName rule.head.name := by
    intro rule hRule
    obtain ⟨head, hHead, bracket, number, hName⟩ := hNamed rule hRule
    obtain ⟨first, hFirst, rfl⟩ := List.mem_map.mp hHead
    rw [hName]
    exact isName_auxiliaryName (hSource first hFirst).1 bracket number
  intro symbol hSymbol
  obtain ⟨rule, hRule, hMem⟩ := List.mem_flatMap.mp hSymbol
  exact RulesLower.allNonTerminals (P := fun symbol => IsName symbol.name) hLowers.rules hSource
    hAdded rule hRule symbol hMem

end CodonGrammar.Bnf
