import CodonGrammar.Proofs.Bnf.Names

/-!
# Written grammars read back

The written form of a grammar is read as the signs of an outline without groups, and lowering leaves
such an outline as it is. This holds as long as each non-terminal has a name that can stand between
angle brackets. It cannot hold otherwise, because all names of a grammar that was read are of this
kind (`isName_of_parse`).
-/

namespace CodonGrammar.Bnf

open Text (isBlank)

/-! ## Outlines without groups -/

section Lower

variable (head : NonTerminal) (state : Lowering)

mutual

/-- Lowering leaves an element without groups as it is. -/
theorem Element.lower_of_plain : ∀ (element : Element) {symbol : Symbol} {added : List Rule},
    element.Lowers symbol added → added = [] → element.lower head state = (symbol, state)
  | .word _ _, _, _, h, _ => by
    cases h
    rfl
  | .nonTerminal _, _, _, h, _ => by
    cases h
    rfl
  | .group _ _, _, _, h, hAdded => by
    cases h
    simp at hAdded

theorem Sequence.lower_of_plain : ∀ (sequence : Sequence) {symbols : List Symbol}
    {added : List Rule}, sequence.Lowers symbols added → added = [] →
    ∃ expression, expression.symbols = symbols ∧
      sequence.lower head state = (expression, state)
  | .single element, _, _, h, hAdded => by
    cases h with
    | single hElement =>
      have hLower := element.lower_of_plain hElement hAdded
      exact ⟨.single _, rfl, by rw [Sequence.lower, hLower]⟩
  | .cons element rest, _, _, h, hAdded => by
    cases h with
    | cons hElement hRest =>
      obtain ⟨hFirst, hOthers⟩ := List.append_eq_nil_iff.mp hAdded
      have hLower := element.lower_of_plain hElement hFirst
      obtain ⟨expression, hSymbols, hLowerRest⟩ := rest.lower_of_plain hRest hOthers
      refine ⟨⟨_ :: expression.symbols, by simp⟩, by rw [hSymbols], ?_⟩
      simp only [Sequence.lower, hLower, hLowerRest]

theorem Alternatives.lower_of_plain : ∀ (alternatives : Alternatives)
    {inside : List (List Symbol)} {added : List Rule}, alternatives.Lowers inside added →
    added = [] →
    ∃ first others, (first :: others).map Expression.symbols = inside ∧
      alternatives.lower head state = ((first, others), state)
  | .single sequence, _, _, h, hAdded => by
    cases h with
    | single hSequence =>
      obtain ⟨expression, rfl, hLower⟩ := sequence.lower_of_plain hSequence hAdded
      exact ⟨expression, [], rfl, by rw [Alternatives.lower, hLower]⟩
  | .cons sequence rest, _, _, h, hAdded => by
    cases h with
    | cons hSequence hRest =>
      obtain ⟨hFirst, hOthers⟩ := List.append_eq_nil_iff.mp hAdded
      obtain ⟨expression, rfl, hLower⟩ := sequence.lower_of_plain hSequence hFirst
      obtain ⟨next, more, rfl, hLowerRest⟩ := rest.lower_of_plain hRest hOthers
      refine ⟨expression, next :: more, rfl, ?_⟩
      simp only [Alternatives.lower, hLower, hLowerRest]

end

end Lower

theorem lowerRules_of_plain {rules : List SourceRule} {stated added : List Rule}
    (h : RulesLower rules stated added) (hAdded : added = []) (state : Lowering) :
    lowerRules rules state = (stated, state) := by
  induction h with
  | nil => rfl
  | @cons source rule rest stated first others hHead hAlternatives _ ih =>
    obtain ⟨hFirst, hOthers⟩ := List.append_eq_nil_iff.mp hAdded
    obtain ⟨expression, more, hInside, hLower⟩ :=
      source.alternatives.lower_of_plain source.head state hAlternatives hFirst
    have hSame : expression :: more = rule.alternatives :=
      List.map_injective_iff.mpr (fun _ _ => Expression.ext) hInside
    have hRule : source.lower state = (rule, state) := by
      obtain ⟨ruleHead, alternatives, hNonempty⟩ := rule
      obtain rfl : ruleHead = source.head := hHead
      obtain rfl : expression :: more = alternatives := hSame
      simp only [SourceRule.lower, hLower]
    simp only [lowerRules, hRule, ih hOthers]

/-! ## The tokens of a written grammar -/

section Written

variable {b : Char} (hBlank : isBlank b = true) {rest : List Char} {signs : List Sign}
  (h : ∀ previous, Lexes previous (b :: rest) signs)

include hBlank h

theorem exists_lexes_symbol (symbol : Symbol)
    (hName : ∀ name, symbol = .nonTerminal name → IsName name.name) :
    ∃ element : Element, element.Lowers symbol [] ∧ ∀ previous,
      Lexes previous (' ' :: (symbol.written.toList ++ b :: rest)) (element.signs ++ signs) := by
  cases symbol with
  | terminal text =>
    have hSpace : some ' ' ≠ some '<' := by decide
    obtain ⟨kind, hKind⟩ := Lexes.terminal text hBlank h hSpace
    exact ⟨.word kind text, .word kind text, Lexes.blank (by decide) hKind⟩
  | nonTerminal name =>
    refine ⟨.nonTerminal name, .nonTerminal name, Lexes.blank (by decide) ?_⟩
    exact Lexes.nonTerminal (hName name rfl) (h _) _

theorem exists_lexes_symbols (symbols : List Symbol) (hNonempty : symbols ≠ [])
    (hNames : ∀ name, .nonTerminal name ∈ symbols → IsName name.name) :
    ∃ sequence : Sequence, sequence.Lowers symbols [] ∧ ∀ previous,
      Lexes previous
        (' ' :: ((String.intercalate " " (symbols.map Symbol.written)).toList ++ b :: rest))
        (sequence.signs ++ signs) := by
  induction symbols with
  | nil => exact absurd rfl hNonempty
  | cons symbol others ih =>
    have hSymbol : ∀ name, symbol = .nonTerminal name → IsName name.name :=
      fun name hSame => hNames name (hSame ▸ List.mem_cons_self)
    cases others with
    | nil =>
      obtain ⟨element, hLowers, hLexes⟩ := exists_lexes_symbol hBlank h symbol hSymbol
      exact ⟨.single element, .single hLowers, by simpa [Sequence.signs] using hLexes⟩
    | cons next more =>
      obtain ⟨sequence, hLowers, hLexes⟩ := ih (List.cons_ne_nil next more)
        fun name hMem => hNames name (List.mem_cons_of_mem _ hMem)
      obtain ⟨element, hElement, hFirst⟩ :=
        exists_lexes_symbol (by decide) hLexes symbol hSymbol
      refine ⟨.cons element sequence, .cons hElement hLowers, ?_⟩
      simpa [Sequence.signs] using hFirst

theorem exists_lexes_alternatives (alternatives : List Expression) (hNonempty : alternatives ≠ [])
    (hNames : ∀ expression ∈ alternatives, ∀ name, .nonTerminal name ∈ expression.symbols →
      IsName name.name) :
    ∃ outline : Alternatives, outline.Lowers (alternatives.map Expression.symbols) [] ∧
      ∀ previous, Lexes previous
        (' ' :: ((String.intercalate " | " (alternatives.map Expression.written)).toList
          ++ b :: rest))
        (outline.signs ++ signs) := by
  induction alternatives with
  | nil => exact absurd rfl hNonempty
  | cons expression others ih =>
    have hExpression := hNames expression List.mem_cons_self
    cases others with
    | nil =>
      obtain ⟨sequence, hLowers, hLexes⟩ :=
        exists_lexes_symbols hBlank h expression.symbols expression.nonempty hExpression
      refine ⟨.single sequence, .single hLowers, ?_⟩
      simpa [Alternatives.signs, Expression.written] using hLexes
    | cons next more =>
      obtain ⟨outline, hLowers, hLexes⟩ := ih (List.cons_ne_nil next more)
        fun other hMem => hNames other (List.mem_cons_of_mem _ hMem)
      have hMark : Mark.ofChar? '|' = some .bar := rfl
      have hBar := Lexes.blank (by decide : isBlank ' ' = true) (Lexes.mark hMark (hLexes _) _)
      obtain ⟨sequence, hSequence, hFirst⟩ :=
        exists_lexes_symbols (by decide) hBar expression.symbols expression.nonempty hExpression
      refine ⟨.cons sequence outline, .cons hSequence hLowers, ?_⟩
      simpa [Alternatives.signs, Expression.written] using hFirst

theorem exists_lexes_rule (rule : Rule)
    (hNames : ∀ name, .nonTerminal name ∈ rule.symbolsInOrder → IsName name.name) :
    ∃ source : SourceRule, rule.head = source.head ∧
      source.alternatives.Lowers (rule.alternatives.map Expression.symbols) [] ∧
      ∀ previous, Lexes previous (rule.written.toList ++ b :: rest) (source.signs ++ signs) := by
  have hHead : IsName rule.head.name := hNames rule.head List.mem_cons_self
  obtain ⟨outline, hLowers, hLexes⟩ :=
    exists_lexes_alternatives hBlank h rule.alternatives rule.nonempty
      fun expression hExpression name hName =>
        hNames name (List.mem_cons_of_mem _ (List.mem_flatMap.mpr ⟨expression, hExpression, hName⟩))
  refine ⟨⟨rule.head, outline⟩, rfl, hLowers, fun previous => ?_⟩
  have hAssign := Lexes.blank (by decide : isBlank ' ' = true) (Lexes.assign (hLexes _) _)
  simpa [Rule.written, SourceRule.signs] using
    Lexes.nonTerminal hHead (hAssign _) previous

end Written

theorem exists_lexes_rules (rules : List Rule) (hNonempty : rules ≠ [])
    (hNames : ∀ rule ∈ rules, ∀ name, .nonTerminal name ∈ rule.symbolsInOrder →
      IsName name.name) :
    ∃ sources : List SourceRule, RulesLower sources rules [] ∧ ∀ previous,
      Lexes previous ((String.intercalate "\n" (rules.map Rule.written)).toList ++ ['\n'])
        (sources.flatMap SourceRule.signs) := by
  have hBreak : isBlank '\n' = true := by decide
  induction rules with
  | nil => exact absurd rfl hNonempty
  | cons rule others ih =>
    have hRule := hNames rule List.mem_cons_self
    cases others with
    | nil =>
      have hEnd : ∀ previous, Lexes previous ['\n'] [] :=
        fun previous => .finish (by simp [hBreak])
      obtain ⟨source, hHead, hLowers, hLexes⟩ := exists_lexes_rule hBreak hEnd rule hRule
      refine ⟨[source], .cons hHead hLowers .nil, ?_⟩
      simpa using hLexes
    | cons next more =>
      obtain ⟨sources, hLowers, hLexes⟩ := ih (List.cons_ne_nil next more)
        fun other hMem => hNames other (List.mem_cons_of_mem _ hMem)
      obtain ⟨source, hHead, hSource, hFirst⟩ :=
        exists_lexes_rule hBreak (Lexes.blank hBreak (hLexes _)) rule hRule
      refine ⟨source :: sources, .cons hHead hSource hLowers, ?_⟩
      simpa using hFirst

/-- A grammar whose non-terminals have proper names is read back as it was written. -/
theorem parse_toSource_of_isName {grammar : Grammar}
    (hNames : ∀ name, .nonTerminal name ∈ grammar.symbolsInOrder → IsName name.name) :
    Grammar.parse grammar.toSource = .ok grammar := by
  obtain ⟨sources, hLowers, hLexes⟩ := exists_lexes_rules grammar.rules grammar.nonempty
    fun rule hRule name hName => hNames name (List.mem_flatMap.mpr ⟨rule, hRule, hName⟩)
  have hSource : Lexes none grammar.toSource.toList (sources.flatMap SourceRule.signs) := by
    simpa [Grammar.toSource, Grammar.written] using hLexes none
  obtain ⟨list, hTokens, hSigns⟩ := tokenize_iff_lexes.mpr hSource
  have hNonempty : sources ≠ [] := by
    rintro rfl
    generalize hRules : grammar.rules = rules at hLowers
    cases hLowers
    exact grammar.nonempty hRules
  refine (parse_eq_ok_iff hTokens).mpr ⟨⟨sources, hNonempty⟩, hSigns.symm, ?_⟩
  have hLowered := lowerRules_of_plain hLowers rfl ⟨0, list.bracketedNames, []⟩
  apply Grammar.ext
  simp [Outline.lower, Reading.grammar, hLowered]

/-- A grammar is read back as it was written exactly when all its non-terminals have proper names,
and this is so for every grammar that was read. -/
theorem parse_toSource_iff (grammar : Grammar) :
    (Grammar.parse grammar.toSource = .ok grammar ↔
        ∀ symbol, .nonTerminal symbol ∈ grammar.symbolsInOrder → IsName symbol.name) ∧
      ∀ source, Grammar.parse source = .ok grammar →
        Grammar.parse grammar.toSource = .ok grammar := by
  refine ⟨⟨isName_of_parse, parse_toSource_of_isName⟩, ?_⟩
  intro source hParse
  exact parse_toSource_of_isName (isName_of_parse hParse)

set_option maxRecDepth 10000 in
/-- An optional part comes back as its rule, and a head without a name does not come back. -/
theorem parse_toSource_optional :
    (∃ grammar, Grammar.parse "<a b> ::= [x]" = .ok grammar ∧
      Grammar.parse grammar.toSource = .ok grammar) ∧
      ∃ grammar, grammar.start = ⟨""⟩ ∧ Grammar.parse grammar.toSource ≠ .ok grammar := by
  constructor
  · have hTokens : tokenize "<a b> ::= [x]" = .ok ⟨[⟨.mark .lt, 0⟩,
        ⟨.word .name ⟨"a b", by decide⟩, 1⟩, ⟨.mark .gt, 4⟩, ⟨.mark .assign, 6⟩,
        ⟨.mark .lbracket, 10⟩, ⟨.word .name ⟨"x", by decide⟩, 11⟩, ⟨.mark .rbracket, 12⟩], 13⟩ := by
      cbv
    let group : Element := .group .optional (.single (.single (.word .name ⟨"x", by decide⟩)))
    have hParse := (parse_eq_ok_iff hTokens).mpr
      ⟨⟨[⟨⟨"a b"⟩, .single (.single group)⟩], by simp⟩, rfl, rfl⟩
    exact ⟨_, hParse, (parse_toSource_iff _).2 _ hParse⟩
  · refine ⟨⟨[⟨⟨""⟩, [.single (.terminal .empty)], by simp⟩], by simp⟩, rfl, fun hParse => ?_⟩
    have hMem := List.mem_cons_self (a := Symbol.nonTerminal ⟨""⟩) (l := [.terminal .empty])
    obtain ⟨first, rest, hName, -⟩ := (parse_toSource_iff _).1.mp hParse ⟨""⟩ hMem
    cases hName

end CodonGrammar.Bnf
