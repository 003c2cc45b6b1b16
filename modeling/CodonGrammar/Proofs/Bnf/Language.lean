import CodonGrammar.Proofs.Bnf.Meaning

/-!
# Lowering keeps the language

A grammar in which the parts of a source have counterparts gives every non-terminal of the source
the words that it has there (`Outline.RenderedBy.language_eq`), and the grammar that is read from a
source is of this kind (`language_eq_meaning`).

A derivation of a word in the source is followed through the parts of the source. In the other
direction the induction is on the parts of a word in the grammar. It speaks about lists of elements,
because an alternative that repeats a group ends with the symbol of the group itself.
-/

namespace CodonGrammar.Bnf

open Grammar (Yields)

/-! ## From the source to the grammar -/

section Group

variable {grammar : Grammar} {bracket : Bracket} {rule : Rule} {inside : List (List Symbol)}
  (hRule : grammar.ruleFor? rule.head = some rule)
  (hChoices : rule.alternatives.map Expression.symbols
    = bracket.choices (.nonTerminal rule.head) inside)

include hRule hChoices

theorem yields_group_nothing (hBracket : bracket ≠ .oneOrMore) :
    grammar.Yields [.nonTerminal rule.head] [] := by
  refine Yields.ofChoice hRule ?_ Grammar.yields_empty
  rw [hChoices]
  exact Bracket.mem_choices.mpr (.inl ⟨hBracket, rfl⟩)

theorem yields_group_once (hBracket : bracket ≠ .zeroOrMore) {symbols word : List Symbol}
    (hSymbols : symbols ∈ inside) (h : grammar.Yields symbols word) :
    grammar.Yields [.nonTerminal rule.head] word := by
  refine Yields.ofChoice hRule ?_ h
  rw [hChoices]
  exact Bracket.mem_choices.mpr (.inr (.inl ⟨hBracket, hSymbols⟩))

theorem yields_group_again (hBracket : bracket ≠ .optional) {symbols first others : List Symbol}
    (hSymbols : symbols ∈ inside) (hFirst : grammar.Yields symbols first)
    (hOthers : grammar.Yields [.nonTerminal rule.head] others) :
    grammar.Yields [.nonTerminal rule.head] (first ++ others) := by
  refine Yields.ofChoice hRule ?_ (hFirst.append hOthers)
  rw [hChoices]
  exact Bracket.mem_choices.mpr (.inr (.inr ⟨hBracket, symbols, hSymbols, rfl⟩))

/-- Words that the alternatives inside yield, one after another, with `last` behind them. -/
theorem yields_group_flatten (hBracket : bracket ≠ .optional) {words : List (List Symbol)}
    (hWords : ∀ word ∈ words, ∃ symbols ∈ inside, grammar.Yields symbols word)
    {last : List Symbol} (hLast : grammar.Yields [.nonTerminal rule.head] last) :
    grammar.Yields [.nonTerminal rule.head] (words.flatten ++ last) := by
  induction words with
  | nil => exact hLast
  | cons word words ih =>
    obtain ⟨⟨symbols, hSymbols, hWord⟩, hRest⟩ := List.forall_mem_cons.mp hWords
    rw [List.flatten_cons, List.append_assoc]
    exact yields_group_again hRule hChoices hBracket hSymbols hWord (ih hRest)

end Group

section Meaning

variable {outline : Outline} {grammar : Grammar} (h : outline.RenderedBy grammar)

include h

/-- The counterpart of a part of the source yields its words: one of its lists of symbols does. -/
theorem Outline.Means.exists_yields {piece : Piece} {word : List Symbol}
    (hMeans : outline.Means piece word) : ∀ {choices : List (List Symbol)},
    outline.Renders grammar piece choices →
    ∃ symbols ∈ choices, grammar.Yields symbols word := by
  induction hMeans with
  | word kind text =>
    intro choices hRenders
    cases hRenders
    exact ⟨_, List.mem_cons_self, .single rfl⟩
  | @undefined symbol hNone =>
    intro choices hRenders
    cases hRenders with
    | nonTerminal hScope =>
      have hRule : grammar.expansionOf? (.nonTerminal symbol) = none :=
        h.undefined symbol hScope hNone
      exact ⟨_, List.mem_cons_self, visible_nonTerminal symbol ▸ Yields.single hRule⟩
  | @defined symbol source word hSome _ ih =>
    intro choices hRenders
    cases hRenders
    obtain ⟨rule, hRule, hBody⟩ := h.defined symbol source hSome
    obtain ⟨symbols, hSymbols, hYields⟩ := ih hBody
    exact ⟨_, List.mem_cons_self, .ofChoice hRule hSymbols hYields⟩
  | absent body =>
    intro choices hRenders
    cases hRenders with
    | group hBody hRule hChoices =>
      exact ⟨_, List.mem_cons_self, yields_group_nothing hRule hChoices (by decide)⟩
  | present _ ih =>
    intro choices hRenders
    cases hRenders with
    | group hBody hRule hChoices =>
      obtain ⟨symbols, hSymbols, hYields⟩ := ih hBody
      exact ⟨_, List.mem_cons_self,
        yields_group_once hRule hChoices (by decide) hSymbols hYields⟩
  | @zeroOrMore body words _ ih =>
    intro choices hRenders
    cases hRenders with
    | group hBody hRule hChoices =>
      have hNothing := yields_group_nothing hRule hChoices (by decide)
      have hWords := yields_group_flatten hRule hChoices (by decide)
        (fun word hWord => ih word hWord hBody) hNothing
      exact ⟨_, List.mem_cons_self, by simpa using hWords⟩
  | @oneOrMore body words hNonempty _ ih =>
    intro choices hRenders
    cases hRenders with
    | @group _ _ inside rule hBody hRule hChoices =>
      have hWords : ∀ word ∈ words, ∃ symbols ∈ inside, grammar.Yields symbols word :=
        fun word hWord => ih word hWord hBody
      -- The last repetition is a choice without the group behind it.
      obtain ⟨before, last, rfl⟩ : ∃ before last, words = before ++ [last] :=
        ⟨_, _, (List.dropLast_concat_getLast hNonempty).symm⟩
      obtain ⟨hBefore, hLast⟩ := List.forall_mem_append.mp hWords
      obtain ⟨symbols, hSymbols, hYields⟩ := hLast last (List.mem_singleton.mpr rfl)
      have hOnce := yields_group_once hRule hChoices (by decide) hSymbols hYields
      have hWhole := yields_group_flatten hRule hChoices (by decide) hBefore hOnce
      exact ⟨_, List.mem_cons_self, by simpa using hWhole⟩
  | lastElement _ ih =>
    intro choices hRenders
    cases hRenders with
    | single hElement => exact ih hElement
  | moreElements _ _ ihFirst ihOthers =>
    intro choices hRenders
    cases hRenders with
    | cons hElement hRest =>
      obtain ⟨_, hSymbol, hFirst⟩ := ihFirst hElement
      obtain ⟨_, hSymbols, hOthers⟩ := ihOthers hRest
      cases List.mem_singleton.mp hSymbol
      cases List.mem_singleton.mp hSymbols
      exact ⟨_, List.mem_cons_self, hFirst.append hOthers⟩
  | onlyAlternative _ ih =>
    intro choices hRenders
    cases hRenders with
    | lastAlternative hSequence => exact ih hSequence
  | firstAlternative _ ih =>
    intro choices hRenders
    cases hRenders with
    | alternative hSequence _ =>
      obtain ⟨symbols, hSymbols, hYields⟩ := ih hSequence
      cases List.mem_singleton.mp hSymbols
      exact ⟨_, List.mem_cons_self, hYields⟩
  | laterAlternative _ ih =>
    intro choices hRenders
    cases hRenders with
    | alternative _ hRest =>
      obtain ⟨symbols, hSymbols, hYields⟩ := ih hRest
      exact ⟨symbols, List.mem_cons_of_mem _ hSymbols, hYields⟩

end Meaning

/-! ## From the grammar to the source -/

/-- The elements of a sequence. -/
def Sequence.elements : Sequence → List Element
  | .single element => [element]
  | .cons element rest => element :: rest.elements

namespace Outline.Means

variable {outline : Outline} {bracket : Bracket} {body : Alternatives}

theorem group_nothing (hBracket : bracket ≠ .oneOrMore) :
    outline.Means (.element (.group bracket body)) [] := by
  cases bracket with
  | optional => exact .absent body
  | zeroOrMore => exact @Outline.Means.zeroOrMore outline body [] (by simp)
  | oneOrMore => exact absurd rfl hBracket

theorem group_once (hBracket : bracket ≠ .zeroOrMore) {word : List Symbol}
    (h : outline.Means (.alternatives body) word) :
    outline.Means (.element (.group bracket body)) word := by
  cases bracket with
  | optional => exact .present h
  | zeroOrMore => exact absurd rfl hBracket
  | oneOrMore =>
    have hGroup := Outline.Means.oneOrMore (List.cons_ne_nil word []) (by simpa using h)
    simpa using hGroup

theorem group_again (hBracket : bracket ≠ .optional) {first others : List Symbol}
    (hFirst : outline.Means (.alternatives body) first)
    (hOthers : outline.Means (.element (.group bracket body)) others) :
    outline.Means (.element (.group bracket body)) (first ++ others) := by
  cases hOthers with
  | absent => exact absurd rfl hBracket
  | present => exact absurd rfl hBracket
  | @zeroOrMore _ words hWords =>
    have hAll := List.forall_mem_cons.mpr ⟨hFirst, hWords⟩
    exact .zeroOrMore hAll
  | @oneOrMore _ words _ hWords =>
    exact .oneOrMore (List.cons_ne_nil first words) (List.forall_mem_cons.mpr ⟨hFirst, hWords⟩)

end Outline.Means

section Words

variable {outline : Outline} {grammar : Grammar}

/-- Each word is one of the element in its place. -/
def Outline.MeansAll (outline : Outline) : List Element → List (List Symbol) → Prop :=
  List.Forall₂ fun element word => outline.Means (.element element) word

theorem Outline.MeansAll.sequence : ∀ {sequence : Sequence} {words : List (List Symbol)},
    outline.MeansAll sequence.elements words → outline.Means (.sequence sequence) words.flatten
  | .single element, _, h => by
    cases h with
    | cons hElement hNil =>
      cases hNil
      simpa using Outline.Means.lastElement hElement
  | .cons element rest, _, h => by
    cases h with
    | cons hElement hRest => exact .moreElements hElement (MeansAll.sequence hRest)

theorem Outline.MeansAll.split {first second : List Element} {words : List (List Symbol)}
    (h : outline.MeansAll (first ++ second) words) :
    ∃ front back, words = front ++ back ∧ outline.MeansAll first front ∧
      outline.MeansAll second back := by
  induction first generalizing words with
  | nil => exact ⟨[], words, rfl, .nil, h⟩
  | cons element first ih =>
    cases h with
    | cons hElement hRest =>
      obtain ⟨front, back, rfl, hFront, hBack⟩ := ih hRest
      exact ⟨_ :: front, back, rfl, .cons hElement hFront, hBack⟩

/-- Each symbol is the counterpart of the element in its place. -/
def Outline.RendersAll (outline : Outline) (grammar : Grammar) :
    List Element → List Symbol → Prop :=
  List.Forall₂ fun element symbol => outline.Renders grammar (.element element) [[symbol]]

theorem Outline.Renders.elements : ∀ {sequence : Sequence} {symbols : List Symbol},
    outline.Renders grammar (.sequence sequence) [symbols] →
    outline.RendersAll grammar sequence.elements symbols
  | .single element, _, h => by
    cases h with
    | single hElement => exact .cons hElement .nil
  | .cons element rest, _, h => by
    cases h with
    | cons hElement hRest => exact .cons hElement hRest.elements

theorem Outline.Renders.exists_sequence : ∀ {alternatives : Alternatives}
    {inside : List (List Symbol)}, outline.Renders grammar (.alternatives alternatives) inside →
    ∀ symbols ∈ inside, ∃ sequence : Sequence,
      outline.RendersAll grammar sequence.elements symbols ∧
      ∀ word, outline.Means (.sequence sequence) word →
        outline.Means (.alternatives alternatives) word
  | .single sequence, _, h, symbols, hSymbols => by
    cases h with
    | lastAlternative hSequence =>
      obtain rfl := List.mem_singleton.mp hSymbols
      exact ⟨sequence, hSequence.elements, fun _ => .onlyAlternative⟩
  | .cons sequence rest, _, h, symbols, hSymbols => by
    cases h with
    | alternative hSequence hRest =>
      rcases List.mem_cons.mp hSymbols with rfl | hSymbols
      · exact ⟨sequence, hSequence.elements, fun _ => .firstAlternative⟩
      · obtain ⟨found, hFound, hMeans⟩ := hRest.exists_sequence symbols hSymbols
        exact ⟨found, hFound, fun word hWord => .laterAlternative (hMeans word hWord)⟩

/-- Whatever elements the symbols are the counterparts of, the word is made of words of these
elements. -/
def Outline.ReadsAs (outline : Outline) (grammar : Grammar) (symbols word : List Symbol) : Prop :=
  ∀ elements, outline.RendersAll grammar elements symbols →
    ∃ words, word = words.flatten ∧ outline.MeansAll elements words

theorem Outline.ReadsAs.alternatives {symbols word : List Symbol}
    (h : outline.ReadsAs grammar symbols word) {alternatives : Alternatives}
    {inside : List (List Symbol)}
    (hBody : outline.Renders grammar (.alternatives alternatives) inside)
    (hSymbols : symbols ∈ inside) : outline.Means (.alternatives alternatives) word := by
  obtain ⟨sequence, hSequence, hMeans⟩ := hBody.exists_sequence symbols hSymbols
  obtain ⟨words, rfl, hWords⟩ := h _ hSequence
  exact hMeans _ hWords.sequence

/-- A choice of the rule of a group reads as a word of the group. -/
theorem Outline.ReadsAs.group {symbols word : List Symbol}
    (h : outline.ReadsAs grammar symbols word) {bracket : Bracket} {body : Alternatives}
    {again : Symbol} {inside : List (List Symbol)}
    (hBody : outline.Renders grammar (.alternatives body) inside)
    (hAgain : outline.Renders grammar (.element (.group bracket body)) [[again]])
    (hChoice : symbols ∈ bracket.choices again inside) :
    outline.Means (.element (.group bracket body)) word := by
  rcases Bracket.mem_choices.mp hChoice with
    ⟨hBracket, rfl⟩ | ⟨hBracket, hOnce⟩ | ⟨hBracket, once, hOnce, rfl⟩
  · obtain ⟨words, rfl, hWords⟩ := h _ (.cons (.word .quoted .empty) .nil)
    cases hWords with
    | cons hWord hNil =>
      cases hNil
      cases hWord
      simpa using Outline.Means.group_nothing hBracket
  · exact .group_once hBracket (h.alternatives hBody hOnce)
  · -- The group itself is the last of the elements that the choice stands for.
    obtain ⟨sequence, hSequence, hMeans⟩ := hBody.exists_sequence once hOnce
    obtain ⟨words, rfl, hWords⟩ := h _ (List.rel_append hSequence (.cons hAgain .nil))
    obtain ⟨front, back, rfl, hFront, hBack⟩ := hWords.split
    cases hBack with
    | cons hGroup hNil =>
      cases hNil
      have hBoth := Outline.Means.group_again hBracket (hMeans _ hFront.sequence) hGroup
      simpa using hBoth

/-- The induction is on the parts of the word. A symbol that is kept has no rule in the source
either, and one that is expanded has the rule of its non-terminal or of its group. -/
theorem Outline.RenderedBy.readsAs (h : outline.RenderedBy grammar)
    {symbols word : List Symbol} (hYields : grammar.Yields symbols word) :
    outline.ReadsAs grammar symbols word := by
  induction hYields with
  | nil =>
    intro elements hRenders
    cases hRenders
    exact ⟨[], rfl, .nil⟩
  | @keep symbol rest word hNone _ ih =>
    intro elements hRenders
    cases hRenders with
    | @cons element _ _ _ hElement hRest =>
      obtain ⟨words, rfl, hWords⟩ := ih _ hRest
      refine ⟨visible [symbol] :: words, rfl, .cons ?_ hWords⟩
      cases hElement with
      | word kind text => exact .word kind text
      | @nonTerminal name hScope =>
        cases hSource : outline.ruleFor? name with
        | none => exact (visible_nonTerminal name).symm ▸ .undefined hSource
        | some source =>
          obtain ⟨rule, hRule, -⟩ := h.defined name source hSource
          cases hNone.symm.trans hRule
      | group _ hRule _ => cases hNone.symm.trans hRule
  | @expand symbol rule alternative rest first others hRule hAlternative _ _ ihFirst ihRest =>
    intro elements hRenders
    cases hRenders with
    | @cons element _ _ _ hElement hRest =>
      obtain ⟨words, rfl, hWords⟩ := ihRest _ hRest
      refine ⟨first :: words, rfl, .cons ?_ hWords⟩
      have hChoice := List.mem_map_of_mem (f := Expression.symbols) hAlternative
      cases hElement with
      | word => cases hRule
      | @nonTerminal name hScope =>
        cases hSource : outline.ruleFor? name with
        | none => cases (h.undefined name hScope hSource).symm.trans hRule
        | some source =>
          obtain ⟨found, hFound, hBody⟩ := h.defined name source hSource
          cases hFound.symm.trans hRule
          exact .defined hSource (ihFirst.alternatives hBody hChoice)
      | group hBody hFound hChoices =>
        cases hFound.symm.trans hRule
        exact ihFirst.group hBody (.group hBody hFound hChoices) (hChoices ▸ hChoice)

end Words

/-! ## The language -/

theorem Outline.RenderedBy.language_eq {outline : Outline} {grammar : Grammar}
    (h : outline.RenderedBy grammar) {symbol : NonTerminal}
    (hSymbol : symbol ∈ outline.nonTerminals) :
    grammar.language symbol = outline.meaning symbol := by
  have hRenders : outline.Renders grammar (.element (.nonTerminal symbol))
      [[.nonTerminal symbol]] :=
    .nonTerminal hSymbol
  ext word
  rw [Grammar.mem_language_iff_yields]
  show _ ↔ outline.Means (.element (.nonTerminal symbol)) word
  constructor
  · intro hYields
    obtain ⟨words, rfl, hWords⟩ := h.readsAs hYields _ (.cons hRenders .nil)
    cases hWords with
    | cons hWord hNil =>
      cases hNil
      simpa using hWord
  · intro hMeans
    obtain ⟨symbols, hSymbols, hYields⟩ := hMeans.exists_yields h hRenders
    cases List.mem_singleton.mp hSymbols
    exact hYields

/-- Reading a source keeps its language: the tokens are the signs of an outline, and each head has
the same words in the grammar as it has in the outline. -/
theorem language_eq_meaning {source : String} {grammar : Grammar}
    (h : Grammar.parse source = .ok grammar) :
    ∃ (list : TokenList) (outline : Outline), tokenize source = .ok list ∧
      outline.signs = list.tokens.map Token.sign ∧
      ∀ head ∈ outline.rules.map SourceRule.head,
        grammar.language head = outline.meaning head := by
  obtain ⟨list, hTokens⟩ := exists_tokenize_of_parse h
  obtain ⟨outline, hSigns, rfl⟩ := (parse_eq_ok_iff hTokens).mp h
  have hLowers := (outline.lower_lowersTo list.bracketedNames
    fun symbol => outline.name_mem_bracketedNames hSigns).1
  have hRendered : outline.RenderedBy (outline.lower list.bracketedNames).grammar :=
    hLowers.renderedBy rfl
  refine ⟨list, outline, hTokens, hSigns, ?_⟩
  intro head hHead
  obtain ⟨rule, hRule, rfl⟩ := List.mem_map.mp hHead
  exact hRendered.language_eq (outline.head_mem_nonTerminals hRule)

set_option maxRecDepth 10000 in
theorem language_repetition :
    ∃ grammar, Grammar.parse "<a>::={x}" = .ok grammar ∧
      [.terminal ⟨"x", by decide⟩, .terminal ⟨"x", by decide⟩] ∈ grammar.language ⟨"a"⟩ := by
  let x : Terminal := ⟨"x", by decide⟩
  let group : Element := .group .zeroOrMore (.single (.single (.word .name x)))
  let expected : Outline := ⟨[⟨⟨"a"⟩, .single (.single group)⟩], by simp⟩
  have hTokens : tokenize "<a>::={x}" = .ok ⟨[⟨.mark .lt, 0⟩, ⟨.word .name ⟨"a", by decide⟩, 1⟩,
      ⟨.mark .gt, 2⟩, ⟨.mark .assign, 3⟩, ⟨.mark .lbrace, 6⟩, ⟨.word .name x, 7⟩,
      ⟨.mark .rbrace, 8⟩], 9⟩ := by
    cbv
  have hParse := (parse_eq_ok_iff hTokens).mpr ⟨expected, rfl, rfl⟩
  obtain ⟨list, outline, hList, hSigns, hLanguage⟩ := language_eq_meaning hParse
  cases hList.symm.trans hTokens
  obtain rfl : outline = expected := Outline.eq_of_signs_eq hSigns rfl
  refine ⟨_, hParse, ?_⟩
  rw [hLanguage ⟨"a"⟩ (by decide)]
  have hOnce : expected.Means (.alternatives (.single (.single (.word .name x)))) [.terminal x] :=
    .onlyAlternative (.lastElement (.word .name x))
  have hTwice : expected.Means (.element group) [.terminal x, .terminal x] :=
    @Outline.Means.zeroOrMore expected _ [[.terminal x], [.terminal x]] (by simpa using hOnce)
  exact @Outline.Means.defined expected ⟨"a"⟩ _ _ rfl (.onlyAlternative (.lastElement hTwice))

end CodonGrammar.Bnf
