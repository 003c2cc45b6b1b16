import CodonGrammar.Proofs.Bnf.Acceptance
import CodonGrammar.Proofs.Derivation.Rewriting

/-!
# The meaning of a source

A source with brackets has a meaning of its own: each part of it stands for a set of words
(`Outline.Means`). What is needed of a grammar to give the same words is that each part of the
source has a counterpart in it (`Outline.Renders`), where the symbol of a group has a rule that
repeats the alternatives inside.

The grammar that a source is turned into has such counterparts (`Outline.LowersTo.renderedBy`). The
names of the added rules are fresh, so no other rule comes before them, and a non-terminal of the
source that has no rule gets none by accident.
-/

namespace CodonGrammar.Bnf

/-! ## The meaning of a source -/

/-- The first rule of a source with a head. -/
def Outline.ruleFor? (outline : Outline) (head : NonTerminal) : Option SourceRule :=
  outline.rules.find? (·.head = head)

/-- A part of a rule. -/
inductive Piece where
  | element (element : Element)
  | sequence (sequence : Sequence)
  | alternatives (alternatives : Alternatives)

/-- A part of a rule stands for a word. The empty text stands for nothing, a non-terminal for what
its first rule says, or for itself if it has none, and each repetition of a group chooses anew among
its alternatives. -/
inductive Outline.Means (outline : Outline) : Piece → List Symbol → Prop where
  | word (kind : WordKind) (text : Terminal) :
      Means outline (.element (.word kind text)) (visible [.terminal text])
  | undefined {symbol : NonTerminal} :
      outline.ruleFor? symbol = none →
      Means outline (.element (.nonTerminal symbol)) [.nonTerminal symbol]
  | defined {symbol : NonTerminal} {rule : SourceRule} {word : List Symbol} :
      outline.ruleFor? symbol = some rule → Means outline (.alternatives rule.alternatives) word →
      Means outline (.element (.nonTerminal symbol)) word
  | absent (body : Alternatives) : Means outline (.element (.group .optional body)) []
  | present {body : Alternatives} {word : List Symbol} :
      Means outline (.alternatives body) word →
      Means outline (.element (.group .optional body)) word
  | zeroOrMore {body : Alternatives} {words : List (List Symbol)} :
      (∀ word ∈ words, Means outline (.alternatives body) word) →
      Means outline (.element (.group .zeroOrMore body)) words.flatten
  | oneOrMore {body : Alternatives} {words : List (List Symbol)} :
      words ≠ [] → (∀ word ∈ words, Means outline (.alternatives body) word) →
      Means outline (.element (.group .oneOrMore body)) words.flatten
  | lastElement {element : Element} {word : List Symbol} :
      Means outline (.element element) word → Means outline (.sequence (.single element)) word
  | moreElements {element : Element} {rest : Sequence} {first others : List Symbol} :
      Means outline (.element element) first → Means outline (.sequence rest) others →
      Means outline (.sequence (.cons element rest)) (first ++ others)
  | onlyAlternative {sequence : Sequence} {word : List Symbol} :
      Means outline (.sequence sequence) word →
      Means outline (.alternatives (.single sequence)) word
  | firstAlternative {sequence : Sequence} {rest : Alternatives} {word : List Symbol} :
      Means outline (.sequence sequence) word →
      Means outline (.alternatives (.cons sequence rest)) word
  | laterAlternative {sequence : Sequence} {rest : Alternatives} {word : List Symbol} :
      Means outline (.alternatives rest) word →
      Means outline (.alternatives (.cons sequence rest)) word

/-- The words of a non-terminal of a source. -/
def Outline.meaning (outline : Outline) (symbol : NonTerminal) : Set (List Symbol) :=
  {word | outline.Means (.element (.nonTerminal symbol)) word}

/-! ## Counterparts in a grammar -/

/-- The counterpart of a part of a source in a grammar: one symbol for an element, one list of
symbols for a sequence, and one for each alternative. -/
inductive Outline.Renders (outline : Outline) (grammar : Grammar) :
    Piece → List (List Symbol) → Prop where
  | word (kind : WordKind) (text : Terminal) :
      Renders outline grammar (.element (.word kind text)) [[.terminal text]]
  | nonTerminal {symbol : NonTerminal} :
      symbol ∈ outline.nonTerminals →
      Renders outline grammar (.element (.nonTerminal symbol)) [[.nonTerminal symbol]]
  | group {bracket : Bracket} {body : Alternatives} {inside : List (List Symbol)} {rule : Rule} :
      Renders outline grammar (.alternatives body) inside →
      grammar.ruleFor? rule.head = some rule →
      rule.alternatives.map Expression.symbols
        = bracket.choices (.nonTerminal rule.head) inside →
      Renders outline grammar (.element (.group bracket body)) [[.nonTerminal rule.head]]
  | single {element : Element} {symbol : Symbol} :
      Renders outline grammar (.element element) [[symbol]] →
      Renders outline grammar (.sequence (.single element)) [[symbol]]
  | cons {element : Element} {rest : Sequence} {symbol : Symbol} {symbols : List Symbol} :
      Renders outline grammar (.element element) [[symbol]] →
      Renders outline grammar (.sequence rest) [symbols] →
      Renders outline grammar (.sequence (.cons element rest)) [symbol :: symbols]
  | lastAlternative {sequence : Sequence} {symbols : List Symbol} :
      Renders outline grammar (.sequence sequence) [symbols] →
      Renders outline grammar (.alternatives (.single sequence)) [symbols]
  | alternative {sequence : Sequence} {rest : Alternatives} {symbols : List Symbol}
      {more : List (List Symbol)} :
      Renders outline grammar (.sequence sequence) [symbols] →
      Renders outline grammar (.alternatives rest) more →
      Renders outline grammar (.alternatives (.cons sequence rest)) (symbols :: more)

/-- A grammar has the same rules as a source for the non-terminals of the source. -/
structure Outline.RenderedBy (outline : Outline) (grammar : Grammar) : Prop where
  undefined : ∀ symbol ∈ outline.nonTerminals, outline.ruleFor? symbol = none →
    grammar.ruleFor? symbol = none
  defined : ∀ symbol source, outline.ruleFor? symbol = some source →
    ∃ rule, grammar.ruleFor? symbol = some rule ∧
      outline.Renders grammar (.alternatives source.alternatives)
        (rule.alternatives.map Expression.symbols)

section Lowers

variable {outline : Outline} {grammar : Grammar}

mutual

theorem Element.Lowers.renders : ∀ {element : Element} {symbol : Symbol} {added : List Rule},
    element.Lowers symbol added → element.nonTerminals ⊆ outline.nonTerminals →
    (∀ rule ∈ added, grammar.ruleFor? rule.head = some rule) →
    outline.Renders grammar (.element element) [[symbol]]
  | _, _, _, .word kind text, _, _ => .word kind text
  | _, _, _, .nonTerminal symbol, hScope, _ => .nonTerminal (hScope (List.mem_singleton.mpr rfl))
  | _, _, _, .group hBody hChoices, hScope, hRules => by
    obtain ⟨hInner, hRule⟩ := List.forall_mem_append.mp hRules
    exact .group (hBody.renders hScope hInner) (hRule _ (List.mem_singleton.mpr rfl)) hChoices

theorem Sequence.Lowers.renders : ∀ {sequence : Sequence} {symbols : List Symbol}
    {added : List Rule}, sequence.Lowers symbols added →
    sequence.nonTerminals ⊆ outline.nonTerminals →
    (∀ rule ∈ added, grammar.ruleFor? rule.head = some rule) →
    outline.Renders grammar (.sequence sequence) [symbols]
  | _, _, _, .single hElement, hScope, hRules => .single (hElement.renders hScope hRules)
  | _, _, _, .cons hElement hRest, hScope, hRules => by
    obtain ⟨hFirst, hOthers⟩ := List.forall_mem_append.mp hRules
    obtain ⟨hScope, hScopeRest⟩ := List.append_subset.mp hScope
    exact .cons (hElement.renders hScope hFirst) (hRest.renders hScopeRest hOthers)

theorem Alternatives.Lowers.renders : ∀ {alternatives : Alternatives}
    {inside : List (List Symbol)} {added : List Rule}, alternatives.Lowers inside added →
    alternatives.nonTerminals ⊆ outline.nonTerminals →
    (∀ rule ∈ added, grammar.ruleFor? rule.head = some rule) →
    outline.Renders grammar (.alternatives alternatives) inside
  | _, _, _, .single hSequence, hScope, hRules => .lastAlternative (hSequence.renders hScope hRules)
  | _, _, _, .cons hSequence hRest, hScope, hRules => by
    obtain ⟨hFirst, hOthers⟩ := List.forall_mem_append.mp hRules
    obtain ⟨hScope, hScopeRest⟩ := List.append_subset.mp hScope
    exact .alternative (hSequence.renders hScope hFirst) (hRest.renders hScopeRest hOthers)

end

end Lowers

/-! ## The first rule for a head -/

theorem RulesLower.find?_eq_none {rules : List SourceRule} {stated added : List Rule}
    (h : RulesLower rules stated added) {symbol : NonTerminal}
    (hNone : rules.find? (·.head = symbol) = none) : stated.find? (·.head = symbol) = none := by
  induction h with
  | nil => rfl
  | cons hHead _ _ ih =>
    rw [List.find?_cons] at hNone ⊢
    rw [hHead]
    split at hNone
    · cases hNone
    · exact ih hNone

theorem RulesLower.find?_eq_some {rules : List SourceRule} {stated added : List Rule}
    (h : RulesLower rules stated added) {symbol : NonTerminal} {source : SourceRule}
    (hSome : rules.find? (·.head = symbol) = some source) :
    ∃ rule inner, stated.find? (·.head = symbol) = some rule ∧ inner ⊆ added ∧
      source.alternatives.Lowers (rule.alternatives.map Expression.symbols) inner := by
  induction h with
  | nil => cases hSome
  | @cons first rule rest stated inner others hHead hLowers _ ih =>
    rw [List.find?_cons] at hSome ⊢
    rw [hHead]
    split at hSome
    · cases hSome
      exact ⟨rule, inner, rfl, List.subset_append_left inner others, hLowers⟩
    · obtain ⟨found, later, hFound, hSubset, hInner⟩ := ih hSome
      have hLater := List.Subset.trans hSubset (List.subset_append_right inner others)
      exact ⟨found, later, hFound, hLater, hInner⟩

theorem find?_head_eq_some {rules : List Rule} (hDistinct : (rules.map Rule.head).Nodup)
    {rule : Rule} (hRule : rule ∈ rules) :
    rules.find? (·.head = rule.head) = some rule := by
  induction rules with
  | nil => cases hRule
  | cons first rest ih =>
    rw [List.map_cons, List.nodup_cons] at hDistinct
    obtain ⟨hFirst, hRest⟩ := hDistinct
    rcases List.mem_cons.mp hRule with rfl | hRule
    · simp
    · have hOther : first.head ≠ rule.head := by
        intro hSame
        exact hFirst (hSame ▸ List.mem_map_of_mem hRule)
      simp [hOther, ih hRest hRule]

theorem Outline.head_mem_nonTerminals {outline : Outline} {rule : SourceRule}
    (h : rule ∈ outline.rules) : rule.head ∈ outline.nonTerminals :=
  List.mem_flatMap.mpr ⟨rule, h, List.mem_cons_self⟩

theorem Outline.nonTerminals_subset {outline : Outline} {rule : SourceRule}
    (h : rule ∈ outline.rules) : rule.alternatives.nonTerminals ⊆ outline.nonTerminals :=
  fun _ hMem => List.mem_flatMap.mpr ⟨rule, h, List.mem_cons_of_mem _ hMem⟩

/-- The rules of a source and those of its groups give every part of the source a counterpart. -/
theorem Outline.LowersTo.renderedBy {outline : Outline} {stated added : List Rule}
    (h : outline.LowersTo stated added) {grammar : Grammar}
    (hRules : grammar.rules = stated ++ added) : outline.RenderedBy grammar := by
  have hAdded : ∀ rule ∈ added, grammar.ruleFor? rule.head = some rule := by
    intro rule hRule
    have hStated : stated.find? (·.head = rule.head) = none := by
      apply h.rules.find?_eq_none
      rw [List.find?_eq_none]
      intro source hSource hSame
      apply h.fresh rule hRule
      rw [← of_decide_eq_true hSame]
      exact outline.head_mem_nonTerminals hSource
    rw [Grammar.ruleFor?, hRules, List.find?_append, hStated, Option.none_or]
    exact find?_head_eq_some h.distinct hRule
  constructor
  · intro symbol hSymbol hNone
    rw [Grammar.ruleFor?, hRules, List.find?_append, h.rules.find?_eq_none hNone, Option.none_or,
      List.find?_eq_none]
    intro rule hRule hSame
    apply h.fresh rule hRule
    rwa [of_decide_eq_true hSame]
  · intro symbol source hSome
    obtain ⟨rule, inner, hFound, hSubset, hLowers⟩ := h.rules.find?_eq_some hSome
    refine ⟨rule, ?_, ?_⟩
    · rw [Grammar.ruleFor?, hRules, List.find?_append, hFound, Option.some_or]
    · have hScope := outline.nonTerminals_subset (List.mem_of_find?_eq_some hSome)
      exact hLowers.renders hScope fun other hOther => hAdded other (hSubset hOther)

end CodonGrammar.Bnf
