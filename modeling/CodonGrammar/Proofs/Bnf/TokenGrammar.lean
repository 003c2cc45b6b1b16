import CodonGrammar.Bnf.Outline

/-!
# The grammar of token kinds

Whether a list of tokens makes a source depends on the kinds of the tokens only. `Phrase.Derives` is
that grammar, one constructor for each production: a grammar is one or more rules, a rule is a head
and alternatives, alternatives are separated by bars, an alternative is one or more elements, and an
element is a word, a non-terminal or alternatives in brackets.

A syntax tree of that grammar, with the values of the tokens at its leaves, is an `Outline`, and
`Outline.signs` reads the tokens off it again. A sign is a token without its position.
`derives_iff_spelled` says that the two agree: a list of tokens is derivable as a phrase exactly
when some tree of that phrase is spelled by it.
-/

namespace CodonGrammar.Bnf

/-- The kind of a token, without its text. -/
inductive Kind where
  | mark (mark : Mark)
  | word (kind : WordKind)
  | finish
  deriving DecidableEq, Repr

/-- The kind of a lexeme. -/
def Lexeme.kind : Lexeme → Kind
  | mark m => .mark m
  | word kind _ => .word kind
  | finish => .finish

/-- A token without its position: its kind and its value. -/
structure Sign where
  kind : Kind
  value : String
  deriving DecidableEq

/-- The sign of a lexeme. -/
def Lexeme.sign (lexeme : Lexeme) : Sign := ⟨lexeme.kind, lexeme.value⟩

/-- The kind of a token. -/
def Token.kind (token : Token) : Kind := token.lexeme.kind

/-- The sign of a token. -/
def Token.sign (token : Token) : Sign := token.lexeme.sign

/-- The sign of a mark, whose value is its written form. -/
def Mark.sign (mark : Mark) : Sign := ⟨.mark mark, String.ofList mark.text⟩

/-- The three signs of a non-terminal. -/
def Sign.ofNonTerminal (symbol : NonTerminal) : List Sign :=
  [Mark.lt.sign, ⟨.word .name, symbol.name⟩, Mark.gt.sign]

@[simp] theorem Lexeme.sign_mark (mark : Mark) : (Lexeme.mark mark).sign = mark.sign := rfl

@[simp] theorem Lexeme.sign_word (kind : WordKind) (text : Terminal) :
    (Lexeme.word kind text).sign = ⟨.word kind, text.text⟩ := rfl

theorem Token.lexeme_of_kind_mark {token : Token} {mark : Mark} (h : token.kind = .mark mark) :
    token.lexeme = .mark mark := by
  obtain ⟨lexeme, position⟩ := token
  cases lexeme <;> simp_all [Token.kind, Lexeme.kind]

theorem Token.lexeme_of_kind_word {token : Token} {kind : WordKind} (h : token.kind = .word kind) :
    ∃ text, token.lexeme = .word kind text := by
  obtain ⟨lexeme, position⟩ := token
  cases lexeme <;> simp_all [Token.kind, Lexeme.kind]

theorem Token.sign_of_lexeme_mark {token : Token} {mark : Mark} (h : token.lexeme = .mark mark) :
    token.sign = mark.sign := by
  rw [Token.sign, h, Lexeme.sign_mark]

theorem Token.sign_of_lexeme_word {token : Token} {kind : WordKind} {text : Terminal}
    (h : token.lexeme = .word kind text) : token.sign = ⟨.word kind, text.text⟩ := by
  rw [Token.sign, h, Lexeme.sign_word]

theorem Token.sign_of_kind_mark {token : Token} {mark : Mark} (h : token.kind = .mark mark) :
    token.sign = mark.sign :=
  Token.sign_of_lexeme_mark (Token.lexeme_of_kind_mark h)

/-- The sign of a token determines its lexeme. -/
theorem Token.lexeme_of_sign_mark {token : Token} {mark : Mark} (h : token.sign = mark.sign) :
    token.lexeme = .mark mark :=
  Token.lexeme_of_kind_mark (congrArg Sign.kind h)

theorem Token.lexeme_of_sign_word {token : Token} {kind : WordKind} {text : String}
    (h : token.sign = ⟨.word kind, text⟩) :
    ∃ terminal : Terminal, token.lexeme = .word kind terminal ∧ terminal.text = text := by
  obtain ⟨terminal, hLexeme⟩ := Token.lexeme_of_kind_word (congrArg Sign.kind h)
  rw [Token.sign_of_lexeme_word hLexeme] at h
  exact ⟨terminal, hLexeme, congrArg Sign.value h⟩

theorem Lexeme.sign_injective : Function.Injective Lexeme.sign := by
  intro first second h
  cases second with
  | mark mark => exact @Token.lexeme_of_sign_mark ⟨first, 0⟩ mark h
  | word kind text =>
    obtain ⟨terminal, hLexeme, hText⟩ := @Token.lexeme_of_sign_word ⟨first, 0⟩ kind text.text h
    rw [← Terminal.ext hText]
    exact hLexeme
  | finish =>
    have hKind := congrArg Sign.kind h
    cases first with
    | finish => rfl
    | _ => cases hKind

/-! ## Phrases -/

/-- The phrases of a source. -/
inductive Phrase where
  | grammar
  | rule
  | alternatives
  | alternative
  | element

/-- A list of kinds makes a phrase. Each constructor is a production. -/
inductive Phrase.Derives : Phrase → List Kind → Prop where
  | lastRule {rule : List Kind} : Derives .rule rule → Derives .grammar rule
  | moreRules {rule rest : List Kind} :
      Derives .rule rule → Derives .grammar rest → Derives .grammar (rule ++ rest)
  | rule {body : List Kind} :
      Derives .alternatives body →
      Derives .rule (.mark .lt :: .word .name :: .mark .gt :: .mark .assign :: body)
  | lastAlternative {alternative : List Kind} :
      Derives .alternative alternative → Derives .alternatives alternative
  | moreAlternatives {alternative rest : List Kind} :
      Derives .alternative alternative → Derives .alternatives rest →
      Derives .alternatives (alternative ++ .mark .bar :: rest)
  | lastElement {element : List Kind} : Derives .element element → Derives .alternative element
  | moreElements {element rest : List Kind} :
      Derives .element element → Derives .alternative rest → Derives .alternative (element ++ rest)
  | word (kind : WordKind) : Derives .element [.word kind]
  | nonTerminal : Derives .element [.mark .lt, .word .name, .mark .gt]
  | group (bracket : Bracket) {body : List Kind} :
      Derives .alternatives body →
      Derives .element (.mark bracket.opening :: (body ++ [.mark bracket.closing]))

/-! ## The signs of syntax trees -/

mutual

/-- The signs of an element. -/
def Element.signs : Element → List Sign
  | .word kind text => [⟨.word kind, text.text⟩]
  | .nonTerminal symbol => Sign.ofNonTerminal symbol
  | .group bracket body => bracket.opening.sign :: (body.signs ++ [bracket.closing.sign])

/-- The signs of a sequence. -/
def Sequence.signs : Sequence → List Sign
  | .single element => element.signs
  | .cons element rest => element.signs ++ rest.signs

/-- The signs of alternatives. -/
def Alternatives.signs : Alternatives → List Sign
  | .single sequence => sequence.signs
  | .cons sequence rest => sequence.signs ++ Mark.bar.sign :: rest.signs

end

/-- The signs of a rule. -/
def SourceRule.signs (rule : SourceRule) : List Sign :=
  Sign.ofNonTerminal rule.head ++ Mark.assign.sign :: rule.alternatives.signs

/-- The signs of a whole source. -/
def Outline.signs (outline : Outline) : List Sign := outline.rules.flatMap SourceRule.signs

/-- Some tree of the phrase has these signs. -/
def Phrase.Spelled : Phrase → List Sign → Prop
  | .grammar, signs => ∃ outline : Outline, outline.signs = signs
  | .rule, signs => ∃ rule : SourceRule, rule.signs = signs
  | .alternatives, signs => ∃ alternatives : Alternatives, alternatives.signs = signs
  | .alternative, signs => ∃ sequence : Sequence, sequence.signs = signs
  | .element, signs => ∃ element : Element, element.signs = signs

mutual

theorem Element.derives : ∀ element : Element, Phrase.element.Derives (element.signs.map Sign.kind)
  | .word kind _ => .word kind
  | .nonTerminal _ => .nonTerminal
  | .group bracket body => by
    simpa [Element.signs, Mark.sign] using Phrase.Derives.group bracket body.derives

theorem Sequence.derives :
    ∀ sequence : Sequence, Phrase.alternative.Derives (sequence.signs.map Sign.kind)
  | .single element => .lastElement element.derives
  | .cons element rest => by
    simpa [Sequence.signs] using Phrase.Derives.moreElements element.derives rest.derives

theorem Alternatives.derives :
    ∀ alternatives : Alternatives, Phrase.alternatives.Derives (alternatives.signs.map Sign.kind)
  | .single sequence => .lastAlternative sequence.derives
  | .cons sequence rest => by
    simpa [Alternatives.signs, Mark.sign] using
      Phrase.Derives.moreAlternatives sequence.derives rest.derives

end

theorem SourceRule.derives (rule : SourceRule) :
    Phrase.rule.Derives (rule.signs.map Sign.kind) :=
  .rule rule.alternatives.derives

theorem Outline.derives (outline : Outline) :
    Phrase.grammar.Derives (outline.signs.map Sign.kind) := by
  obtain ⟨rules, hNonempty⟩ := outline
  induction rules with
  | nil => exact absurd rfl hNonempty
  | cons rule rest ih =>
    cases rest with
    | nil => simpa [Outline.signs] using Phrase.Derives.lastRule rule.derives
    | cons next others =>
      have hOthers := ih (List.cons_ne_nil next others)
      simpa [Outline.signs] using Phrase.Derives.moreRules rule.derives hOthers

/-- The signs of a tree are derivable as its phrase. -/
theorem Phrase.Spelled.derives {phrase : Phrase} {signs : List Sign} (h : phrase.Spelled signs) :
    phrase.Derives (signs.map Sign.kind) := by
  cases phrase with
  | grammar => obtain ⟨outline, rfl⟩ := h; exact outline.derives
  | rule => obtain ⟨rule, rfl⟩ := h; exact rule.derives
  | alternatives => obtain ⟨alternatives, rfl⟩ := h; exact alternatives.derives
  | alternative => obtain ⟨sequence, rfl⟩ := h; exact sequence.derives
  | element => obtain ⟨element, rfl⟩ := h; exact element.derives

/-- Tokens whose kinds are derivable as a phrase spell a tree of it. The induction is on the
derivation, and each production gives the constructor of the tree. -/
theorem Phrase.Derives.spelled {phrase : Phrase} {kinds : List Kind} (h : phrase.Derives kinds) :
    ∀ tokens : List Token, tokens.map Token.kind = kinds →
      phrase.Spelled (tokens.map Token.sign) := by
  induction h with
  | lastRule _ ih =>
    intro tokens hKinds
    obtain ⟨rule, hRule⟩ := ih tokens hKinds
    exact ⟨⟨[rule], by simp⟩, by simpa [Outline.signs] using hRule⟩
  | moreRules _ _ ihRule ihRest =>
    intro tokens hKinds
    obtain ⟨front, back, rfl, hFront, hBack⟩ := List.map_eq_append_iff.mp hKinds
    obtain ⟨rule, hRule⟩ := ihRule front hFront
    obtain ⟨rest, hRest⟩ := ihRest back hBack
    refine ⟨⟨rule :: rest.rules, by simp⟩, ?_⟩
    rw [List.map_append, ← hRule, ← hRest]
    rfl
  | rule _ ih =>
    intro tokens hKinds
    obtain ⟨lt, tokens, rfl, hLt, hKinds⟩ := List.map_eq_cons_iff.mp hKinds
    obtain ⟨name, tokens, rfl, hName, hKinds⟩ := List.map_eq_cons_iff.mp hKinds
    obtain ⟨gt, tokens, rfl, hGt, hKinds⟩ := List.map_eq_cons_iff.mp hKinds
    obtain ⟨assign, tokens, rfl, hAssign, hKinds⟩ := List.map_eq_cons_iff.mp hKinds
    obtain ⟨body, hBody⟩ := ih tokens hKinds
    obtain ⟨text, hText⟩ := Token.lexeme_of_kind_word hName
    refine ⟨⟨⟨text.text⟩, body⟩, ?_⟩
    simp only [List.map_cons, Token.sign_of_kind_mark hLt, Token.sign_of_lexeme_word hText,
      Token.sign_of_kind_mark hGt, Token.sign_of_kind_mark hAssign, ← hBody]
    rfl
  | lastAlternative _ ih =>
    intro tokens hKinds
    obtain ⟨sequence, hSequence⟩ := ih tokens hKinds
    exact ⟨.single sequence, hSequence⟩
  | moreAlternatives _ _ ihFirst ihRest =>
    intro tokens hKinds
    obtain ⟨front, back, rfl, hFront, hBack⟩ := List.map_eq_append_iff.mp hKinds
    obtain ⟨bar, back, rfl, hBar, hBack⟩ := List.map_eq_cons_iff.mp hBack
    obtain ⟨sequence, hSequence⟩ := ihFirst front hFront
    obtain ⟨rest, hRest⟩ := ihRest back hBack
    refine ⟨.cons sequence rest, ?_⟩
    rw [List.map_append, List.map_cons, Token.sign_of_kind_mark hBar, ← hSequence, ← hRest]
    rfl
  | lastElement _ ih =>
    intro tokens hKinds
    obtain ⟨element, hElement⟩ := ih tokens hKinds
    exact ⟨.single element, hElement⟩
  | moreElements _ _ ihFirst ihRest =>
    intro tokens hKinds
    obtain ⟨front, back, rfl, hFront, hBack⟩ := List.map_eq_append_iff.mp hKinds
    obtain ⟨element, hElement⟩ := ihFirst front hFront
    obtain ⟨rest, hRest⟩ := ihRest back hBack
    refine ⟨.cons element rest, ?_⟩
    rw [List.map_append, ← hElement, ← hRest]
    rfl
  | word kind =>
    intro tokens hKinds
    obtain ⟨word, rfl, hWord⟩ := List.map_eq_singleton_iff.mp hKinds
    obtain ⟨text, hLexeme⟩ := Token.lexeme_of_kind_word hWord
    exact ⟨.word kind text, by simp [Element.signs, Token.sign_of_lexeme_word hLexeme]⟩
  | nonTerminal =>
    intro tokens hKinds
    obtain ⟨lt, tokens, rfl, hLt, hKinds⟩ := List.map_eq_cons_iff.mp hKinds
    obtain ⟨name, tokens, rfl, hName, hKinds⟩ := List.map_eq_cons_iff.mp hKinds
    obtain ⟨gt, rfl, hGt⟩ := List.map_eq_singleton_iff.mp hKinds
    obtain ⟨text, hText⟩ := Token.lexeme_of_kind_word hName
    refine ⟨.nonTerminal ⟨text.text⟩, ?_⟩
    simp only [List.map_cons, List.map_nil, Token.sign_of_kind_mark hLt,
      Token.sign_of_lexeme_word hText, Token.sign_of_kind_mark hGt]
    rfl
  | group bracket _ ih =>
    intro tokens hKinds
    obtain ⟨opening, tokens, rfl, hOpening, hKinds⟩ := List.map_eq_cons_iff.mp hKinds
    obtain ⟨inner, tokens, rfl, hInner, hKinds⟩ := List.map_eq_append_iff.mp hKinds
    obtain ⟨closing, rfl, hClosing⟩ := List.map_eq_singleton_iff.mp hKinds
    obtain ⟨body, hBody⟩ := ih inner hInner
    refine ⟨.group bracket body, ?_⟩
    simp only [List.map_cons, List.map_append, List.map_nil, Token.sign_of_kind_mark hOpening,
      Token.sign_of_kind_mark hClosing, ← hBody]
    rfl

/-- A list of tokens is derivable as a phrase exactly when a tree of that phrase has its signs. -/
theorem derives_iff_spelled (phrase : Phrase) (tokens : List Token) :
    phrase.Derives (tokens.map Token.kind) ↔ phrase.Spelled (tokens.map Token.sign) := by
  constructor
  · intro h
    exact h.spelled tokens rfl
  · intro h
    have hDerives := h.derives
    rwa [List.map_map] at hDerives

end CodonGrammar.Bnf
