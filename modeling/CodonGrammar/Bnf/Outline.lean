import CodonGrammar.Bnf.Error
import CodonGrammar.Grammar.Basic

/-!
# The outline of a source

The outline is the tree of what a source says before its brackets are turned into rules of their
own. A rule has a head and alternatives, an alternative is a sequence of elements, and an element
is a word, a non-terminal, or alternatives in brackets. None of these lists is ever empty, and the
types leave no room for it.

An outline is read from tokens one at a time. The reader keeps the rules read so far, and in the
rule under way one level for each bracket that is still open. Each state accepts some lexemes and
expects one thing in particular (`State.expected`), which is what an error names. Only one choice
needs more than the token at hand: a `<` that starts a name followed by `>` and `::=` ends the rule
before it, and any other `<` starts a symbol of the rule.
-/

namespace CodonGrammar.Bnf

/-- The three kinds of brackets. -/
inductive Bracket where
  /-- `[X]`, at most once. -/
  | optional
  /-- `{X}`, any number of times. -/
  | zeroOrMore
  /-- `(X)`, at least once. -/
  | oneOrMore
  deriving DecidableEq, Repr

namespace Bracket

def opening : Bracket → Mark
  | optional => .lbracket
  | zeroOrMore => .lbrace
  | oneOrMore => .lparen

def closing : Bracket → Mark
  | optional => .rbracket
  | zeroOrMore => .rbrace
  | oneOrMore => .rparen

/-- The bracket that a mark opens, if it opens one. -/
def ofOpening? : Mark → Option Bracket
  | .lbracket => some optional
  | .lbrace => some zeroOrMore
  | .lparen => some oneOrMore
  | _ => none

theorem ofOpening?_eq_some_iff {mark : Mark} {bracket : Bracket} :
    ofOpening? mark = some bracket ↔ mark = bracket.opening := by
  cases mark <;> cases bracket <;> simp [ofOpening?, opening]

end Bracket

mutual

/-- One part of an alternative. -/
inductive Element where
  | word (kind : WordKind) (text : Terminal)
  | nonTerminal (symbol : NonTerminal)
  | group (bracket : Bracket) (body : Alternatives)

/-- A non-empty sequence of elements. -/
inductive Sequence where
  | single (element : Element)
  | cons (element : Element) (rest : Sequence)

/-- A non-empty list of sequences. -/
inductive Alternatives where
  | single (sequence : Sequence)
  | cons (sequence : Sequence) (rest : Alternatives)

end

/-- A rule as the source gives it. -/
structure SourceRule where
  head : NonTerminal
  alternatives : Alternatives

/-- The rules of a whole source, at least one. -/
structure Outline where
  rules : List SourceRule
  nonempty : rules ≠ []

namespace Sequence

/-- The sequence that ends with the given element, from its elements in reverse order. -/
def ofReversed (last : Element) (before : List Element) : Sequence :=
  before.foldl (fun sequence element => cons element sequence) (single last)

end Sequence

namespace Alternatives

/-- The alternatives that end with the given sequence, from the sequences in reverse order. -/
def ofReversed (last : Sequence) (before : List Sequence) : Alternatives :=
  before.foldl (fun alternatives sequence => cons sequence alternatives) (single last)

end Alternatives

namespace Outline

/-! ## Reading an outline -/

/-- Alternatives under way: the finished sequences and the elements of the present one, the latest
first. -/
structure Level where
  sequences : List Sequence
  elements : List Element

namespace Level

def empty : Level := ⟨[], []⟩

/-- One more element. -/
def push (level : Level) (element : Element) : Level :=
  ⟨level.sequences, element :: level.elements⟩

def sequence? (level : Level) : Option Sequence :=
  match level.elements with
  | [] => none
  | last :: before => some (.ofReversed last before)

/-- The alternatives read, if the present sequence has an element. -/
def alternatives? (level : Level) : Option Alternatives :=
  level.sequence?.map fun sequence => .ofReversed sequence level.sequences

/-- The level after a bar, if the present sequence has an element. -/
def nextSequence? (level : Level) : Option Level :=
  level.sequence?.map fun sequence => ⟨sequence :: level.sequences, []⟩

end Level

/-- A rule under way: its head, the open brackets with the levels around them, the innermost first,
and the present level. -/
structure Body where
  head : NonTerminal
  outer : List (Bracket × Level)
  level : Level

namespace Body

/-- The body with one more element on its present level. -/
def push (body : Body) (element : Element) : Body :=
  { body with level := body.level.push element }

def openBracket (body : Body) (bracket : Bracket) : Body :=
  ⟨body.head, (bracket, body.level) :: body.outer, .empty⟩

/-- The body after a mark that closes its innermost bracket. -/
def closeBracket? (body : Body) (mark : Mark) : Option Body :=
  match body.outer with
  | [] => none
  | (bracket, around) :: outer =>
    if mark = bracket.closing then
      body.level.alternatives?.map fun inner =>
        ⟨body.head, outer, around.push (.group bracket inner)⟩
    else
      none

def nextSequence? (body : Body) : Option Body :=
  body.level.nextSequence?.map fun level => { body with level := level }

/-- The rule, if no bracket is open and its last sequence has an element. -/
def rule? (body : Body) : Option SourceRule :=
  match body.outer with
  | [] => body.level.alternatives?.map fun alternatives => ⟨body.head, alternatives⟩
  | _ :: _ => none

/-- What is expected where the body cannot go on: a symbol for an empty sequence, else the mark
that closes the innermost bracket, else the beginning of the next rule. -/
def expected (body : Body) : Expected :=
  match body.level.elements, body.outer with
  | [], _ => .symbol
  | _ :: _, (bracket, _) :: _ => .mark bracket.closing
  | _ :: _, [] => .mark .lt

end Body

/-- Where in a rule the reader is. -/
inductive Phase where
  /-- Before the `<` of the first rule. -/
  | start
  /-- After the `<` of a rule. -/
  | headName
  /-- After the name of a head. -/
  | headClose (head : NonTerminal)
  /-- Before the `::=` of a rule. -/
  | headAssign (head : NonTerminal)
  /-- Between the elements of a rule. -/
  | body (body : Body)
  /-- After the `<` of a non-terminal in a rule. -/
  | useName (body : Body)
  /-- After the name of a non-terminal in a rule. -/
  | useClose (body : Body) (symbol : NonTerminal)

/-- What the reader has read: the finished rules, the latest first, and the phase it is in. -/
structure State where
  rules : List SourceRule
  phase : Phase

namespace State

def initial : State := ⟨[], .start⟩

/-- What is expected where the reader cannot go on. -/
def expected (state : State) : Expected :=
  match state.phase with
  | .start => .mark .lt
  | .headName => .name
  | .headClose _ => .mark .gt
  | .headAssign _ => .mark .assign
  | .body body => body.expected
  | .useName _ => .name
  | .useClose _ _ => .mark .gt

/-- The rules of a body after one more lexeme. `opensRule` says whether the lexeme starts the head
of a rule. -/
def advanceBody (rules : List SourceRule) (body : Body) (opensRule : Bool) :
    Lexeme → Option State
  | .word kind text => some ⟨rules, .body (body.push (.word kind text))⟩
  | .mark .bar => body.nextSequence?.map fun next => ⟨rules, .body next⟩
  | .mark .lt =>
    if opensRule then body.rule?.map fun rule => ⟨rule :: rules, .headName⟩
    else some ⟨rules, .useName body⟩
  | .mark mark =>
    match Bracket.ofOpening? mark with
    | some bracket => some ⟨rules, .body (body.openBracket bracket)⟩
    | none => (body.closeBracket? mark).map fun next => ⟨rules, .body next⟩
  | .finish => none

/-- The state after one more lexeme, if the lexeme fits. -/
def advance (state : State) (opensRule : Bool) (lexeme : Lexeme) : Option State :=
  match state.phase, lexeme with
  | .start, .mark .lt => some ⟨state.rules, .headName⟩
  | .headName, .word .name text => some ⟨state.rules, .headClose ⟨text.text⟩⟩
  | .headClose head, .mark .gt => some ⟨state.rules, .headAssign head⟩
  | .headAssign head, .mark .assign => some ⟨state.rules, .body ⟨head, [], .empty⟩⟩
  | .body body, lexeme => advanceBody state.rules body opensRule lexeme
  | .useName body, .word .name text => some ⟨state.rules, .useClose body ⟨text.text⟩⟩
  | .useClose body symbol, .mark .gt =>
    some ⟨state.rules, .body (body.push (.nonTerminal symbol))⟩
  | _, _ => none

def outline? (state : State) : Option Outline :=
  match state.phase with
  | .body body => body.rule?.map fun rule => ⟨(rule :: state.rules).reverse, by simp⟩
  | _ => none

end State

/-- Whether the tokens start with the head of a rule. -/
def opensRule : List Token → Bool
  | ⟨.mark .lt, _⟩ :: ⟨.word .name _, _⟩ :: ⟨.mark .gt, _⟩ :: ⟨.mark .assign, _⟩ :: _ =>
    true
  | _ => false

/-- Reads on from a state. The final token is the one that a source that ends too early is
reported with. -/
def readFrom (final : Token) (state : State) : List Token → Except Error Outline
  | [] =>
    match state.outline? with
    | some outline => .ok outline
    | none => .error (.misplaced state.expected final)
  | token :: rest =>
    match state.advance (opensRule (token :: rest)) token.lexeme with
    | some next => readFrom final next rest
    | none => .error (.misplaced state.expected token)

def ofTokens (list : TokenList) : Except Error Outline :=
  readFrom list.finishToken .initial list.tokens

end Outline

end CodonGrammar.Bnf
