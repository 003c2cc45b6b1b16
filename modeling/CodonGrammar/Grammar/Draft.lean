import CodonGrammar.Grammar.Basic
import CodonGrammar.Value

/-!
# Grammars from unchecked parts

A draft is a grammar as a caller puts it together: any text may stand for a terminal, and any plain
value where a symbol, an alternative or a rule belongs. `Grammar.ofDraft` builds it in a fixed
order, the symbols of a rule before its alternatives, those before the rule, and all rules before
the grammar, and stops at the first fault it meets.
-/

namespace CodonGrammar

namespace Draft

/-- What stands in the place of a symbol. -/
inductive Symbol where
  | terminal (text : String)
  | nonTerminal (symbol : NonTerminal)
  | other (value : Value)

/-- What stands in the place of an alternative. -/
inductive Alternative where
  | sequence (symbols : List Symbol)
  | other (value : Value)

/-- What stands in the place of a rule. -/
inductive Rule where
  | production (head : Symbol) (alternatives : List Alternative)
  | other (value : Value)

end Draft

/-- Why parts do not make a grammar. -/
inductive GrammarError where
  /-- The text of a terminal holds an apostrophe. -/
  | quoteInTerminal (text : String)
  /-- A value that is no symbol stands in an alternative. -/
  | notASymbol (value : Value)
  /-- An alternative has no symbols. -/
  | noSymbols
  /-- The head of a rule is a terminal. -/
  | terminalHead (symbol : Terminal)
  /-- The head of a rule is no symbol. -/
  | valueHead (value : Value)
  /-- A rule has no alternatives. -/
  | noAlternatives (head : NonTerminal)
  /-- A value that is no alternative stands in a rule. -/
  | notAnAlternative (value : Value)
  /-- A grammar has no rules. -/
  | noRules
  /-- A value that is no rule stands in a grammar. -/
  | notARule (value : Value)

def GrammarError.message : GrammarError → String
  | quoteInTerminal text =>
    "Terminal " ++ Text.quoted text
      ++ " holds a quote character, which BNF source cannot express."
  | notASymbol value => "Not a grammar symbol: " ++ value.shown
  | noSymbols => "The list of symbols must not be empty."
  | terminalHead symbol => "Rule start must be a non-terminal: " ++ symbol.shown
  | valueHead value => "Rule start must be a non-terminal: " ++ value.shown
  | noAlternatives head =>
    "The list of alternatives of rule " ++ head.written ++ " must not be empty."
  | notAnAlternative value => "Not an expression: " ++ value.shown
  | noRules => "The given list of rules must not be empty."
  | notARule value => "Not a rule: " ++ value.shown

def Terminal.ofText (text : String) : Except GrammarError Terminal :=
  match Terminal.ofText? text with
  | some symbol => .ok symbol
  | none => .error (.quoteInTerminal text)

def Expression.ofSymbols (symbols : List Symbol) : Except GrammarError Expression :=
  if h : symbols ≠ [] then .ok ⟨symbols, h⟩ else .error .noSymbols

def Rule.ofAlternatives (head : NonTerminal) (alternatives : List Expression) :
    Except GrammarError Rule :=
  if h : alternatives ≠ [] then .ok ⟨head, alternatives, h⟩ else .error (.noAlternatives head)

def Grammar.ofRules (rules : List Rule) : Except GrammarError Grammar :=
  if h : rules ≠ [] then .ok ⟨rules, h⟩ else .error .noRules

namespace Draft

/-- A part that is built, or the value that stands in its place. -/
inductive Part (α : Type) where
  | built (part : α)
  | other (value : Value)

/-- The part, if it is built, or else the value in its place. -/
def Part.checked {α : Type} : Part α → Except Value α
  | built part => .ok part
  | other value => .error value

/-- The parts, if all of them are built, or else the first value among them. -/
def allBuilt {α ε : Type} (fault : Value → ε) : List (Part α) → Except ε (List α)
  | [] => .ok []
  | .other value :: _ => .error (fault value)
  | .built part :: rest => (allBuilt fault rest).map (part :: ·)

/-- Builds a symbol. A value that is no symbol is kept, to be refused where it is used. -/
def Symbol.build : Symbol → Except GrammarError (Part CodonGrammar.Symbol)
  | terminal text => (Terminal.ofText text).map fun symbol => .built (.terminal symbol)
  | nonTerminal symbol => .ok (.built (.nonTerminal symbol))
  | other value => .ok (.other value)

/-- Builds a symbol of an alternative, where every value that is no symbol is refused. -/
def Symbol.buildInAlternative (symbol : Symbol) : Except GrammarError CodonGrammar.Symbol := do
  match ← symbol.build with
  | .built symbol => .ok symbol
  | .other value => .error (.notASymbol value)

def Alternative.build : Alternative → Except GrammarError (Part Expression)
  | sequence symbols => do
    let built ← symbols.mapM Symbol.buildInAlternative
    let expression ← Expression.ofSymbols built
    return .built expression
  | other value => .ok (.other value)

def buildRule (head : Part CodonGrammar.Symbol) (alternatives : List (Part Expression)) :
    Except GrammarError CodonGrammar.Rule :=
  match head with
  | .other value => .error (.valueHead value)
  | .built (.terminal symbol) => .error (.terminalHead symbol)
  | .built (.nonTerminal symbol) =>
    if alternatives.isEmpty then .error (.noAlternatives symbol)
    else do
      let built ← allBuilt .notAnAlternative alternatives
      Rule.ofAlternatives symbol built

def Rule.build : Rule → Except GrammarError (Part CodonGrammar.Rule)
  | production head alternatives => do
    let head ← head.build
    let alternatives ← alternatives.mapM Alternative.build
    let built ← buildRule head alternatives
    return .built built
  | other value => .ok (.other value)

end Draft

def Grammar.ofDraft (rules : List Draft.Rule) : Except GrammarError Grammar := do
  let parts ← rules.mapM Draft.Rule.build
  if parts.isEmpty then .error .noRules
  else do
    let built ← Draft.allBuilt .notARule parts
    Grammar.ofRules built

/-! ## Looking up rules by unchecked keys -/

/-- A key that is no non-terminal, as messages show it. -/
structure LookupError where
  shown : String

def LookupError.message (error : LookupError) : String :=
  "Rule lookup needs a non-terminal, got " ++ error.shown

/-- The rule for a key, which has to be a non-terminal. -/
def Grammar.lookup (grammar : Grammar) (key : Draft.Part Symbol) :
    Except LookupError (Option Rule) :=
  match key with
  | .built (.nonTerminal symbol) => .ok (grammar.ruleFor? symbol)
  | .built (.terminal symbol) => .error ⟨symbol.shown⟩
  | .other value => .error ⟨value.shown⟩

end CodonGrammar
