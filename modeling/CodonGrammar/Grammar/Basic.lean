import CodonGrammar.Grammar.Symbol

/-!
# Grammars

A grammar is an ordered list of rules. A rule gives a non-terminal, its head, one or more
alternatives, and an alternative is a sequence of at least one symbol. All three lists are
non-empty by type. A head may have several rules: the first one is used, and the others are kept
because they belong to the source. A non-terminal may also have no rule at all, and then it is
never expanded.
-/

namespace CodonGrammar

/-- One alternative of a rule, a non-empty sequence of symbols. -/
structure Expression where
  symbols : List Symbol
  nonempty : symbols ≠ []
  deriving DecidableEq

/-- A production rule with a non-empty list of alternatives. -/
structure Rule where
  head : NonTerminal
  alternatives : List Expression
  nonempty : alternatives ≠ []
  deriving DecidableEq

/-- A context-free grammar with at least one rule. -/
structure Grammar where
  rules : List Rule
  nonempty : rules ≠ []
  deriving DecidableEq

namespace Expression

@[ext] theorem ext {a b : Expression} (h : a.symbols = b.symbols) : a = b := by
  cases a
  cases b
  cases h
  rfl

def single (symbol : Symbol) : Expression := ⟨[symbol], by simp⟩

/-- The alternative with one more symbol at its end. -/
def snoc (expression : Expression) (symbol : Symbol) : Expression :=
  ⟨expression.symbols ++ [symbol], by simp⟩

instance : Hashable Expression where
  hash expression := hash expression.symbols

end Expression

namespace Rule

def arity (rule : Rule) : Nat := rule.alternatives.length

theorem arity_pos (rule : Rule) : 0 < rule.arity :=
  List.length_pos_iff.mpr rule.nonempty

/-- The symbols met in a rule, its head before its alternatives, left to right. -/
def symbolsInOrder (rule : Rule) : List Symbol :=
  .nonTerminal rule.head :: rule.alternatives.flatMap Expression.symbols

instance : Hashable Rule where
  hash rule := mixHash (hash rule.head) (hash rule.alternatives)

end Rule

namespace Grammar

@[ext] theorem ext {a b : Grammar} (h : a.rules = b.rules) : a = b := by
  cases a
  cases b
  cases h
  rfl

instance : Hashable Grammar where
  hash grammar := hash grammar.rules

def firstRule (grammar : Grammar) : Rule := grammar.rules.head grammar.nonempty

def start (grammar : Grammar) : NonTerminal := grammar.firstRule.head

/-- The rule that expands a non-terminal: the first one with that head. -/
def ruleFor? (grammar : Grammar) (head : NonTerminal) : Option Rule :=
  grammar.rules.find? (·.head = head)

/-- The rule that expands a symbol. Terminals have none. -/
def expansionOf? (grammar : Grammar) : Symbol → Option Rule
  | .terminal _ => none
  | .nonTerminal head => grammar.ruleFor? head

@[simp] theorem ruleFor?_start (grammar : Grammar) :
    grammar.ruleFor? grammar.start = some grammar.firstRule := by
  obtain ⟨rules, hNonempty⟩ := grammar
  cases rules with
  | nil => exact absurd rfl hNonempty
  | cons rule rest => simp [ruleFor?, start, firstRule]

/-- The symbols met when the rules are read in order. -/
def symbolsInOrder (grammar : Grammar) : List Symbol :=
  grammar.rules.flatMap Rule.symbolsInOrder

/-- The distinct non-terminals of a grammar in the order in which they are first met. -/
def nonTerminals (grammar : Grammar) : List NonTerminal :=
  (grammar.symbolsInOrder.filterMap Symbol.nonTerminal?).eraseDups

/-- The distinct terminals of a grammar in the order in which they are first met. -/
def terminals (grammar : Grammar) : List Terminal :=
  (grammar.symbolsInOrder.filterMap Symbol.terminal?).eraseDups

def shown (grammar : Grammar) : String :=
  "Grammar(start=" ++ grammar.start.written ++ ", rules=" ++ grammar.rules.length.repr ++ ")"

end Grammar

end CodonGrammar
