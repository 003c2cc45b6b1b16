import CodonGrammar.Grammar.Basic

/-!
# The tables of a grammar

The rules of a grammar are read once, from the first to the last, and what a grammar is asked for
later is entered into tables: each rule under its head, unless there is one with this head already,
and each symbol that is met, unless it is entered already. The head of a rule is met before the
symbols of its alternatives.
-/

namespace CodonGrammar

/-- The list with one more member at its end, unless it is a member already. -/
def addOnce {α : Type} [DecidableEq α] (listed : List α) (x : α) : List α :=
  if x ∈ listed then listed else listed ++ [x]

/-- What has been entered so far. -/
structure Tables where
  rules : List Rule
  nonTerminals : List NonTerminal
  terminals : List Terminal

namespace Tables

def ruleFor? (tables : Tables) (head : NonTerminal) : Option Rule :=
  tables.rules.find? (·.head = head)

/-- The rules with one more at the end, unless there is one with the same head already. -/
def enter (rules : List Rule) (rule : Rule) : List Rule :=
  match rules.find? (·.head = rule.head) with
  | some _ => rules
  | none => rules ++ [rule]

def meet (tables : Tables) : Symbol → Tables
  | .terminal symbol => { tables with terminals := addOnce tables.terminals symbol }
  | .nonTerminal symbol => { tables with nonTerminals := addOnce tables.nonTerminals symbol }

/-- Reads a rule, its head before its alternatives and each of these from the left to the right. -/
def readRule (tables : Tables) (rule : Rule) : Tables :=
  rule.alternatives.foldl (fun tables alternative => alternative.symbols.foldl meet tables)
    ({ tables with rules := enter tables.rules rule }.meet (.nonTerminal rule.head))

def read (rules : List Rule) : Tables := rules.foldl readRule ⟨[], [], []⟩

end Tables

end CodonGrammar
