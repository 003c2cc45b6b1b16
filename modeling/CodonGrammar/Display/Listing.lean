import CodonGrammar.Display.Table
import CodonGrammar.Tree.Basic

/-!
# Listings of grammars and trees

The rules of a grammar as a table, and the nodes of a tree as indented lines.
-/

namespace CodonGrammar.Display

def ruleRow (rule : Rule) (place : Nat) : List String :=
  [place.repr, rule.head.written, rule.arity.repr]

/-- The rules of a grammar with their places, heads and numbers of alternatives. -/
def ruleTable (style : Style) (grammar : Grammar) : String :=
  textTable style ["#", "Rule", "Alternatives"] (grammar.rules.zipIdx.map fun (rule, place) =>
    ruleRow rule place)

def treeText (style : Style) (tree : DerivationTree) : String :=
  String.intercalate "\n" (tree.lines style.symbol)

end CodonGrammar.Display
