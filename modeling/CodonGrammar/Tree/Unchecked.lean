import CodonGrammar.Grammar.Draft
import CodonGrammar.Tree.Basic

/-!
# Trees with unchecked labels

A tree may hold any plain value where a symbol belongs. It can be measured and shown like any other,
but it has a sentence only if its leaves are symbols, and it is a derivation tree only if all of its
labels are. The first label that is no symbol is handed back instead, from the top to the bottom and
from the left to the right.
-/

namespace CodonGrammar

/-- A tree with symbols or other values at its nodes. -/
abbrev UncheckedTree := Tree (Draft.Part Symbol)

/-- The written form of what stands in the place of a symbol. -/
def Draft.Part.written : Draft.Part CodonGrammar.Symbol → String
  | built symbol => symbol.written
  | other value => value.written

namespace UncheckedTree

def checked (tree : UncheckedTree) : Except Value DerivationTree :=
  tree.relabel Draft.Part.checked

def sentence (tree : UncheckedTree) : Except Value (List Symbol) :=
  Draft.allBuilt id tree.fringe

/-- The structure of a tree, one line for each node. -/
def structureText (tree : UncheckedTree) : String := tree.block Draft.Part.written

def shown (tree : UncheckedTree) : String := tree.shownBy Draft.Part.written

end UncheckedTree

/-- A derivation tree, seen as a tree with unchecked labels. -/
def Tree.unchecked (tree : DerivationTree) : UncheckedTree := tree.map Draft.Part.built

end CodonGrammar
