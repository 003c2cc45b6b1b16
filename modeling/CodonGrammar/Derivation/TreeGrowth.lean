import CodonGrammar.Derivation.Sentence
import CodonGrammar.Tree.Basic

/-!
# Growing derivation trees

A tree grows from a root with the start symbol. Each step takes the first leaf, from the left, that
has a rule, and gives it the symbols of the alternative that a chooser picks as children. So the
leaves of the tree are the sentence that the left-most strategy derives with the same chooser.
-/

namespace CodonGrammar

namespace Tree

variable (grammar : Grammar)

mutual

def firstRule? : DerivationTree → Option Rule
  | node symbol [] => grammar.expansionOf? symbol
  | node _ (first :: rest) => firstRuleOf? (first :: rest)

/-- The rule of the first leaf that has one, in a list of trees. -/
def firstRuleOf? : List DerivationTree → Option Rule
  | [] => none
  | tree :: rest =>
    match firstRule? tree with
    | some rule => some rule
    | none => firstRuleOf? rest

end

mutual

/-- The tree with children of the given symbols below the first leaf that has a rule, if there is
such a leaf. -/
def expand? (symbols : List Symbol) : DerivationTree → Option DerivationTree
  | node symbol [] =>
    match grammar.expansionOf? symbol with
    | some _ => some (node symbol (symbols.map leaf))
    | none => none
  | node symbol (first :: rest) =>
    match expandIn? symbols (first :: rest) with
    | some children => some (node symbol children)
    | none => none

/-- The trees with children of the given symbols below their first leaf that has a rule, if there
is such a leaf. -/
def expandIn? (symbols : List Symbol) : List DerivationTree → Option (List DerivationTree)
  | [] => none
  | tree :: rest =>
    match expand? symbols tree with
    | some expanded => some (expanded :: rest)
    | none =>
      match expandIn? symbols rest with
      | some others => some (tree :: others)
      | none => none

end

/-- The tree with children of the given symbols below the first leaf that has a rule. A tree without
such a leaf stays as it is. -/
def expand (symbols : List Symbol) (tree : DerivationTree) :
    DerivationTree :=
  (tree.expand? grammar symbols).getD tree

end Tree

namespace Grammar

variable {σ ε : Type} (grammar : Grammar) (chooser : Chooser σ ε)

/-- Steps until no leaf has a rule or the budget is spent. -/
def growTree : (budget : Nat) → DerivationTree → σ →
    Answer σ (ChoiceError ε) (DerivationTree × Nat)
  | 0, tree, state => (.ok (tree, 0), state)
  | budget + 1, tree, state =>
    match tree.firstRule? grammar with
    | none => (.ok (tree, budget + 1), state)
    | some rule =>
      (rule.choose chooser state).andThen fun alternative state =>
        growTree budget (tree.expand grammar alternative.symbols) state

/-- Derives a tree with at most `limit` expansions. -/
def deriveTree (limit : Nat) (state : σ) : Answer σ (ChoiceError ε) (Derived DerivationTree) :=
  (grammar.growTree chooser limit (Tree.leaf (.nonTerminal grammar.start)) state).andThen
    fun (tree, left) state => (.ok ⟨tree, limit - left⟩, state)

end Grammar

/-- The log records about a derived tree: one, if the limit was reached. -/
def Derived.treeRecords (derived : Derived DerivationTree) (limit : Nat) : List Log.Record :=
  if limit ≤ derived.expansions then
    [⟨.debug, "cfgevo.generators",
      "Derivation tree stopped at the expansion limit (" ++ limit.repr ++ ")"⟩]
  else []

end CodonGrammar
