import CodonGrammar.Text.Quoted

/-!
# Grammar symbols

A symbol is a non-terminal, known by its name, or a terminal, known by its text. The text of a
terminal never holds the apostrophe, because grammar source has no way to write one: that is part
of the type, so every terminal has a written form.
-/

namespace CodonGrammar

/-- A non-terminal symbol. -/
structure NonTerminal where
  name : String
  deriving DecidableEq, Repr, Hashable

/-- The written form of a non-terminal, its name between angle brackets. -/
def NonTerminal.written (symbol : NonTerminal) : String :=
  "<" ++ symbol.name ++ ">"

/-- A terminal symbol, whose text is free of apostrophes. -/
structure Terminal where
  text : String
  quoteFree : Text.apostrophe ∉ text.toList
  deriving DecidableEq

instance : Hashable Terminal where
  hash symbol := hash symbol.text

namespace Terminal

@[ext] theorem ext {a b : Terminal} (h : a.text = b.text) : a = b := by
  cases a
  cases b
  cases h
  rfl

/-- The terminal with the given text, if the text has no apostrophe. -/
def ofText? (text : String) : Option Terminal :=
  if h : Text.apostrophe ∉ text.toList then some ⟨text, h⟩ else none

theorem ofText?_eq_none_iff {text : String} :
    ofText? text = none ↔ Text.apostrophe ∈ text.toList := by
  simp [ofText?]

@[simp] theorem ofText?_text (symbol : Terminal) : ofText? symbol.text = some symbol := by
  simp [ofText?, symbol.quoteFree]

/-- The empty terminal, which stands for nothing in optional and repeated parts. -/
def empty : Terminal := ⟨"", by simp⟩

def shown (symbol : Terminal) : String :=
  "Terminal(value=" ++ Text.quoted symbol.text ++ ")"

end Terminal

/-- A grammar symbol. -/
inductive Symbol where
  | terminal (symbol : Terminal)
  | nonTerminal (symbol : NonTerminal)
  deriving DecidableEq, Hashable

namespace Symbol

/-- The non-terminal that a symbol is, if it is one. -/
def nonTerminal? : Symbol → Option NonTerminal
  | terminal _ => none
  | nonTerminal symbol => some symbol

def terminal? : Symbol → Option Terminal
  | terminal symbol => some symbol
  | nonTerminal _ => none

/-- The text of a symbol in a sentence: a terminal gives its text, and a non-terminal that was left
over gives its name between angle brackets. -/
def sentenceText : Symbol → String
  | terminal symbol => symbol.text
  | nonTerminal symbol => symbol.written

end Symbol

/-- The text of a sentence, its symbols put together without separators. -/
def sentenceText (sentence : List Symbol) : String :=
  String.join (sentence.map Symbol.sentenceText)

end CodonGrammar
