import CodonGrammar.Bnf.Written
import CodonGrammar.Grammar.Draft
import CodonGrammar.Number.Numeral
import CodonGrammar.Text.Trim

/-!
# Styled text

Output to a terminal may be coloured. A piece of text gets a code in front of it that says how it is
to be shown, and a code behind it that ends this. Without colours every piece is written as it is,
so the styled output is the plain output with codes put in between.
-/

namespace CodonGrammar.Display

open Text (isBlank)

/-- How a piece of text is shown. -/
inductive Paint where
  | accent
  | success
  | error
  | dim
  | terminal
  | nonTerminal
  | reset
  deriving DecidableEq, Repr

namespace Paint

/-- The word for a way of showing text. -/
def word : Paint → String
  | accent => "accent"
  | success => "success"
  | error => "error"
  | dim => "dim"
  | terminal => "terminal"
  | nonTerminal => "nonterminal"
  | reset => "reset"

/-- The way of showing text that a word stands for. -/
def ofWord? (word : String) : Option Paint :=
  [accent, success, error, dim, terminal, nonTerminal, reset].find? (·.word = word)

/-- The code that a terminal understands. -/
def code : Paint → String
  | accent => "\x1b[36m\x1b[1m"
  | success => "\x1b[32m\x1b[1m"
  | error => "\x1b[31m\x1b[1m"
  | dim => "\x1b[2m"
  | terminal => "\x1b[32m"
  | nonTerminal => "\x1b[35m"
  | reset => "\x1b[0m"

end Paint

/-- Whether output is coloured. -/
structure Style where
  coloured : Bool
  deriving DecidableEq, Repr

/-- Whether output is to be coloured: if it goes to a terminal, and the setting against colours is
empty or missing. -/
def wantsColour (setting : Option String) (toTerminal : Bool) : Bool :=
  (setting.getD "").isEmpty && toTerminal

def defaultColumns : Nat := 80

/-- The width of a terminal by its setting, which has to be a positive number. -/
def columnsOf (setting : Option String) : Nat :=
  match setting.map Number.readInteger with
  | some (.ok number) => if 0 < number then number.toNat else defaultColumns
  | _ => defaultColumns

namespace Style

def plain : Style := ⟨false⟩

/-- The text shown in a given way; without one the text stays as it is. -/
def apply (style : Style) (paint : Option Paint) (text : String) : String :=
  match paint with
  | some paint => if style.coloured then paint.code ++ text ++ Paint.reset.code else text
  | none => text

@[simp] theorem apply_plain (paint : Option Paint) (text : String) :
    plain.apply paint text = text := by
  cases paint <;> simp [apply, plain]

/-- A word between brackets. -/
def tag (style : Style) (word : String) (paint : Paint) : String :=
  style.apply (some .dim) "[" ++ style.apply (some paint) word ++ style.apply (some .dim) "]"

def paintOf : Symbol → Paint
  | .terminal _ => .terminal
  | .nonTerminal _ => .nonTerminal

def symbol (style : Style) (symbol : Symbol) : String :=
  style.apply (some (paintOf symbol)) symbol.written

/-- The written form of what stands in the place of a symbol, where any value looks like a
terminal. -/
def part (style : Style) : Draft.Part Symbol → String
  | .built built => style.symbol built
  | .other value => style.apply (some .terminal) value.written

def sentence (style : Style) (sentence : List Symbol) : String :=
  String.join (sentence.map fun symbol => style.apply (some (paintOf symbol)) symbol.sentenceText)

/-- The width of the line below a title, for a terminal with so many columns. -/
def titleWidth (columns : Nat) : Nat := min (max columns 20) 80

/-- A title, and a line below it that repeats a text for every column. -/
def header (style : Style) (columns : Nat) (title line : String) : String :=
  style.apply (some .accent) (" " ++ String.ofList (Text.trim isBlank title.toList) ++ " ") ++ "\n"
    ++ style.apply (some .dim) (String.join (List.replicate (titleWidth columns) line))

end Style

end CodonGrammar.Display
