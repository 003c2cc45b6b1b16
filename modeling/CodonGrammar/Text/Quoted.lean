import CodonGrammar.Text.CharKind

/-!
# Quoted text

Messages show a piece of text between quotes, on one line and without doubt about its characters.
The quote is an apostrophe, or a double quote for a text that holds an apostrophe and no double
quote. The quote in use, the backslash and the line breaks `\n`, `\r`, `\t` are escaped by a
backslash, any other unprintable character by its code point in hexadecimal, with two, four or
eight digits. All other characters stand for themselves.
-/

namespace CodonGrammar.Text

/-- The apostrophe, which also delimits quoted terminals in grammar source. -/
def apostrophe : Char := '\x27'

/-- The last `width` hexadecimal digits of a number, in lower case. -/
def hexDigits : (width : Nat) → Nat → List Char
  | 0, _ => []
  | width + 1, n => hexDigits width (n / 16) ++ [Nat.digitChar (n % 16)]

def codePointEscape (c : Char) : List Char :=
  if c.toNat < 0x100 then '\\' :: 'x' :: hexDigits 2 c.toNat
  else if c.toNat < 0x10000 then '\\' :: 'u' :: hexDigits 4 c.toNat
  else '\\' :: 'U' :: hexDigits 8 c.toNat

/-- One character of a text between the given quotes. -/
def quotedChar (mark c : Char) : List Char :=
  if c = mark ∨ c = '\\' then ['\\', c]
  else if c = '\n' then ['\\', 'n']
  else if c = '\r' then ['\\', 'r']
  else if c = '\t' then ['\\', 't']
  else if isPrintable c then [c]
  else codePointEscape c

def quoteMark (text : List Char) : Char :=
  if apostrophe ∈ text ∧ '"' ∉ text then '"' else apostrophe

def quoted (text : String) : String :=
  let chars := text.toList
  let mark := quoteMark chars
  String.ofList (mark :: chars.flatMap (quotedChar mark) ++ [mark])

end CodonGrammar.Text
