import CodonGrammar.Grammar.Symbol

/-!
# Tokens of grammar source

A token is a lexeme and the position of its first character. A lexeme is one of ten marks, a word,
or the end of the source. A word is a name, a bare run of printable characters, or a quoted text;
whichever it is, its text is the text of a terminal, and so holds no apostrophe.
-/

namespace CodonGrammar.Bnf

/-- The structural marks of the notation. -/
inductive Mark where
  /-- `::=`, between the head of a rule and its alternatives. -/
  | assign
  /-- `|`, between two alternatives. -/
  | bar
  /-- The angle brackets around a non-terminal. -/
  | lt | gt
  /-- The round brackets around a part that occurs one or more times. -/
  | lparen | rparen
  /-- The curly brackets around a part that occurs any number of times. -/
  | lbrace | rbrace
  /-- The square brackets around an optional part. -/
  | lbracket | rbracket
  deriving DecidableEq, Repr

def assignText : List Char := [':', ':', '=']

namespace Mark

/-- The written form of a mark. -/
def text : Mark → List Char
  | assign => assignText
  | bar => ['|']
  | lt => ['<']
  | gt => ['>']
  | lparen => ['(']
  | rparen => [')']
  | lbrace => ['{']
  | rbrace => ['}']
  | lbracket => ['[']
  | rbracket => [']']

/-- The name by which messages call a mark. -/
def name : Mark → String
  | assign => "ASSIGN"
  | bar => "BAR"
  | lt => "LT"
  | gt => "GT"
  | lparen => "LPAREN"
  | rparen => "RPAREN"
  | lbrace => "LBRACE"
  | rbrace => "RBRACE"
  | lbracket => "LBRACKET"
  | rbracket => "RBRACKET"

/-- The mark that one character makes, if it does. The assignment mark has three characters. -/
def ofChar? (c : Char) : Option Mark :=
  match c with
  | '|' => some bar
  | '<' => some lt
  | '>' => some gt
  | '(' => some lparen
  | ')' => some rparen
  | '{' => some lbrace
  | '}' => some rbrace
  | '[' => some lbracket
  | ']' => some rbracket
  | _ => none

/-- A character that makes a mark is the whole written form of that mark. -/
theorem text_of_ofChar? {c : Char} {mark : Mark} (h : ofChar? c = some mark) :
    mark.text = [c] := by
  unfold ofChar? at h
  split at h <;> simp_all [text] <;> (subst h; rfl)

end Mark

/-- The three ways to write a word. -/
inductive WordKind where
  /-- A letter or underscore, followed by letters, digits, underscores and hyphens. -/
  | name
  /-- Any other run of printable characters. -/
  | bare
  /-- Any text between apostrophes. -/
  | quoted
  deriving DecidableEq, Repr

/-- The name by which messages call a kind of word. -/
def WordKind.shown : WordKind → String
  | name => "ID"
  | bare => "STRING"
  | quoted => "QUOTED_STRING"

/-- What a token says. -/
inductive Lexeme where
  | mark (mark : Mark)
  | word (kind : WordKind) (text : Terminal)
  | finish
  deriving DecidableEq

namespace Lexeme

def kindName : Lexeme → String
  | mark m => m.name
  | word kind _ => kind.shown
  | finish => "EOF"

/-- The value of a lexeme: for a word its text without quotes, and for a mark its written form. -/
def value : Lexeme → String
  | mark m => String.ofList m.text
  | word _ text => text.text
  | finish => "<EOF>"

end Lexeme

/-- A lexeme at a position. Positions count characters from zero. -/
structure Token where
  lexeme : Lexeme
  position : Nat
  deriving DecidableEq

def Token.shown (token : Token) : String :=
  token.lexeme.kindName ++ "(" ++ Text.quoted token.lexeme.value ++ ")"

/-- The tokens of a whole source, and the position of its end. -/
structure TokenList where
  tokens : List Token
  endPosition : Nat
  deriving DecidableEq

namespace TokenList

def finishToken (list : TokenList) : Token := ⟨.finish, list.endPosition⟩

def toList (list : TokenList) : List Token := list.tokens ++ [list.finishToken]

/-- The names written between angle brackets, from left to right, with repetitions. -/
def bracketedNamesOf : List Token → List String
  | ⟨.mark .lt, _⟩ :: rest =>
    match rest with
    | ⟨.word .name text, _⟩ :: ⟨.mark .gt, _⟩ :: _ => text.text :: bracketedNamesOf rest
    | _ => bracketedNamesOf rest
  | _ :: rest => bracketedNamesOf rest
  | [] => []

/-- The distinct names written between angle brackets. -/
def bracketedNames (list : TokenList) : List String :=
  (bracketedNamesOf list.tokens).eraseDups

end TokenList

end CodonGrammar.Bnf
