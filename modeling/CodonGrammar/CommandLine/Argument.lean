import CodonGrammar.Text.Digit

/-!
# Kinds of arguments

Each argument of a command is a value, an option, or the separator `--`, after which all arguments
are values. An option is written with one of its spellings, or with the beginning of one if no other
spelling begins so, and a text may be attached to it, behind an equals sign or directly behind the
letter of a short option.

An argument that does not start with a hyphen is a value, and so are the single hyphen, negative
numbers, and whatever holds a space, unless it is an option.
-/

namespace CodonGrammar.CommandLine

/-- The options of all commands. -/
inductive OptionName where
  | help
  | mode
  | codons
  | limit
  | tree
  | expansion
  | count
  | seed
  | codonCount
  deriving DecidableEq, Repr

namespace OptionName

def spellings : OptionName → List String
  | help => ["-h", "--help"]
  | mode => ["-env"]
  | codons => ["--codons"]
  | limit => ["--limit"]
  | tree => ["--tree"]
  | expansion => ["--expansion"]
  | count => ["--count"]
  | seed => ["--seed"]
  | codonCount => ["--codon-count"]

def takesValue : OptionName → Bool
  | help | tree => false
  | _ => true

end OptionName

/-- A spelling of an option. -/
structure Spelling where
  option : OptionName
  text : List Char
  deriving DecidableEq, Repr

def spellingsOf (options : List OptionName) : List Spelling :=
  options.flatMap fun option => option.spellings.map fun text => ⟨option, text.toList⟩

/-- An option that was written, and the text attached to it if there is one. -/
structure OptionUse where
  spelling : Spelling
  attached : Option (List Char)
  deriving DecidableEq, Repr

/-- An argument by its kind. -/
inductive Argument where
  | separator
  | value (text : String)
  | option (written : OptionUse)
  /-- What looks like an option, but is none of those that there are. -/
  | unknown
  deriving DecidableEq, Repr

/-- The text in front of the first equals sign, and the text behind it if there is one. -/
def splitAtEquals (text : List Char) : List Char × Option (List Char) :=
  match text.dropWhile (· != '=') with
  | [] => (text, none)
  | _ :: after => (text.takeWhile (· != '='), some after)

/-- The uses of options that a text may be short for. -/
def abbreviated (spellings : List Spelling) (text : List Char) : List OptionUse :=
  match text with
  | '-' :: '-' :: _ =>
    let (start, attached) := splitAtEquals text
    (spellings.filter (start.isPrefixOf ·.text)).map fun spelling => ⟨spelling, attached⟩
  | _ =>
    spellings.filterMap fun spelling =>
      if spelling.text = text.take 2 then some ⟨spelling, some (text.drop 2)⟩
      else if text.isPrefixOf spelling.text then some ⟨spelling, none⟩
      else none

/-- The uses of options that a text may stand for: the one whose spelling it has, or else those
that it may be short for. -/
def candidates (spellings : List Spelling) (text : List Char) : List OptionUse :=
  match spellings.find? (·.text = text) with
  | some spelling => [⟨spelling, none⟩]
  | none =>
    let (start, attached) := splitAtEquals text
    match spellings.find? (·.text = start) with
    | some spelling => [⟨spelling, attached⟩]
    | none => abbreviated spellings text

/-- Whether a text is a run of one or more decimal digits, up to a line feed at its end. -/
def isDigits (text : List Char) : Bool :=
  let rest := text.dropWhile fun c => (Text.digitValue? c).isSome
  rest.length < text.length && (rest.isEmpty || rest == ['\n'])

/-- Whether a text is a negative number, which may have a fractional part. -/
def isNegativeNumber : List Char → Bool
  | '-' :: text =>
    isDigits text ||
      match text.dropWhile fun c => (Text.digitValue? c).isSome with
      | '.' :: fraction => isDigits fraction
      | _ => false
  | _ => false

/-- The kind of an argument in front of the separator; there is none if the argument may be short
for several options. -/
def classify (spellings : List Spelling) (text : String) : Option Argument :=
  match text.toList with
  | '-' :: c :: rest =>
    let chars := '-' :: c :: rest
    match candidates spellings chars with
    | [written] => some (.option written)
    | [] =>
      if isNegativeNumber chars || chars.contains ' ' then some (.value text) else some .unknown
    | _ => none
  | _ => some (.value text)

def classifyAll (spellings : List Spelling) : List String → Option (List Argument)
  | [] => some []
  | text :: rest =>
    if text = "--" then some (.separator :: rest.map .value)
    else
      match classify spellings text, classifyAll spellings rest with
      | some kind, some kinds => some (kind :: kinds)
      | _, _ => none

end CodonGrammar.CommandLine
