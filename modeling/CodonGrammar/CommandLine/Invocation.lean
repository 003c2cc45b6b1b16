import CodonGrammar.CommandLine.Argument
import CodonGrammar.CommandLine.CodonList
import CodonGrammar.Derivation.Sentence

/-!
# Invocations

There are three commands: one shows the rules of a grammar, one derives a sentence from given
codons, and one derives sentences from random codons. Each is about a grammar file and has options
of its own. A mode of operation may be set in front of the command.

Arguments are read from the left to the right, and reading stops at the first one that asks for help
or is wrong. What is missing, and what is too much, is found out at the end.

A separator that is attached to an option takes the place of its value: the option is given then,
but it is blank.
-/

namespace CodonGrammar.CommandLine

/-- What is said about a number: nothing, so that the usual one is meant, or a number, or that
there is none. -/
inductive Setting where
  | usual
  | number (value : Int)
  | blank
  deriving DecidableEq, Repr

def Setting.resolve (usually : Int) : Setting → Option Int
  | usual => some usually
  | number value => some value
  | blank => none

def Setting.number? : Setting → Option Int
  | number value => some value
  | usual => none
  | blank => none

/-- What the program is asked to do with the grammar of a file. A strategy may be blank. -/
inductive Command where
  | display
  | derive (codons : List Int) (limit : Setting) (asTree : Bool) (strategy : Option Strategy)
  | sample (count seed codonCount limit : Setting)

/-- A call of the program. A blank mode is the empty text. -/
structure Invocation where
  mode : Option String
  file : String
  command : Command

/-- Why arguments make no invocation. -/
inductive Stop where
  /-- Help is asked for. -/
  | help
  /-- The arguments are wrong. -/
  | refused
  deriving DecidableEq, Repr

/-- The commands by name. -/
inductive CommandName where
  | display
  | derive
  | sample
  deriving DecidableEq, Repr

namespace CommandName

/-- The word for a command. -/
def word : CommandName → String
  | display => "show"
  | derive => "derive"
  | sample => "sample"

def ofWord? (word : String) : Option CommandName :=
  [display, derive, sample].find? (·.word = word)

def options : CommandName → List OptionName
  | display => [.help]
  | derive => [.help, .codons, .limit, .tree, .expansion]
  | sample => [.help, .count, .seed, .codonCount, .limit]

end CommandName

/-- The command of an invocation by name. -/
def Command.name : Command → CommandName
  | display => .display
  | derive .. => .derive
  | sample .. => .sample

/-! ## The arguments of a command -/

/-- What the arguments of a command have said so far. -/
structure Given where
  file : Option String
  codons : Option (List Int)
  limit : Setting
  asTree : Bool
  strategy : Option Strategy
  count : Setting
  seed : Setting
  codonCount : Setting
  /-- Whether there was an argument too much. -/
  surplus : Bool

def Given.nothing : Given :=
  ⟨none, none, .usual, false, some .leftToRight, .usual, .usual, .usual, false⟩

/-- An option is written that takes no value. A text attached to the short spelling of the option
for help is made of further short options, so it has to consist of letters that ask for help. -/
def readFlag (given : Given) (written : OptionUse) : Except Stop Given :=
  match written.attached with
  | none =>
    if written.spelling.option = .tree then .ok { given with asTree := true } else .error .help
  | some letters =>
    if written.spelling.text = ['-', 'h'] ∧ letters ≠ [] ∧ letters.all (· == 'h') then
      .error .help
    else .error .refused

def readNumber (text : String) : Except Stop Setting :=
  match Number.readInteger text with
  | .ok number => .ok (.number number)
  | .error _ => .error .refused

def readValue (given : Given) (option : OptionName) (text : String) : Except Stop Given :=
  match option with
  | .codons =>
    match readCodonList text with
    | .ok codons => .ok { given with codons := some codons }
    | .error _ => .error .refused
  | .expansion =>
    match Strategy.ofWord? text with
    | some strategy => .ok { given with strategy := some strategy }
    | none => .error .refused
  | .limit => (readNumber text).map fun limit => { given with limit := limit }
  | .count => (readNumber text).map fun count => { given with count := count }
  | .seed => (readNumber text).map fun seed => { given with seed := seed }
  | .codonCount => (readNumber text).map fun count => { given with codonCount := count }
  | .help | .tree | .mode => .error .refused

def readBlank (given : Given) : OptionName → Given
  | .codons => { given with codons := some [] }
  | .expansion => { given with strategy := none }
  | .limit => { given with limit := .blank }
  | .count => { given with count := .blank }
  | .seed => { given with seed := .blank }
  | .codonCount => { given with codonCount := .blank }
  | .help | .tree | .mode => given

/-- An option is written with a text attached to it. -/
def readAttached (given : Given) (option : OptionName) (text : List Char) : Except Stop Given :=
  if text = ['-', '-'] then .ok (readBlank given option)
  else readValue given option (String.ofList text)

/-- Reads the arguments of a command. The first value that belongs to no option is the file, and a
separator may stand directly in front of it or behind it. -/
def readArguments (given : Given) : List Argument → Except Stop Given
  | [] => .ok given
  | .unknown :: rest => readArguments { given with surplus := true } rest
  | .separator :: rest =>
    readArguments { given with surplus := given.surplus || given.file.isSome } rest
  | .value text :: .separator :: rest =>
    match given.file with
    | none => readArguments { given with file := some text } rest
    | some _ => readArguments { given with surplus := true } rest
  | .value text :: rest =>
    match given.file with
    | none => readArguments { given with file := some text } rest
    | some _ => readArguments { given with surplus := true } rest
  | .option ⟨spelling, attached⟩ :: rest =>
    if spelling.option.takesValue then
      match attached, rest with
      | some text, rest =>
        match readAttached given spelling.option text with
        | .ok given => readArguments given rest
        | .error stop => .error stop
      | none, .value text :: rest =>
        match readValue given spelling.option text with
        | .ok given => readArguments given rest
        | .error stop => .error stop
      | none, _ => .error .refused
    else
      match readFlag given ⟨spelling, attached⟩ with
      | .ok given => readArguments given rest
      | .error stop => .error stop

/-- The invocation of a command with what its arguments have said. -/
def Given.invocation (given : Given) (mode : Option String) (name : CommandName) :
    Except Stop Invocation :=
  match given.file, given.surplus with
  | some file, false =>
    match name with
    | .display => .ok ⟨mode, file, .display⟩
    | .sample => .ok ⟨mode, file, .sample given.count given.seed given.codonCount given.limit⟩
    | .derive =>
      match given.codons with
      | some codons => .ok ⟨mode, file, .derive codons given.limit given.asTree given.strategy⟩
      | none => .error .refused
  | _, _ => .error .refused

def readCommand (mode : Option String) (word : String) (arguments : List String) :
    Except Stop Invocation :=
  match CommandName.ofWord? word with
  | none => .error .refused
  | some name =>
    match classifyAll (spellingsOf name.options) arguments with
    | none => .error .refused
    | some kinds =>
      match readArguments Given.nothing kinds with
      | .ok given => given.invocation mode name
      | .error stop => .error stop

/-! ## The whole command line -/

/-- The spellings of the options in front of a command. -/
def generalSpellings : List Spelling := spellingsOf [.help, .mode]

/-- Reads the arguments of the program, with the mode that was set so far. The first value is the
name of the command, and nothing can take the place of a command. -/
def readFrom (mode : Option String) (surplus : Bool) : List String → Except Stop Invocation
  | [] => .error .refused
  | text :: rest =>
    match if text = "--" then none else classify generalSpellings text with
    | none => .error .refused
    | some .separator => .error .refused
    | some .unknown => readFrom mode true rest
    | some (.value word) =>
      match readCommand mode word rest with
      | .error stop => .error stop
      | .ok invocation => if surplus then .error .refused else .ok invocation
    | some (.option ⟨spelling, attached⟩) =>
      if spelling.option.takesValue then
        match attached, rest with
        | some value, rest =>
          let mode := if value = ['-', '-'] then "" else String.ofList value
          readFrom (some mode) surplus rest
        | none, value :: rest =>
          if value ≠ "--" ∧ classify generalSpellings value = some (.value value) then
            readFrom (some value) surplus rest
          else .error .refused
        | none, [] => .error .refused
      else
        match readFlag Given.nothing ⟨spelling, attached⟩ with
        | .error stop => .error stop
        | .ok _ => .error .refused

/-- Reads the arguments of the program. -/
def read (arguments : List String) : Except Stop Invocation := readFrom none false arguments

end CodonGrammar.CommandLine
