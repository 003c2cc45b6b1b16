import CodonGrammar.Bnf.Parse
import CodonGrammar.SettingsFile.Entries
import CodonGrammar.Text.Split

/-!
# Grammar files

A grammar is read from a file of UTF-8 text with any kind of line breaks. The path of the file is
first brought into a plain form, in which messages show it: without empty parts and without parts
that stand for the folder they are in. No path holds the null character.
-/

namespace CodonGrammar.CommandLine

/-- The slashes that a path starts with, as far as they matter: two of them are kept, and of any
other number of them one is. -/
def rootOf : List Char → List Char
  | ['/', '/'] => ['/', '/']
  | '/' :: '/' :: c :: _ => if c = '/' then ['/'] else ['/', '/']
  | '/' :: _ => ['/']
  | _ => []

/-- The parts of a path that lead anywhere. -/
def pathParts (path : List Char) : List (List Char) :=
  (Text.splitAtEach '/' path).filter fun part => !part.isEmpty && part != ['.']

/-- The plain form of a path. -/
def plainPath (path : String) : String :=
  match rootOf path.toList, pathParts path.toList with
  | [], [] => "."
  | root, parts => String.ofList (root ++ ['/'].intercalate parts)

/-- Why a file cannot be read: the number and the text that the system has for it. -/
structure FileError where
  number : Nat
  text : String
  deriving DecidableEq, Repr

namespace FileError

/-- There is no such file. -/
def missing : FileError := ⟨2, "No such file or directory"⟩

/-- A part of the path is a file, and not a folder. -/
def notAFolder : FileError := ⟨20, "Not a directory"⟩

/-- The path leads to a folder. -/
def folder : FileError := ⟨21, "Is a directory"⟩

/-- A part of the path is too long. -/
def nameTooLong : FileError := ⟨36, "File name too long"⟩

/-- The text of an error about the file at a path. -/
def message (path : String) (error : FileError) : String :=
  "[Errno " ++ error.number.repr ++ "] " ++ error.text ++ ": " ++ Text.quoted path

end FileError

/-- Why a file gives no grammar. -/
inductive GrammarFileError where
  /-- The path holds the null character. -/
  | nullCharacter
  | file (error : FileError)
  | encoding (error : Text.Utf8Error)
  | source (error : Bnf.Error)

/-- What the content of the file at a path gives. -/
def readGrammar (path : String) (content : String → Except FileError (List UInt8)) :
    Except GrammarFileError Bnf.Reading :=
  if path.contains '\x00' then .error .nullCharacter
  else
    match content path with
    | .error error => .error (.file error)
    | .ok bytes =>
      match Text.readUtf8 bytes with
      | .error error => .error (.encoding error)
      | .ok chars =>
        match Bnf.read (String.ofList (Text.unifyBreaks chars)) with
        | .error error => .error (.source error)
        | .ok reading => .ok reading

end CodonGrammar.CommandLine
