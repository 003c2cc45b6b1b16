import CodonGrammar.SettingsFile.Binding
import CodonGrammar.SettingsFile.Reference
import CodonGrammar.Text.LineBreak
import CodonGrammar.Text.Utf8

/-!
# Settings files

A settings file is UTF-8 text with any kind of line breaks, which may start with a byte order mark.
Its bindings set variables that the environment does not have yet. Of several bindings with one name
the last one counts, and it sets nothing if it has no value. A value may refer to the variables of
the environment and to those that are bound further up, the former having precedence.

No variable can hold the null character, nor can its name hold an equals sign. Variables are set in
the order in which they are bound first, and the first one that cannot be set is reported.
-/

namespace CodonGrammar

/-- Why a settings file cannot be used. -/
inductive SettingsFileError where
  /-- The file is no UTF-8 text. -/
  | encoding (error : Text.Utf8Error)
  /-- A variable, or the path of the file, would hold the null character. -/
  | nullCharacter
  /-- The name of a variable would hold an equals sign. -/
  | equalsSign
  deriving DecidableEq, Repr

/-- What is said about a text with the null character. -/
def nullCharacterMessage : String := "embedded null byte"

def SettingsFileError.message : SettingsFileError → String
  | encoding error => error.message
  | nullCharacter => nullCharacterMessage
  | equalsSign => "illegal environment variable name"

namespace SettingsFile

/-- The names of a file with their values, the last binding first. The value of a binding may refer
to the bindings in front of it, which are given in the same order. -/
def assignments (environment : Environment) (earlier : List (String × Option String)) :
    List Binding → List (String × Option String)
  | [] => earlier
  | binding :: rest =>
    let lookup := fun name =>
      match environment.get? name with
      | some text => some (some text)
      | none => earlier.lookup name
    let value := binding.value.map fun text => String.ofList (resolve lookup text)
    assignments environment ((String.ofList binding.name, value) :: earlier) rest

/-- The variables that assignments set in an environment, in the order in which they first appear.
The last assignment is given first. -/
def settable (environment : Environment) (assigned : List (String × Option String)) :
    List (String × String) :=
  (assigned.reverse.map Prod.fst).eraseDups.filterMap fun name =>
    if (environment.get? name).isSome then none
    else ((assigned.lookup name).join).map fun value => (name, value)

def fault? : String × String → Option SettingsFileError
  | (name, value) =>
    if name.contains '\x00' || value.contains '\x00' then some .nullCharacter
    else if name.contains '=' then some .equalsSign
    else none

/-- The text without a byte order mark at its front. -/
def dropMark : List Char → List Char
  | '\ufeff' :: rest => rest
  | text => text

/-- The variables that a settings file sets in an environment. -/
def entries (environment : Environment) (source : List Char) :
    Except SettingsFileError (List (String × String)) :=
  let bindings := readBindings (dropMark (Text.unifyBreaks source))
  let found := settable environment (assignments environment [] bindings)
  match found.findSome? fault? with
  | some error => .error error
  | none => .ok found

/-- The environment completed from the content of a settings file. -/
def complete (environment : Environment) (content : List UInt8) :
    Except SettingsFileError Environment :=
  match Text.readUtf8 content with
  | .error error => .error (.encoding error)
  | .ok chars => (entries environment chars).map environment.complete

end SettingsFile

end CodonGrammar
