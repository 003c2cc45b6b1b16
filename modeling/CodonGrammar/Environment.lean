/-!
# Environments

An environment gives texts to names. It may be completed by other entries: names that it has already
keep their text, even an empty one.
-/

namespace CodonGrammar

/-- Names with their texts. -/
structure Environment where
  entries : List (String × String)

namespace Environment

/-- The text of a name. -/
def get? (environment : Environment) (name : String) : Option String :=
  environment.entries.lookup name

/-- The text of a name, if it has one that is not empty. -/
def nonempty? (environment : Environment) (name : String) : Option String :=
  match environment.get? name with
  | some text => if text.isEmpty then none else some text
  | none => none

/-- The environment with more entries, which do not change what it says already. -/
def complete (environment : Environment) (added : List (String × String)) : Environment :=
  ⟨environment.entries ++ added⟩

end Environment

end CodonGrammar
