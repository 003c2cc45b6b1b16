import CodonGrammar.Environment

/-!
# References in settings

A value in a settings file may refer to variables. `$` with a name in braces stands for the text of
the variable; behind the name, `:-` introduces the text to be used if there is no such variable.
Without it a missing variable stands for the empty text. Anything that is not of this form stands
for itself.
-/

namespace CodonGrammar.SettingsFile

def isReferencePart (c : Char) : Bool := c != '\x7d' && c != ':'

/-- A reference to a variable. -/
structure Reference where
  name : List Char
  otherwise : Option (List Char)
  deriving DecidableEq, Repr

/-- Reads a reference behind its opening brace, and hands back what follows it. -/
def readReference (text : List Char) : Option (Reference × List Char) :=
  let name := text.takeWhile isReferencePart
  match text.dropWhile isReferencePart with
  | ':' :: '-' :: rest =>
    match rest.dropWhile (· != '\x7d') with
    | _ :: after => some (⟨name, some (rest.takeWhile (· != '\x7d'))⟩, after)
    | [] => none
  | c :: after => if c = '\x7d' then some (⟨name, none⟩, after) else none
  | [] => none

theorem length_of_readReference {text after : List Char} {reference : Reference}
    (h : readReference text = some (reference, after)) : after.length < text.length := by
  have hName := (List.dropWhile_sublist isReferencePart (l := text)).length_le
  simp only [readReference] at h
  split at h
  · next rest hRest =>
    have hClosed := (List.dropWhile_sublist (· != '\x7d') (l := rest)).length_le
    rw [hRest] at hName
    simp only [List.length_cons] at hName
    split at h
    · next hAfter =>
      cases h
      rw [hAfter] at hClosed
      simp only [List.length_cons] at hClosed
      omega
    · cases h
  · next hRest =>
    rw [hRest] at hName
    simp only [List.length_cons] at hName
    split at h
    · cases h
      omega
    · cases h
  · cases h

/-- The text that a reference stands for. A variable may be known without having a text. -/
def Reference.text (lookup : String → Option (Option String)) (reference : Reference) :
    List Char :=
  match lookup (String.ofList reference.name) with
  | some (some text) => text.toList
  | some none => []
  | none => reference.otherwise.getD []

/-- The text with all references replaced by what they stand for. -/
def resolve (lookup : String → Option (Option String)) (text : List Char) : List Char :=
  match text with
  | [] => []
  | '$' :: '\x7b' :: rest =>
    match _hRead : readReference rest with
    | some (reference, after) => reference.text lookup ++ resolve lookup after
    | none => '$' :: resolve lookup ('\x7b' :: rest)
  | c :: rest => c :: resolve lookup rest
termination_by text.length
decreasing_by
  · have hShorter := length_of_readReference _hRead
    simp only [List.length_cons]
    omega
  · simp
  · simp

end CodonGrammar.SettingsFile
