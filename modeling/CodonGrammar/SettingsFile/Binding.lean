import CodonGrammar.Text.CharKind
import CodonGrammar.Text.Quoted
import CodonGrammar.Text.Trim

/-!
# Bindings of settings files

A settings file is a list of bindings, each of which ends with a line. A binding is a name, alone or
with an equals sign and a value behind it; the word `export` may stand in front of it, and a
comment, from `#` to the end of the line, behind it. Blanks around its parts do not count.

A value without quotes goes to the end of the line, or to the first `#` with a blank in front of it.
Between quotes it may hold line breaks. There a character with a backslash in front of it never ends
the value. The two stand for the character alone if it is a backslash or an apostrophe, and between
double quotes also if it is a double quote; there a letter may stand for a control character.

A line with anything else is passed over. Each reader below hands back what follows the part that it
has read, and lemmas say that this is shorter, so that reading comes to an end.
-/

namespace CodonGrammar.SettingsFile

open Text (isBlank)

/-- A name, and the value that is written behind it if there is an equals sign. -/
structure Binding where
  name : List Char
  value : Option (List Char)
  deriving DecidableEq, Repr

def isInnerBlank (c : Char) : Bool := isBlank c && c != '\n'

def isNamePart (c : Char) : Bool := c != '=' && c != '#' && !isBlank c

def afterLine (text : List Char) : List Char := (text.dropWhile (· != '\n')).drop 1

/-! ## Quotes -/

/-- The text up to a closing quote, and what follows the quote. A character with a backslash in
front of it is part of the text, whatever it is. -/
def readQuoted (mark : Char) : List Char → Option (List Char × List Char)
  | [] => none
  | '\\' :: c :: rest =>
    (readQuoted mark rest).map fun (text, after) => ('\\' :: c :: text, after)
  | c :: rest =>
    if c = mark then some ([], rest)
    else (readQuoted mark rest).map fun (text, after) => (c :: text, after)

/-- What a character between apostrophes stands for behind a backslash. -/
def plainEscape (c : Char) : Option Char :=
  if c = '\\' ∨ c = Text.apostrophe then some c else none

/-- What a character between double quotes stands for behind a backslash. -/
def letterEscape (c : Char) : Option Char :=
  match c with
  | '"' => some '"'
  | 'a' => some '\x07'
  | 'b' => some '\x08'
  | 'f' => some '\x0c'
  | 'n' => some '\n'
  | 'r' => some '\r'
  | 't' => some '\t'
  | 'v' => some '\x0b'
  | _ => plainEscape c

/-- The text with all escapes replaced by what they stand for. -/
def unescape (escape : Char → Option Char) : List Char → List Char
  | [] => []
  | '\\' :: c :: rest =>
    match escape c with
    | some meant => meant :: unescape escape rest
    | none => '\\' :: unescape escape (c :: rest)
  | c :: rest => c :: unescape escape rest

/-! ## Values and names -/

def beforeComment : List Char → List Char
  | [] => []
  | c :: rest =>
    if isBlank c && (rest.dropWhile isBlank).head? == some '#' then [] else c :: beforeComment rest

def plainValue (text : List Char) : List Char :=
  Text.trimEnd isBlank ((beforeComment text).dropWhile isBlank)

def readValue (text : List Char) : Option (List Char × List Char) :=
  match text.dropWhile isInnerBlank with
  | [] => some ([], [])
  | c :: rest =>
    if c = Text.apostrophe then
      (readQuoted c rest).map fun (value, after) => (unescape plainEscape value, after)
    else if c = '"' then
      (readQuoted c rest).map fun (value, after) => (unescape letterEscape value, after)
    else some (plainValue (text.takeWhile (· != '\n')), text.dropWhile (· != '\n'))

def readName : List Char → Option (List Char × List Char)
  | [] => none
  | c :: rest =>
    if c = Text.apostrophe then
      match rest.takeWhile (· != c), rest.dropWhile (· != c) with
      | first :: others, _ :: after => some (first :: others, after)
      | _, _ => none
    else
      match (c :: rest).takeWhile isNamePart with
      | [] => none
      | name => some (name, (c :: rest).dropWhile isNamePart)

/-- The text without the word in front of a binding. -/
def dropExport (text : List Char) : List Char :=
  match text with
  | 'e' :: 'x' :: 'p' :: 'o' :: 'r' :: 't' :: c :: rest =>
    if isInnerBlank c then rest.dropWhile isInnerBlank else text
  | _ => text

/-! ## Bindings -/

/-- Ends a binding, behind which only a comment may stand in its line. -/
def finish (binding : Binding) (text : List Char) : Option Binding × List Char :=
  match text.dropWhile isInnerBlank with
  | [] => (some binding, [])
  | c :: rest =>
    if c = '\n' then (some binding, rest)
    else if c = '#' then (some binding, afterLine rest)
    else (none, afterLine rest)

def readFromName (text : List Char) : Option Binding × List Char :=
  match readName text with
  | none => (none, afterLine text)
  | some (name, rest) =>
    match rest.dropWhile isInnerBlank with
    | '=' :: assigned =>
      match readValue assigned with
      | none => (none, afterLine assigned)
      | some (value, after) => finish ⟨name, some value⟩ after
    | after => finish ⟨name, none⟩ after

/-- Reads a binding, if there is one in the next line that is not blank. -/
def readBinding (text : List Char) : Option Binding × List Char :=
  match dropExport (text.dropWhile isBlank) with
  | [] => (none, [])
  | c :: rest => if c = '#' then (none, afterLine rest) else readFromName (c :: rest)

theorem length_dropWhile_le (inClass : Char → Bool) (text : List Char) :
    (text.dropWhile inClass).length ≤ text.length :=
  (List.dropWhile_sublist inClass).length_le

theorem length_afterLine_le (text : List Char) : (afterLine text).length ≤ text.length := by
  have hLine := length_dropWhile_le (· != '\n') text
  simp only [afterLine, List.length_drop]
  omega

theorem length_afterLine_lt {text : List Char} (h : text ≠ []) :
    (afterLine text).length < text.length := by
  have hLine := length_dropWhile_le (· != '\n') text
  have hPositive := List.length_pos_iff.2 h
  simp only [afterLine, List.length_drop]
  omega

theorem length_of_readQuoted {mark : Char} {text inner after : List Char}
    (h : readQuoted mark text = some (inner, after)) : after.length < text.length := by
  fun_induction readQuoted mark text generalizing inner after with
  | case1 => cases h
  | case2 c rest ih =>
    obtain ⟨⟨first, second⟩, hRest, hPair⟩ := Option.map_eq_some_iff.1 h
    cases hPair
    have hShorter := ih hRest
    simp only [List.length_cons]
    omega
  | case3 => cases h; simp
  | case4 c rest _ _ ih =>
    obtain ⟨⟨first, second⟩, hRest, hPair⟩ := Option.map_eq_some_iff.1 h
    cases hPair
    have hShorter := ih hRest
    simp only [List.length_cons]
    omega

theorem length_of_readValue {text value after : List Char}
    (h : readValue text = some (value, after)) : after.length ≤ text.length := by
  have hInner := length_dropWhile_le isInnerBlank text
  have hLine := length_dropWhile_le (· != '\n') text
  rw [readValue] at h
  split at h
  · cases h
    simp
  · next c rest hText =>
    rw [hText, List.length_cons] at hInner
    split at h
    · obtain ⟨⟨first, second⟩, hRead, hPair⟩ := Option.map_eq_some_iff.1 h
      cases hPair
      have hShorter := length_of_readQuoted hRead
      omega
    · split at h
      · obtain ⟨⟨first, second⟩, hRead, hPair⟩ := Option.map_eq_some_iff.1 h
        cases hPair
        have hShorter := length_of_readQuoted hRead
        omega
      · cases h
        exact hLine

theorem length_of_readName {text name after : List Char}
    (h : readName text = some (name, after)) : after.length < text.length := by
  rw [readName.eq_def] at h
  split at h
  · cases h
  · next c rest =>
    split at h
    · split at h
      · next hAfter =>
        cases h
        have hQuoted := length_dropWhile_le (· != c) rest
        rw [hAfter] at hQuoted
        simp only [List.length_cons] at hQuoted ⊢
        omega
      · cases h
    · split at h
      · cases h
      · next hSome =>
        cases h
        have hWhole := congrArg List.length
          (List.takeWhile_append_dropWhile (p := isNamePart) (l := c :: rest))
        have hPositive := List.length_pos_iff.2 hSome
        rw [List.length_append] at hWhole
        omega

theorem length_finish_le (binding : Binding) (text : List Char) :
    (finish binding text).2.length ≤ text.length := by
  have hInner := length_dropWhile_le isInnerBlank text
  rw [finish]
  split
  · simp
  · next c rest hText =>
    rw [hText, List.length_cons] at hInner
    have hAfter := length_afterLine_le rest
    split
    · exact Nat.le_of_succ_le hInner
    · split
      · exact Nat.le_trans hAfter (Nat.le_of_succ_le hInner)
      · exact Nat.le_trans hAfter (Nat.le_of_succ_le hInner)

theorem length_readFromName_lt {text : List Char} (h : text ≠ []) :
    (readFromName text).2.length < text.length := by
  rw [readFromName]
  split
  · exact length_afterLine_lt h
  · next name rest hRead =>
    have hName := length_of_readName hRead
    have hInner := length_dropWhile_le isInnerBlank rest
    split
    · next assigned hAssigned =>
      rw [hAssigned, List.length_cons] at hInner
      split
      · have hAfter := length_afterLine_le assigned
        exact Nat.lt_of_le_of_lt hAfter (by omega)
      · next value after hAssignment =>
        have hValue := length_of_readValue hAssignment
        have hFinish := length_finish_le ⟨name, some value⟩ after
        exact Nat.lt_of_le_of_lt hFinish (by omega)
    · exact Nat.lt_of_le_of_lt (length_finish_le ⟨name, none⟩ _) (by omega)

theorem length_dropExport_le (text : List Char) : (dropExport text).length ≤ text.length := by
  rw [dropExport.eq_def]
  split
  · next c rest =>
    have hInner := length_dropWhile_le isInnerBlank rest
    split
    · simp only [List.length_cons]
      omega
    · exact Nat.le_refl _
  · exact Nat.le_refl _

theorem length_readBinding_lt {text : List Char} (h : text ≠ []) :
    (readBinding text).2.length < text.length := by
  have hBlank := length_dropWhile_le isBlank text
  have hExport := length_dropExport_le (text.dropWhile isBlank)
  rw [readBinding]
  split
  · exact List.length_pos_iff.2 h
  · next c rest hText =>
    rw [hText] at hExport
    split
    · have hAfter := length_afterLine_le rest
      exact Nat.lt_of_le_of_lt hAfter (by simp only [List.length_cons] at hExport; omega)
    · have hName := length_readFromName_lt (List.cons_ne_nil c rest)
      omega

def readBindings (text : List Char) : List Binding :=
  match text with
  | [] => []
  | c :: rest =>
    (readBinding (c :: rest)).1.toList ++ readBindings (readBinding (c :: rest)).2
termination_by text.length
decreasing_by exact length_readBinding_lt (List.cons_ne_nil c rest)

end CodonGrammar.SettingsFile
