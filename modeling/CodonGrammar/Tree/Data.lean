import CodonGrammar.Grammar.Draft
import CodonGrammar.Tree.Basic

/-!
# Trees as data

A tree is kept outside as nested records. Each has a type, `nonterminal` or `terminal`, a value,
which is the name or the text of the symbol, and a list of children, which may be left out when it
is empty. Reading such data looks at a record before its children, at the children in order, and at
the type of a record before its value, and it stops at the first fault.

Writing and reading call themselves for each level of a tree. A limit on how deeply calls may be
nested belongs to the system that they run on, and it is left out: trees and data of any depth are
written and read.
-/

namespace CodonGrammar

/-- A record of data; each of its three fields may be missing. -/
inductive TreeData where
  | record (kind : Option Value) (value : Option String) (children : Option (List TreeData))

/-- Why data describes no tree. -/
inductive TreeDataError where
  /-- A record has no type. -/
  | missingType
  /-- A record of a known type has no value. -/
  | missingValue
  /-- The type of a record is neither of the two. -/
  | unknownType (kind : Value)
  /-- The symbol of a record cannot be made. -/
  | symbol (error : GrammarError)

/-- The text of an error; for a missing field it is the name of the field. -/
def TreeDataError.message : TreeDataError → String
  | missingType => "type"
  | missingValue => "value"
  | unknownType kind => "Unknown symbol type: " ++ kind.shown
  | symbol error => error.message

namespace Symbol

def typeWord : Symbol → String
  | terminal _ => "terminal"
  | nonTerminal _ => "nonterminal"

def value : Symbol → String
  | terminal symbol => symbol.text
  | nonTerminal symbol => symbol.name

def ofData (kind : Option Value) (value : Option String) : Except TreeDataError Symbol :=
  match kind with
  | none => .error .missingType
  | some (.text word) =>
    if word = "nonterminal" then
      match value with
      | none => .error .missingValue
      | some name => .ok (.nonTerminal ⟨name⟩)
    else if word = "terminal" then
      match value with
      | none => .error .missingValue
      | some text =>
        match Terminal.ofText text with
        | .ok symbol => .ok (.terminal symbol)
        | .error error => .error (.symbol error)
    else .error (.unknownType (.text word))
  | some other => .error (.unknownType other)

end Symbol

namespace Tree

mutual

def toData : DerivationTree → TreeData
  | node symbol children =>
    .record (some (.text symbol.typeWord)) (some symbol.value) (some (toDataAll children))

def toDataAll : List DerivationTree → List TreeData
  | [] => []
  | tree :: rest => toData tree :: toDataAll rest

end

mutual

def ofData : TreeData → Except TreeDataError DerivationTree
  | .record kind value children =>
    match Symbol.ofData kind value with
    | .error error => .error error
    | .ok symbol =>
      match children with
      | none => .ok (leaf symbol)
      | some list =>
        match ofDataAll list with
        | .error error => .error error
        | .ok trees => .ok (node symbol trees)

def ofDataAll : List TreeData → Except TreeDataError (List DerivationTree)
  | [] => .ok []
  | data :: rest =>
    match ofData data with
    | .error error => .error error
    | .ok tree =>
      match ofDataAll rest with
      | .error error => .error error
      | .ok trees => .ok (tree :: trees)

end

end Tree

/-! ## Records with more entries -/

/-- A record of data as it comes from outside, with entries under other names as well. -/
inductive OpenData (ω : Type) where
  | record (kind : Option Value) (value : Option String) (children : Option (List (OpenData ω)))
      (others : List (String × ω))

namespace OpenData

variable {ω : Type}

mutual

/-- The part of the data that is read. -/
def known : OpenData ω → TreeData
  | record kind value none _ => .record kind value none
  | record kind value (some list) _ => .record kind value (some (knownAll list))

def knownAll : List (OpenData ω) → List TreeData
  | [] => []
  | data :: rest => known data :: knownAll rest

end

end OpenData

end CodonGrammar
