import CodonGrammar.Grammar.Basic

/-!
# Choosing alternatives

A derivation asks a chooser which alternative of a rule to use. A chooser has a state and may answer
any integer, or fail; the answer counts only if it is the place of an alternative, from zero on. A
chooser that keeps a record of its answers (`Chooser.recorded`) shows which questions a derivation
asks, in order.
-/

namespace CodonGrammar

/-- What a computation with a state of type `σ` leaves: a value or an error, and the state. -/
abbrev Answer (σ ε α : Type) := Except ε α × σ

namespace Answer

variable {σ ε α β : Type}

/-- Goes on with the value and the state, unless there was an error. -/
def andThen (answer : Answer σ ε α) (next : α → σ → Answer σ ε β) : Answer σ ε β :=
  match answer with
  | (.ok value, state) => next value state
  | (.error error, state) => (.error error, state)

@[simp] theorem andThen_ok (value : α) (state : σ) (next : α → σ → Answer σ ε β) :
    andThen (.ok value, state) next = next value state := rfl

@[simp] theorem andThen_error (error : ε) (state : σ) (next : α → σ → Answer σ ε β) :
    andThen (.error error, state) next = (.error error, state) := rfl

end Answer

/-- Picks a number for a rule and the number of its alternatives. -/
abbrev Chooser (σ ε : Type) := Rule → Int → σ → Answer σ ε Int

/-- Why a choice fails. -/
inductive ChoiceError (ε : Type) where
  /-- The chooser failed. -/
  | chooser (error : ε)
  /-- The chooser answered a number that is not the place of an alternative. -/
  | outside (choice : Int) (rule : Rule)

/-- The text of an error, given that of an error of the chooser. -/
def ChoiceError.message {ε : Type} (chooserMessage : ε → String) : ChoiceError ε → String
  | chooser error => chooserMessage error
  | outside choice rule =>
    "Symbol index returned " ++ choice.repr ++ " for " ++ rule.head.written ++ ", outside [0, "
      ++ rule.arity.repr ++ ")."

variable {σ ε : Type}

/-- The alternative at a place, if the place exists. -/
def Rule.alternativeAt? (rule : Rule) (place : Int) : Option Expression :=
  if place < 0 then none else rule.alternatives[place.toNat]?

/-- The alternative of a rule that a chooser picks. -/
def Rule.choose (rule : Rule) (chooser : Chooser σ ε) (state : σ) :
    Answer σ (ChoiceError ε) Expression :=
  match chooser rule rule.arity state with
  | (.error error, state) => (.error (.chooser error), state)
  | (.ok choice, state) =>
    match rule.alternativeAt? choice with
    | some alternative => (.ok alternative, state)
    | none => (.error (.outside choice rule), state)

/-- A question to a chooser, and its answer. -/
structure Decision where
  rule : Rule
  bound : Int
  choice : Int

/-- The chooser that also keeps its decisions, the latest first. -/
def Chooser.recorded (chooser : Chooser σ ε) : Chooser (σ × List Decision) ε :=
  fun rule bound (state, decisions) =>
    match chooser rule bound state with
    | (.ok choice, state) => (.ok choice, (state, ⟨rule, bound, choice⟩ :: decisions))
    | (.error error, state) => (.error error, (state, decisions))

/-- The result of a derivation, and the number of expansions that it took. -/
structure Derived (α : Type) where
  result : α
  expansions : Nat

/-- The limit of a derivation is not positive. -/
structure LimitError where
  limit : Int
  deriving DecidableEq, Repr

def LimitError.message (error : LimitError) : String :=
  "Expansion limit must be at least 1, got " ++ error.limit.repr ++ "."

def checkLimit (limit : Int) : Except LimitError Nat :=
  if limit < 1 then .error ⟨limit⟩ else .ok limit.toNat

def defaultLimit : Nat := 1000

end CodonGrammar
