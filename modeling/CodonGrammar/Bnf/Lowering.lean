import CodonGrammar.Bnf.Outline
import CodonGrammar.Log.Record

/-!
# Brackets as rules

A grammar has no brackets, so each bracketed part of a source becomes a reference to a rule of its
own. The rule is added where the bracket closes, and so a part that lies inside another one gets
its rule first. With `X` for the alternatives in the brackets and `A` for the new non-terminal:

* `[X]` becomes `A ::= X | ''`,
* `{X}` becomes `A ::= '' | X A`,
* `(X)` becomes `A ::= X | X A`.

The new non-terminal is named after the head of the source rule, the kind of bracket and a number.
The numbers grow over the whole source, and one whose name is taken is left out.
-/

namespace CodonGrammar.Bnf

/-- The word for a bracket in the names of new non-terminals. -/
def Bracket.label : Bracket → String
  | optional => "opt"
  | zeroOrMore => "star"
  | oneOrMore => "plus"

def auxiliaryName (head : NonTerminal) (bracket : Bracket) (number : Nat) : String :=
  head.name ++ "-" ++ bracket.label ++ "-" ++ number.repr

/-- The least number above `counter` whose name is not taken. Among one number more than there are
names one is always free, so if all the earlier ones are taken it is the last. -/
def freshNumber (names : List String) (head : NonTerminal) (bracket : Bracket) (counter : Nat) :
    Nat :=
  let candidates := List.range' (counter + 1) names.length
  (candidates.find? fun number => auxiliaryName head bracket number ∉ names).getD
    (counter + names.length + 1)

/-- The rule for a bracketed part with the given alternatives. -/
def Bracket.rule (bracket : Bracket) (head : NonTerminal) (first : Expression)
    (others : List Expression) : Rule :=
  let once := first :: others
  let again := once.map fun expression => expression.snoc (.nonTerminal head)
  let nothing := Expression.single (.terminal .empty)
  match bracket with
  | optional => ⟨head, once ++ [nothing], by simp⟩
  | zeroOrMore => ⟨head, nothing :: again, by simp⟩
  | oneOrMore => ⟨head, once ++ again, by simp [once]⟩

/-- What is known while brackets are turned into rules: the last number used, the names taken, and
the rules added so far, in order. -/
structure Lowering where
  counter : Nat
  names : List String
  added : List Rule

namespace Lowering

/-- A new non-terminal, with the state in which its name is taken. -/
def fresh (state : Lowering) (head : NonTerminal) (bracket : Bracket) : NonTerminal × Lowering :=
  let number := freshNumber state.names head bracket state.counter
  let name := auxiliaryName head bracket number
  (⟨name⟩, ⟨number, name :: state.names, state.added⟩)

/-- The state with one more rule. -/
def add (state : Lowering) (rule : Rule) : Lowering :=
  { state with added := state.added ++ [rule] }

/-- A new rule for a bracketed part of a rule with the given head, and the symbol that refers to
it. -/
def addGroup (state : Lowering) (head : NonTerminal) (bracket : Bracket) (first : Expression)
    (others : List Expression) : Symbol × Lowering :=
  let (symbol, state) := state.fresh head bracket
  (.nonTerminal symbol, state.add (bracket.rule symbol first others))

end Lowering

mutual

/-- The symbol for an element of a rule with the given head. -/
def Element.lower (head : NonTerminal) : Element → Lowering → Symbol × Lowering
  | .word _ text, state => (.terminal text, state)
  | .nonTerminal symbol, state => (.nonTerminal symbol, state)
  | .group bracket body, state =>
    let (alternatives, state) := body.lower head state
    state.addGroup head bracket alternatives.1 alternatives.2

def Sequence.lower (head : NonTerminal) : Sequence → Lowering → Expression × Lowering
  | .single element, state =>
    let (symbol, state) := element.lower head state
    (.single symbol, state)
  | .cons element rest, state =>
    let (symbol, state) := element.lower head state
    let (expression, state) := rest.lower head state
    (⟨symbol :: expression.symbols, by simp⟩, state)

/-- The alternatives, the first one and the others. -/
def Alternatives.lower (head : NonTerminal) :
    Alternatives → Lowering → (Expression × List Expression) × Lowering
  | .single sequence, state =>
    let (expression, state) := sequence.lower head state
    ((expression, []), state)
  | .cons sequence rest, state =>
    let (expression, state) := sequence.lower head state
    let (others, state) := rest.lower head state
    ((expression, others.1 :: others.2), state)

end

/-- The rule without brackets for a rule of the source. -/
def SourceRule.lower (rule : SourceRule) (state : Lowering) : Rule × Lowering :=
  let (alternatives, state) := rule.alternatives.lower rule.head state
  (⟨rule.head, alternatives.1 :: alternatives.2, by simp⟩, state)

/-- The rules without brackets for the rules of the source, in order. -/
def lowerRules : List SourceRule → Lowering → List Rule × Lowering
  | [], state => ([], state)
  | rule :: rest, state =>
    let (first, state) := rule.lower state
    let (others, state) := lowerRules rest state
    (first :: others, state)

@[simp] theorem length_lowerRules (rules : List SourceRule) (state : Lowering) :
    (lowerRules rules state).1.length = rules.length := by
  induction rules generalizing state with
  | nil => rfl
  | cons rule rest ih => simp [lowerRules, ih]

/-- What reading a source gives: the rules that it states, and those added for its brackets. -/
structure Reading where
  stated : List Rule
  added : List Rule
  nonempty : stated ≠ []

namespace Reading

/-- The grammar that was read: the stated rules, then the added ones. -/
def grammar (reading : Reading) : Grammar :=
  ⟨reading.stated ++ reading.added, by simp [reading.nonempty]⟩

def repeatedHeads : (seen : List NonTerminal) → List Rule → List NonTerminal
  | _, [] => []
  | seen, rule :: rest =>
    if rule.head ∈ seen then rule.head :: repeatedHeads seen rest
    else repeatedHeads (rule.head :: seen) rest

/-- The log records about a source that was read: a warning for each stated rule whose head has
one already, then the numbers of rules. -/
def records (reading : Reading) : List Log.Record :=
  let logger := "cfgevo.bnf"
  (repeatedHeads [] reading.stated).map (fun head =>
      ⟨.warning, logger,
        "Duplicate rule for " ++ head.written ++ "; only the first one is used"⟩)
    ++ [⟨.debug, logger,
          "Parsed " ++ reading.stated.length.repr ++ " rules, synthesized "
            ++ reading.added.length.repr ++ " auxiliary rules"⟩]

end Reading

/-- The outline without brackets. The names given are those that the source itself uses. -/
def Outline.lower (outline : Outline) (names : List String) : Reading :=
  let lowered := lowerRules outline.rules ⟨0, names, []⟩
  ⟨lowered.1, lowered.2.added, by
    have hPositive := List.length_pos_iff.mpr outline.nonempty
    rw [← length_lowerRules outline.rules ⟨0, names, []⟩] at hPositive
    exact List.length_pos_iff.mp hPositive⟩

end CodonGrammar.Bnf
