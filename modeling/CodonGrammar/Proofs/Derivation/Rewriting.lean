import CodonGrammar.Grammar.Basic
import Mathlib.Data.Set.Defs
import Mathlib.Logic.Relation

/-!
# The language of a grammar

One step of a derivation replaces a symbol that has a rule by one of the alternatives of that rule,
anywhere in the sentence. A sentence is finished when none of its symbols has a rule. The words of a
non-terminal are the finished sentences that steps lead to, without their empty terminals.

`Yields` reads a derivation symbol by symbol instead: every symbol of a sentence stands for a part
of the word, and the parts do not depend on each other. Both give the same words
(`mem_language_iff_yields`).
-/

namespace CodonGrammar

/-- A sentence without its empty terminals. -/
def visible (sentence : List Symbol) : List Symbol :=
  sentence.filter (· ≠ .terminal .empty)

@[simp] theorem visible_append (first second : List Symbol) :
    visible (first ++ second) = visible first ++ visible second :=
  List.filter_append ..

theorem visible_cons (symbol : Symbol) (rest : List Symbol) :
    visible (symbol :: rest) = visible [symbol] ++ visible rest :=
  visible_append [symbol] rest

@[simp] theorem visible_empty : visible [.terminal .empty] = [] := by
  simp [visible]

@[simp] theorem visible_nonTerminal (symbol : NonTerminal) :
    visible [.nonTerminal symbol] = [.nonTerminal symbol] := by
  simp [visible]

namespace Grammar

variable (grammar : Grammar)

/-- One symbol is replaced by an alternative of its rule. -/
inductive Rewrites : List Symbol → List Symbol → Prop where
  | expand (before after : List Symbol) {symbol : Symbol} {rule : Rule}
      {alternative : Expression} :
      grammar.expansionOf? symbol = some rule → alternative ∈ rule.alternatives →
      Rewrites (before ++ symbol :: after) (before ++ (alternative.symbols ++ after))

/-- One sentence is derived from another in any number of steps. -/
abbrev Derives : List Symbol → List Symbol → Prop :=
  Relation.ReflTransGen grammar.Rewrites

/-- No symbol of the sentence has a rule. -/
def Finished (sentence : List Symbol) : Prop :=
  ∀ symbol ∈ sentence, grammar.expansionOf? symbol = none

instance (sentence : List Symbol) : Decidable (grammar.Finished sentence) :=
  inferInstanceAs (Decidable (∀ symbol ∈ sentence, grammar.expansionOf? symbol = none))

/-- The words of a non-terminal. -/
def language (start : NonTerminal) : Set (List Symbol) :=
  {word | ∃ sentence, grammar.Derives [.nonTerminal start] sentence ∧
    grammar.Finished sentence ∧ visible sentence = word}

/-- The symbols of a sentence stand for the parts of a word. -/
inductive Yields : List Symbol → List Symbol → Prop where
  | nil : Yields [] []
  | keep {symbol : Symbol} {rest word : List Symbol} :
      grammar.expansionOf? symbol = none → Yields rest word →
      Yields (symbol :: rest) (visible [symbol] ++ word)
  | expand {symbol : Symbol} {rule : Rule} {alternative : Expression}
      {rest first others : List Symbol} :
      grammar.expansionOf? symbol = some rule → alternative ∈ rule.alternatives →
      Yields alternative.symbols first → Yields rest others →
      Yields (symbol :: rest) (first ++ others)

variable {grammar}

/-! ## Steps inside a longer sentence -/

theorem Rewrites.append_left (front : List Symbol) {sentence next : List Symbol}
    (h : grammar.Rewrites sentence next) :
    grammar.Rewrites (front ++ sentence) (front ++ next) := by
  obtain ⟨before, after, hRule, hAlternative⟩ := h
  have hStep := Rewrites.expand (front ++ before) after hRule hAlternative
  simpa only [List.append_assoc] using hStep

theorem Rewrites.append_right (back : List Symbol) {sentence next : List Symbol}
    (h : grammar.Rewrites sentence next) :
    grammar.Rewrites (sentence ++ back) (next ++ back) := by
  obtain ⟨before, after, hRule, hAlternative⟩ := h
  have hStep := Rewrites.expand before (after ++ back) hRule hAlternative
  simpa only [List.append_assoc, List.cons_append] using hStep

theorem Derives.append {first first' second second' : List Symbol}
    (hFirst : grammar.Derives first first') (hSecond : grammar.Derives second second') :
    grammar.Derives (first ++ second) (first' ++ second') := by
  have hLeft : grammar.Derives (first ++ second) (first' ++ second) :=
    Relation.ReflTransGen.lift (· ++ second) (fun _ _ => Rewrites.append_right second) _ _ hFirst
  have hRight : grammar.Derives (first' ++ second) (first' ++ second') :=
    Relation.ReflTransGen.lift (first' ++ ·) (fun _ _ => Rewrites.append_left first') _ _ hSecond
  exact hLeft.trans hRight

theorem Finished.append {first second : List Symbol} (hFirst : grammar.Finished first)
    (hSecond : grammar.Finished second) : grammar.Finished (first ++ second) :=
  List.forall_mem_append.mpr ⟨hFirst, hSecond⟩

/-! ## Parts of a word -/

theorem Yields.append {first second word others : List Symbol}
    (hFirst : grammar.Yields first word) (hSecond : grammar.Yields second others) :
    grammar.Yields (first ++ second) (word ++ others) := by
  induction hFirst with
  | nil => exact hSecond
  | keep hNone _ ih =>
    rw [List.cons_append, List.append_assoc]
    exact .keep hNone ih
  | expand hRule hAlternative hYields _ _ ih =>
    rw [List.cons_append, List.append_assoc]
    exact .expand hRule hAlternative hYields ih

theorem Yields.split {first second word : List Symbol}
    (h : grammar.Yields (first ++ second) word) :
    ∃ front back, word = front ++ back ∧ grammar.Yields first front ∧
      grammar.Yields second back := by
  induction first generalizing word with
  | nil => exact ⟨[], word, rfl, .nil, h⟩
  | cons symbol first ih =>
    cases h with
    | keep hNone hRest =>
      obtain ⟨front, back, rfl, hFront, hBack⟩ := ih hRest
      exact ⟨_, back, (List.append_assoc ..).symm, .keep hNone hFront, hBack⟩
    | expand hRule hAlternative hYields hRest =>
      obtain ⟨front, back, rfl, hFront, hBack⟩ := ih hRest
      exact ⟨_, back, (List.append_assoc ..).symm, .expand hRule hAlternative hYields hFront,
        hBack⟩

theorem Yields.single {symbol : Symbol} (hNone : grammar.expansionOf? symbol = none) :
    grammar.Yields [symbol] (visible [symbol]) := by
  have hKeep := Yields.keep hNone .nil
  rwa [List.append_nil] at hKeep

theorem Yields.ofChoice {head : NonTerminal} {rule : Rule}
    (hRule : grammar.ruleFor? head = some rule) {symbols word : List Symbol}
    (hSymbols : symbols ∈ rule.alternatives.map Expression.symbols)
    (h : grammar.Yields symbols word) : grammar.Yields [.nonTerminal head] word := by
  obtain ⟨alternative, hAlternative, rfl⟩ := List.mem_map.mp hSymbols
  have hExpand : grammar.expansionOf? (.nonTerminal head) = some rule := hRule
  simpa using Yields.expand hExpand hAlternative h .nil

theorem yields_empty : grammar.Yields [.terminal .empty] [] := by
  have hSingle : grammar.Yields [.terminal .empty] (visible [.terminal .empty]) := .single rfl
  rwa [visible_empty] at hSingle

theorem Finished.yields {sentence : List Symbol} (h : grammar.Finished sentence) :
    grammar.Yields sentence (visible sentence) := by
  induction sentence with
  | nil => exact .nil
  | cons symbol rest ih =>
    obtain ⟨hSymbol, hRest⟩ := List.forall_mem_cons.mp h
    rw [visible_cons]
    exact .keep hSymbol (ih hRest)

/-- What the sentence after a step yields, the sentence before it yields too. -/
theorem Rewrites.yields {sentence next word : List Symbol} (hStep : grammar.Rewrites sentence next)
    (h : grammar.Yields next word) : grammar.Yields sentence word := by
  obtain ⟨before, after, hRule, hAlternative⟩ := hStep
  obtain ⟨front, rest, rfl, hFront, hRest⟩ := h.split
  obtain ⟨middle, back, rfl, hMiddle, hBack⟩ := hRest.split
  exact hFront.append (.expand hRule hAlternative hMiddle hBack)

theorem Derives.yields {sentence last : List Symbol} (h : grammar.Derives sentence last)
    (hLast : grammar.Finished last) : grammar.Yields sentence (visible last) := by
  induction h using Relation.ReflTransGen.head_induction_on with
  | refl => exact hLast.yields
  | head hStep _ ih => exact hStep.yields ih

theorem Yields.exists_derives {sentence word : List Symbol} (h : grammar.Yields sentence word) :
    ∃ last, grammar.Derives sentence last ∧ grammar.Finished last ∧ visible last = word := by
  induction h with
  | nil => exact ⟨[], .refl, by simp [Finished], rfl⟩
  | @keep symbol rest word hNone _ ih =>
    obtain ⟨last, hDerives, hFinished, rfl⟩ := ih
    have hWhole : grammar.Derives ([symbol] ++ rest) ([symbol] ++ last) :=
      Derives.append .refl hDerives
    exact ⟨symbol :: last, hWhole, List.forall_mem_cons.mpr ⟨hNone, hFinished⟩,
      visible_cons symbol last⟩
  | @expand symbol rule alternative rest first others hRule hAlternative _ _ ihFirst ihOthers =>
    obtain ⟨front, hFront, hFinishedFront, rfl⟩ := ihFirst
    obtain ⟨back, hBack, hFinishedBack, rfl⟩ := ihOthers
    have hStep : grammar.Rewrites (symbol :: rest) (alternative.symbols ++ rest) :=
      .expand [] rest hRule hAlternative
    exact ⟨front ++ back, .head hStep (hFront.append hBack), hFinishedFront.append hFinishedBack,
      visible_append front back⟩

theorem mem_language_iff_yields {start : NonTerminal} {word : List Symbol} :
    word ∈ grammar.language start ↔ grammar.Yields [.nonTerminal start] word := by
  constructor
  · rintro ⟨sentence, hDerives, hFinished, rfl⟩
    exact hDerives.yields hFinished
  · exact Yields.exists_derives

end Grammar

end CodonGrammar
