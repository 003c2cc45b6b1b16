import CodonGrammar.Bnf.Lowering
import CodonGrammar.Proofs.Bnf.TokenGrammar
import Mathlib.Data.Finset.Card
import Mathlib.Data.List.Forall2
import Mathlib.Order.Interval.Finset.Nat

/-!
# What lowering does to a tree

`Lowers` says which rules without brackets belong to a tree, with the names of the new non-terminals
left open. A word becomes its terminal, a non-terminal stays itself, and a group becomes the head of
a rule of its own. The list of added rules has the rule of a group behind those of the groups inside
it, and the rules of one element before those of the next: this is the order in which the groups
close (`closers_outline`).

The rest of the file shows that lowering makes such rules (`Outline.lower_lowersTo`). A fresh number
always exists, because among one candidate more than there are names one is free, and so the heads
of the added rules are distinct and none of them is a name of the source.
-/

namespace CodonGrammar.Bnf

/-! ## Fresh names -/

theorem auxiliaryName_injective (head : NonTerminal) (bracket : Bracket) {first second : Nat}
    (h : auxiliaryName head bracket first = auxiliaryName head bracket second) :
    first = second := by
  have hDigits : Nat.toDigits 10 first = Nat.toDigits 10 second := by
    have hChars := congrArg String.toList h
    simpa [auxiliaryName] using hChars
  have hValue := congrArg (Nat.ofDigitChars 10 · 0) hDigits
  simpa using hValue

/-- Of numbers in a row no more have names that are taken than there are names. -/
theorem le_card_of_taken {head : NonTerminal} {bracket : Bracket} {counter count : Nat}
    {names : Finset String}
    (h : ∀ number, counter < number → number ≤ counter + count →
      auxiliaryName head bracket number ∈ names) : count ≤ names.card := by
  have hCard : (Finset.Ioc counter (counter + count)).card ≤ names.card := by
    refine Finset.card_le_card_of_injOn (auxiliaryName head bracket) ?_ ?_
    · intro number hMem
      obtain ⟨hAbove, hBelow⟩ := Finset.mem_Ioc.mp hMem
      exact h number hAbove hBelow
    · exact fun _ _ _ _ => auxiliaryName_injective head bracket
  rwa [Nat.card_Ioc, Nat.add_sub_cancel_left] at hCard

/-- The fresh number is the least one above the counter whose name is not taken, and at most one
more than there are names lies in between. -/
theorem freshNumber_spec (names : List String) (head : NonTerminal) (bracket : Bracket)
    (counter : Nat) :
    counter < freshNumber names head bracket counter ∧
      freshNumber names head bracket counter ≤ counter + names.length + 1 ∧
      auxiliaryName head bracket (freshNumber names head bracket counter) ∉ names ∧
      ∀ number, counter < number → number < freshNumber names head bracket counter →
        auxiliaryName head bracket number ∈ names := by
  unfold freshNumber
  dsimp only
  cases hFind : (List.range' (counter + 1) names.length).find? fun number =>
      auxiliaryName head bracket number ∉ names with
  | some found =>
    obtain ⟨hFree, hRange, hLeast⟩ := List.find?_range'_eq_some.mp hFind
    rw [List.mem_range'_1] at hRange
    simp only [Option.getD_some]
    refine ⟨by omega, by omega, of_decide_eq_true hFree, ?_⟩
    intro number hAbove hBelow
    simpa using hLeast number (by omega) hBelow
  | none =>
    have hTaken : ∀ number, counter < number → number < counter + names.length + 1 →
        auxiliaryName head bracket number ∈ names := by
      intro number hAbove hBelow
      simpa using List.find?_range'_eq_none.mp hFind number (by omega) (by omega)
    simp only [Option.getD_none]
    refine ⟨by omega, by omega, ?_, hTaken⟩
    intro hLast
    -- All candidates would be taken, and they are one more than there are names.
    have hAll : ∀ number, counter < number → number ≤ counter + (names.length + 1) →
        auxiliaryName head bracket number ∈ names.toFinset := by
      intro number hAbove hBelow
      rw [List.mem_toFinset]
      rcases Nat.lt_or_ge number (counter + names.length + 1) with hBefore | hAfter
      · exact hTaken number hAbove hBefore
      · obtain rfl : number = counter + names.length + 1 := by omega
        exact hLast
    have hCard := (le_card_of_taken hAll).trans names.toFinset_card_le
    omega

/-! ## The rules of a tree -/

/-- The alternatives of the rule of a group, given those inside it and the symbol of the group. -/
def Bracket.choices : Bracket → Symbol → List (List Symbol) → List (List Symbol)
  | .optional, _, inside => inside ++ [[.terminal .empty]]
  | .zeroOrMore, again, inside => [.terminal .empty] :: inside.map (· ++ [again])
  | .oneOrMore, again, inside => inside ++ inside.map (· ++ [again])

/-- A choice is nothing, one of the alternatives inside, or one of them before the whole again. -/
theorem Bracket.mem_choices {bracket : Bracket} {again : Symbol} {inside : List (List Symbol)}
    {symbols : List Symbol} :
    symbols ∈ bracket.choices again inside ↔
      bracket ≠ .oneOrMore ∧ symbols = [.terminal .empty] ∨
        bracket ≠ .zeroOrMore ∧ symbols ∈ inside ∨
        bracket ≠ .optional ∧ ∃ once ∈ inside, symbols = once ++ [again] := by
  cases bracket <;> simp [choices, eq_comm, or_comm]

theorem Bracket.rule_choices (bracket : Bracket) (head : NonTerminal) (first : Expression)
    (others : List Expression) :
    (bracket.rule head first others).alternatives.map Expression.symbols
      = bracket.choices (.nonTerminal head) ((first :: others).map Expression.symbols) := by
  cases bracket <;> simp [Bracket.rule, Bracket.choices, Expression.snoc, Expression.single]

@[simp] theorem Bracket.head_rule (bracket : Bracket) (head : NonTerminal) (first : Expression)
    (others : List Expression) : (bracket.rule head first others).head = head := by
  cases bracket <;> rfl

mutual

/-- An element as a symbol, with the rules that its groups add. -/
inductive Element.Lowers : Element → Symbol → List Rule → Prop where
  | word (kind : WordKind) (text : Terminal) : Element.Lowers (.word kind text) (.terminal text) []
  | nonTerminal (symbol : NonTerminal) :
      Element.Lowers (.nonTerminal symbol) (.nonTerminal symbol) []
  | group {bracket : Bracket} {body : Alternatives} {inside : List (List Symbol)}
      {added : List Rule} {rule : Rule} :
      Alternatives.Lowers body inside added →
      rule.alternatives.map Expression.symbols
        = bracket.choices (.nonTerminal rule.head) inside →
      Element.Lowers (.group bracket body) (.nonTerminal rule.head) (added ++ [rule])

/-- A sequence as a list of symbols, with the rules that its groups add. -/
inductive Sequence.Lowers : Sequence → List Symbol → List Rule → Prop where
  | single {element : Element} {symbol : Symbol} {added : List Rule} :
      Element.Lowers element symbol added → Sequence.Lowers (.single element) [symbol] added
  | cons {element : Element} {rest : Sequence} {symbol : Symbol} {symbols : List Symbol}
      {first others : List Rule} :
      Element.Lowers element symbol first → Sequence.Lowers rest symbols others →
      Sequence.Lowers (.cons element rest) (symbol :: symbols) (first ++ others)

/-- Alternatives as lists of symbols, with the rules that their groups add. -/
inductive Alternatives.Lowers : Alternatives → List (List Symbol) → List Rule → Prop where
  | single {sequence : Sequence} {symbols : List Symbol} {added : List Rule} :
      Sequence.Lowers sequence symbols added →
      Alternatives.Lowers (.single sequence) [symbols] added
  | cons {sequence : Sequence} {rest : Alternatives} {symbols : List Symbol}
      {more : List (List Symbol)} {first others : List Rule} :
      Sequence.Lowers sequence symbols first → Alternatives.Lowers rest more others →
      Alternatives.Lowers (.cons sequence rest) (symbols :: more) (first ++ others)

end

/-- The rules of a source without brackets, and the rules that its groups add. -/
inductive RulesLower : List SourceRule → List Rule → List Rule → Prop where
  | nil : RulesLower [] [] []
  | cons {source : SourceRule} {rule : Rule} {rest : List SourceRule} {stated : List Rule}
      {first others : List Rule} :
      rule.head = source.head →
      source.alternatives.Lowers (rule.alternatives.map Expression.symbols) first →
      RulesLower rest stated others →
      RulesLower (source :: rest) (rule :: stated) (first ++ others)

/-! ## The non-terminals and the groups of a tree -/

mutual

/-- The non-terminals written in an element. -/
def Element.nonTerminals : Element → List NonTerminal
  | .word _ _ => []
  | .nonTerminal symbol => [symbol]
  | .group _ body => body.nonTerminals

/-- The non-terminals written in a sequence. -/
def Sequence.nonTerminals : Sequence → List NonTerminal
  | .single element => element.nonTerminals
  | .cons element rest => element.nonTerminals ++ rest.nonTerminals

/-- The non-terminals written in alternatives. -/
def Alternatives.nonTerminals : Alternatives → List NonTerminal
  | .single sequence => sequence.nonTerminals
  | .cons sequence rest => sequence.nonTerminals ++ rest.nonTerminals

end

/-- The non-terminals written in a source, as heads or inside rules. -/
def Outline.nonTerminals (outline : Outline) : List NonTerminal :=
  outline.rules.flatMap fun rule => rule.head :: rule.alternatives.nonTerminals

mutual

/-- The groups of an element, each after those inside it. -/
def Element.groups : Element → List (Bracket × Alternatives)
  | .word _ _ | .nonTerminal _ => []
  | .group bracket body => body.groups ++ [(bracket, body)]

/-- The groups of a sequence. -/
def Sequence.groups : Sequence → List (Bracket × Alternatives)
  | .single element => element.groups
  | .cons element rest => element.groups ++ rest.groups

/-- The groups of alternatives. -/
def Alternatives.groups : Alternatives → List (Bracket × Alternatives)
  | .single sequence => sequence.groups
  | .cons sequence rest => sequence.groups ++ rest.groups

end

/-- The groups of a source. -/
def Outline.groups (outline : Outline) : List (Bracket × Alternatives) :=
  outline.rules.flatMap fun rule => rule.alternatives.groups

/-- The rule of a group, with whatever names its own groups have. -/
def GroupRule (group : Bracket × Alternatives) (rule : Rule) : Prop :=
  ∃ inside added, group.2.Lowers inside added ∧
    rule.alternatives.map Expression.symbols = group.1.choices (.nonTerminal rule.head) inside

/-- The rules of a source: those it states and those its groups add, where every group has a rule of
its own with a name that the source does not use. -/
structure Outline.LowersTo (outline : Outline) (stated added : List Rule) : Prop where
  rules : RulesLower outline.rules stated added
  distinct : (added.map Rule.head).Nodup
  fresh : ∀ rule ∈ added, rule.head ∉ outline.nonTerminals

mutual

theorem Element.infix_signs : ∀ (element : Element) {symbol : NonTerminal},
    symbol ∈ element.nonTerminals → Sign.ofNonTerminal symbol <:+: element.signs
  | .word _ _, _, h => by cases h
  | .nonTerminal _, _, h => by
    obtain rfl := List.mem_singleton.mp h
    exact List.infix_rfl
  | .group bracket body, _, h =>
    ((body.infix_signs h).trans (List.prefix_append body.signs _).isInfix).trans
      (List.suffix_cons _ _).isInfix

theorem Sequence.infix_signs : ∀ (sequence : Sequence) {symbol : NonTerminal},
    symbol ∈ sequence.nonTerminals → Sign.ofNonTerminal symbol <:+: sequence.signs
  | .single element, _, h => element.infix_signs h
  | .cons element rest, _, h => by
    rcases List.mem_append.mp h with hFirst | hRest
    · exact (element.infix_signs hFirst).trans (List.prefix_append _ _).isInfix
    · exact (rest.infix_signs hRest).trans (List.suffix_append _ _).isInfix

theorem Alternatives.infix_signs : ∀ (alternatives : Alternatives) {symbol : NonTerminal},
    symbol ∈ alternatives.nonTerminals → Sign.ofNonTerminal symbol <:+: alternatives.signs
  | .single sequence, _, h => sequence.infix_signs h
  | .cons sequence rest, _, h => by
    rcases List.mem_append.mp h with hFirst | hRest
    · exact (sequence.infix_signs hFirst).trans (List.prefix_append _ _).isInfix
    · exact ((rest.infix_signs hRest).trans (List.suffix_cons _ _).isInfix).trans
        (List.suffix_append _ _).isInfix

end

theorem Outline.infix_signs {outline : Outline} {symbol : NonTerminal}
    (h : symbol ∈ outline.nonTerminals) : Sign.ofNonTerminal symbol <:+: outline.signs := by
  obtain ⟨rule, hRule, hSymbol⟩ := List.mem_flatMap.mp h
  have hInfix : Sign.ofNonTerminal symbol <:+: rule.signs := by
    rcases List.mem_cons.mp hSymbol with rfl | hBody
    · exact (List.prefix_append _ _).isInfix
    · exact ((rule.alternatives.infix_signs hBody).trans (List.suffix_cons _ _).isInfix).trans
        (List.suffix_append _ _).isInfix
  refine hInfix.trans ?_
  obtain ⟨before, after, hRules⟩ := List.append_of_mem hRule
  exact ⟨before.flatMap SourceRule.signs, after.flatMap SourceRule.signs, by simp [signs, hRules]⟩

theorem TokenList.mem_bracketedNamesOf_cons {token : Token} {rest : List Token} {name : String}
    (h : name ∈ bracketedNamesOf rest) : name ∈ bracketedNamesOf (token :: rest) := by
  obtain ⟨lexeme, position⟩ := token
  rw [bracketedNamesOf.eq_def]
  split
  · rename_i heq
    cases heq
    split
    · exact List.mem_cons_of_mem _ h
    · exact h
  · rename_i heq
    cases heq
    exact h
  · rename_i heq
    cases heq

/-- The names between angle brackets are those of the non-terminals among the tokens. -/
theorem TokenList.mem_bracketedNames_of_infix {list : TokenList} {symbol : NonTerminal}
    (h : Sign.ofNonTerminal symbol <:+: list.tokens.map Token.sign) :
    symbol.name ∈ list.bracketedNames := by
  rw [bracketedNames, List.mem_eraseDups]
  obtain ⟨before, after, hSigns⟩ := h
  rw [List.append_assoc] at hSigns
  obtain ⟨front, tokens, hTokens, -, hBack⟩ := List.map_eq_append_iff.mp hSigns.symm
  rw [hTokens]
  clear hTokens hSigns
  induction front with
  | nil =>
    obtain ⟨⟨lt, _⟩, tokens, rfl, hLt, hBack⟩ := List.map_eq_cons_iff.mp hBack
    obtain ⟨⟨name, _⟩, tokens, rfl, hName, hBack⟩ := List.map_eq_cons_iff.mp hBack
    obtain ⟨⟨gt, _⟩, tokens, rfl, hGt, hBack⟩ := List.map_eq_cons_iff.mp hBack
    obtain ⟨text, hText, hValue⟩ := Token.lexeme_of_sign_word hName
    obtain rfl := Token.lexeme_of_sign_mark hLt
    obtain rfl := Token.lexeme_of_sign_mark hGt
    cases hText
    simp [bracketedNamesOf, hValue]
  | cons token front ih => exact mem_bracketedNamesOf_cons ih

/-! ## The order in which groups close -/

/-- The bracket that a token closes. -/
def Kind.closed? : Kind → Option Bracket
  | .mark .rbracket => some .optional
  | .mark .rbrace => some .zeroOrMore
  | .mark .rparen => some .oneOrMore
  | _ => none

theorem Bracket.closed?_closing (bracket : Bracket) :
    bracket.closing.sign.kind.closed? = some bracket := by
  cases bracket <;> rfl

theorem Bracket.closed?_opening (bracket : Bracket) :
    bracket.opening.sign.kind.closed? = none := by
  cases bracket <;> rfl

mutual

theorem Element.closers : ∀ element : Element,
    element.signs.filterMap (·.kind.closed?) = element.groups.map Prod.fst
  | .word _ _ => rfl
  | .nonTerminal _ => rfl
  | .group bracket body => by
    simp [Element.signs, Element.groups, body.closers, bracket.closed?_closing,
      bracket.closed?_opening]

theorem Sequence.closers : ∀ sequence : Sequence,
    sequence.signs.filterMap (·.kind.closed?) = sequence.groups.map Prod.fst
  | .single element => element.closers
  | .cons element rest => by
    simp [Sequence.signs, Sequence.groups, element.closers, rest.closers]

theorem Alternatives.closers : ∀ alternatives : Alternatives,
    alternatives.signs.filterMap (·.kind.closed?) = alternatives.groups.map Prod.fst
  | .single sequence => sequence.closers
  | .cons sequence rest => by
    have hBar : Mark.bar.sign.kind.closed? = none := rfl
    simp [Alternatives.signs, Alternatives.groups, sequence.closers, rest.closers, hBar]

end

/-- The groups are listed in the order of their closing brackets. -/
theorem Outline.closers (outline : Outline) :
    outline.signs.filterMap (·.kind.closed?) = outline.groups.map Prod.fst := by
  have hRule : ∀ rule : SourceRule,
      rule.signs.filterMap (·.kind.closed?) = rule.alternatives.groups.map Prod.fst :=
    fun rule => rule.alternatives.closers
  simp [Outline.signs, Outline.groups, List.filterMap_flatMap, List.map_flatMap, hRule]

mutual

theorem Element.Lowers.groupRules : ∀ {element : Element} {symbol : Symbol} {added : List Rule},
    element.Lowers symbol added → List.Forall₂ GroupRule element.groups added
  | _, _, _, .word _ _ => .nil
  | _, _, _, .nonTerminal _ => .nil
  | _, _, _, .group hBody hRule =>
    List.rel_append hBody.groupRules (.cons ⟨_, _, hBody, hRule⟩ .nil)

theorem Sequence.Lowers.groupRules : ∀ {sequence : Sequence} {symbols : List Symbol}
    {added : List Rule}, sequence.Lowers symbols added →
    List.Forall₂ GroupRule sequence.groups added
  | _, _, _, .single hElement => hElement.groupRules
  | _, _, _, .cons hElement hRest => List.rel_append hElement.groupRules hRest.groupRules

theorem Alternatives.Lowers.groupRules : ∀ {alternatives : Alternatives}
    {inside : List (List Symbol)} {added : List Rule}, alternatives.Lowers inside added →
    List.Forall₂ GroupRule alternatives.groups added
  | _, _, _, .single hSequence => hSequence.groupRules
  | _, _, _, .cons hSequence hRest => List.rel_append hSequence.groupRules hRest.groupRules

end

theorem RulesLower.groupRules {rules : List SourceRule} {stated added : List Rule}
    (h : RulesLower rules stated added) :
    List.Forall₂ GroupRule (rules.flatMap fun rule => rule.alternatives.groups) added := by
  induction h with
  | nil => exact .nil
  | cons _ hFirst _ ih => exact List.rel_append hFirst.groupRules ih

/-! ## Lowering makes such rules -/

/-- One state follows another with some rules added, whose names are new and made from these
heads. -/
structure Lowering.Grows (heads : List NonTerminal) (state : Lowering) (added : List Rule)
    (next : Lowering) : Prop where
  added_eq : next.added = state.added ++ added
  names_eq : next.names = (added.map (·.head.name)).reverse ++ state.names
  fresh : ∀ rule ∈ added, rule.head.name ∉ state.names
  distinct : (added.map Rule.head).Nodup
  named : ∀ rule ∈ added, ∃ head ∈ heads, ∃ bracket number,
    rule.head.name = auxiliaryName head bracket number

namespace Lowering.Grows

variable {heads : List NonTerminal} {state next last : Lowering} {first others : List Rule}

theorem refl : Grows heads state [] state where
  added_eq := by simp
  names_eq := rfl
  fresh := by simp
  distinct := by simp
  named := by simp

theorem trans (hFirst : Grows heads state first next) (hOthers : Grows heads next others last) :
    Grows heads state (first ++ others) last where
  added_eq := by rw [hOthers.added_eq, hFirst.added_eq, List.append_assoc]
  names_eq := by
    rw [hOthers.names_eq, hFirst.names_eq, List.map_append, List.reverse_append,
      List.append_assoc]
  fresh := by
    intro rule hRule
    rcases List.mem_append.mp hRule with hRule | hRule
    · exact hFirst.fresh rule hRule
    · intro hTaken
      apply hOthers.fresh rule hRule
      rw [hFirst.names_eq]
      exact List.mem_append_right _ hTaken
  distinct := by
    rw [List.map_append]
    refine List.nodup_append.mpr ⟨hFirst.distinct, hOthers.distinct, ?_⟩
    intro symbol hSymbol other hOther hSame
    obtain ⟨rule, hRule, rfl⟩ := List.mem_map.mp hSymbol
    obtain ⟨later, hLater, rfl⟩ := List.mem_map.mp hOther
    -- The names taken before the later rule hold that of the earlier one.
    apply hOthers.fresh later hLater
    rw [hFirst.names_eq, ← hSame]
    apply List.mem_append_left
    rw [List.mem_reverse]
    exact List.mem_map_of_mem (f := fun rule : Rule => rule.head.name) hRule
  named := by
    intro rule hRule
    rcases List.mem_append.mp hRule with hRule | hRule
    · exact hFirst.named rule hRule
    · exact hOthers.named rule hRule

end Lowering.Grows

theorem Lowering.exists_addGroup {heads : List NonTerminal} (state : Lowering) {head : NonTerminal}
    (hHead : head ∈ heads) (bracket : Bracket) (alternatives : Expression × List Expression) :
    ∃ rule : Rule,
      rule.alternatives.map Expression.symbols = bracket.choices (.nonTerminal rule.head)
        ((alternatives.1 :: alternatives.2).map Expression.symbols) ∧
      (state.addGroup head bracket alternatives.1 alternatives.2).1 = .nonTerminal rule.head ∧
      state.Grows heads [rule]
        (state.addGroup head bracket alternatives.1 alternatives.2).2 := by
  obtain ⟨-, -, hFree, -⟩ := freshNumber_spec state.names head bracket state.counter
  refine ⟨bracket.rule (state.fresh head bracket).1 alternatives.1 alternatives.2, ?_, ?_, ?_⟩
  · rw [Bracket.rule_choices, Bracket.head_rule]
  · rw [Bracket.head_rule]
    rfl
  · constructor
    · rfl
    · simp only [List.map_cons, List.map_nil, Bracket.head_rule]
      rfl
    · intro rule hMember
      obtain rfl := List.mem_singleton.mp hMember
      rw [Bracket.head_rule]
      exact hFree
    · simp
    · intro rule hMember
      obtain rfl := List.mem_singleton.mp hMember
      exact ⟨head, hHead, bracket, _, by rw [Bracket.head_rule]; rfl⟩

section Lower

variable {heads : List NonTerminal} {head : NonTerminal}

mutual

theorem Element.exists_lower (hHead : head ∈ heads) :
    ∀ (element : Element) (state : Lowering),
    ∃ added, element.Lowers (element.lower head state).1 added ∧
      state.Grows heads added (element.lower head state).2
  | .word kind text, state => ⟨[], .word kind text, .refl⟩
  | .nonTerminal symbol, state => ⟨[], .nonTerminal symbol, .refl⟩
  | .group bracket body, state => by
    obtain ⟨inner, hInner, hGrows⟩ := body.exists_lower hHead state
    obtain ⟨rule, hChoices, hSymbol, hRule⟩ :=
      (body.lower head state).2.exists_addGroup hHead bracket (body.lower head state).1
    refine ⟨inner ++ [rule], ?_, hGrows.trans hRule⟩
    have hLowers := Element.Lowers.group hInner hChoices
    rw [← hSymbol] at hLowers
    exact hLowers

theorem Sequence.exists_lower (hHead : head ∈ heads) :
    ∀ (sequence : Sequence) (state : Lowering),
    ∃ added, sequence.Lowers (sequence.lower head state).1.symbols added ∧
      state.Grows heads added (sequence.lower head state).2
  | .single element, state => by
    obtain ⟨added, hLowers, hGrows⟩ := element.exists_lower hHead state
    exact ⟨added, .single hLowers, hGrows⟩
  | .cons element rest, state => by
    obtain ⟨first, hFirst, hGrows⟩ := element.exists_lower hHead state
    obtain ⟨others, hOthers, hMore⟩ := rest.exists_lower hHead (element.lower head state).2
    exact ⟨first ++ others, .cons hFirst hOthers, hGrows.trans hMore⟩

theorem Alternatives.exists_lower (hHead : head ∈ heads) :
    ∀ (alternatives : Alternatives) (state : Lowering),
    ∃ added, alternatives.Lowers (((alternatives.lower head state).1.1 ::
        (alternatives.lower head state).1.2).map Expression.symbols) added ∧
      state.Grows heads added (alternatives.lower head state).2
  | .single sequence, state => by
    obtain ⟨added, hLowers, hGrows⟩ := sequence.exists_lower hHead state
    exact ⟨added, .single hLowers, hGrows⟩
  | .cons sequence rest, state => by
    obtain ⟨first, hFirst, hGrows⟩ := sequence.exists_lower hHead state
    obtain ⟨others, hOthers, hMore⟩ := rest.exists_lower hHead (sequence.lower head state).2
    exact ⟨first ++ others, .cons hFirst hOthers, hGrows.trans hMore⟩

end

end Lower

theorem exists_lowerRules (heads : List NonTerminal) (rules : List SourceRule) (state : Lowering)
    (hHeads : ∀ rule ∈ rules, rule.head ∈ heads) :
    ∃ added, RulesLower rules (lowerRules rules state).1 added ∧
      state.Grows heads added (lowerRules rules state).2 := by
  induction rules generalizing state with
  | nil => exact ⟨[], .nil, .refl⟩
  | cons rule rest ih =>
    obtain ⟨first, hFirst, hGrows⟩ :=
      rule.alternatives.exists_lower (hHeads rule List.mem_cons_self) state
    obtain ⟨others, hOthers, hMore⟩ := ih (rule.lower state).2
      fun other hOther => hHeads other (List.mem_cons_of_mem _ hOther)
    exact ⟨first ++ others, .cons rfl hFirst hOthers, hGrows.trans hMore⟩

/-- Lowering an outline gives its rules, as long as the names passed hold all that it uses. -/
theorem Outline.lower_lowersTo (outline : Outline) (names : List String)
    (hNames : ∀ symbol ∈ outline.nonTerminals, symbol.name ∈ names) :
    outline.LowersTo (outline.lower names).stated (outline.lower names).added ∧
      ∀ rule ∈ (outline.lower names).added, ∃ head ∈ outline.rules.map SourceRule.head,
        ∃ bracket number, rule.head.name = auxiliaryName head bracket number := by
  obtain ⟨added, hRules, hGrows⟩ := exists_lowerRules (outline.rules.map SourceRule.head)
    outline.rules ⟨0, names, []⟩ (fun rule hRule => List.mem_map_of_mem hRule)
  have hAdded : (outline.lower names).added = added := hGrows.added_eq
  rw [hAdded]
  refine ⟨⟨hRules, hGrows.distinct, ?_⟩, hGrows.named⟩
  intro rule hRule hWritten
  exact hGrows.fresh rule hRule (hNames _ hWritten)

end CodonGrammar.Bnf
