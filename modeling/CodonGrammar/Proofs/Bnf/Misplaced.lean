import CodonGrammar.Proofs.Bnf.Acceptance
import CodonGrammar.Proofs.Bnf.Partition

/-!
# Where a source goes wrong

An error about a misplaced token points at the right place (`misplaced_of_parse`). Some sentence of
the token grammar begins with the tokens before it, and with those followed by what was expected.
With the misplaced token itself no sentence begins, with one exception: the head of a rule where the
rule before it cannot end is reported at its `<`, although the tokens up to its `>` could still be a
symbol of that rule.

Two facts about the reader carry this. Every state can be led to an outline
(`Outline.State.exists_outline`), so whatever has been read begins a sentence. And where the reader
stops, what follows the token it stops at plays no part: the reader looks ahead only for the head of
a rule, and does not stop inside of one (`Outline.Leads.redirect`).
-/

namespace CodonGrammar.Bnf

/-- Some grammar begins with tokens of these kinds. -/
def Viable (kinds : List Kind) : Prop := ∃ rest, Phrase.grammar.Derives (kinds ++ rest)

/-- A token of this kind is one that was expected. -/
def Expected.Names : Expected → Kind → Prop
  | mark expected, kind => kind = .mark expected
  | name, kind => kind = .word .name
  | symbol, kind => ∃ word, kind = .word word
  | closingQuote, _ => False

/-- A token of a kind. -/
def Kind.token : Kind → Token
  | mark m => ⟨.mark m, 0⟩
  | word kind => ⟨.word kind .empty, 0⟩
  | finish => ⟨.finish, 0⟩

@[simp] theorem Kind.kind_token (kind : Kind) : kind.token.kind = kind := by
  cases kind <;> rfl

theorem Kind.map_kind_token (kinds : List Kind) : (kinds.map token).map Token.kind = kinds := by
  rw [List.map_map]
  exact List.map_id'' kind_token kinds

/-- The kinds of the tokens with which a rule starts. -/
def ruleHead : List Kind := [.mark .lt, .word .name, .mark .gt, .mark .assign]

namespace Outline

/-! ## Every state can be led to an outline -/

theorem Body.exists_rule (body : Body) : ∃ rule : SourceRule, body.signs <+: rule.signs := by
  obtain ⟨head, outer, level⟩ := body
  -- A word makes the present sequence complete, so the innermost bracket can be closed.
  have hPush : ∀ outer level, Body.signs ⟨head, outer, level⟩
      <+: (Body.push ⟨head, outer, level⟩ (.word .name .empty)).signs := by
    intro outer level
    rw [signs_push]
    exact List.prefix_append _ _
  induction outer generalizing level with
  | nil =>
    obtain ⟨rule, hRule⟩ : ∃ rule, (Body.push ⟨head, [], level⟩ (.word .name .empty)).rule?
        = some rule := ⟨_, rfl⟩
    refine ⟨rule, ?_⟩
    rw [signs_rule? hRule]
    exact hPush [] level
  | cons entry outer ih =>
    obtain ⟨bracket, around⟩ := entry
    obtain ⟨next, hNext⟩ : ∃ next, (Body.push ⟨head, (bracket, around) :: outer, level⟩
        (.word .name .empty)).closeBracket? bracket.closing = some next ∧
          next.head = head ∧ next.outer = outer := by
      simp [closeBracket?, push, Level.push, Level.alternatives?, Level.sequence?]
    obtain ⟨hClosed, rfl, rfl⟩ := hNext
    obtain ⟨rule, hRule⟩ := ih next.level
    refine ⟨rule, (hPush _ level).trans (List.IsPrefix.trans ?_ hRule)⟩
    rw [signs_closeBracket? hClosed]
    exact List.prefix_append _ _

theorem Phase.exists_rule (phase : Phase) : ∃ rule : SourceRule, phase.signs <+: rule.signs := by
  have hShortest : ∀ head, ∃ rule : SourceRule,
      rule.signs = Sign.ofNonTerminal head ++ [Mark.assign.sign, ⟨.word .name, ""⟩] :=
    fun head => ⟨⟨head, .single (.single (.word .name .empty))⟩, rfl⟩
  have hUse : ∀ (body : Body) (symbol : NonTerminal) (signs : List Sign),
      signs <+: Sign.ofNonTerminal symbol →
        ∃ rule : SourceRule, body.signs ++ signs <+: rule.signs := by
    intro body symbol signs hSigns
    obtain ⟨rule, hRule⟩ := (body.push (.nonTerminal symbol)).exists_rule
    refine ⟨rule, List.IsPrefix.trans ?_ hRule⟩
    rw [Body.signs_push]
    exact (List.prefix_append_right_inj _).mpr hSigns
  cases phase with
  | start =>
    obtain ⟨rule, -⟩ := hShortest ⟨""⟩
    exact ⟨rule, List.nil_prefix⟩
  | headName =>
    obtain ⟨rule, hRule⟩ := hShortest ⟨""⟩
    exact ⟨rule, _, hRule.symm⟩
  | headClose head | headAssign head =>
    obtain ⟨rule, hRule⟩ := hShortest head
    exact ⟨rule, _, hRule.symm⟩
  | body body => exact body.exists_rule
  | useName body => exact hUse body ⟨""⟩ _ ⟨_, rfl⟩
  | useClose body symbol => exact hUse body symbol _ ⟨_, rfl⟩

/-- What has been read is the beginning of an outline. -/
theorem State.exists_outline (state : State) :
    ∃ outline : Outline, state.signs <+: outline.signs := by
  obtain ⟨rule, hRule⟩ := state.phase.exists_rule
  refine ⟨⟨state.rules.reverse ++ [rule], by simp⟩, ?_⟩
  simpa [Outline.signs, signs] using hRule

theorem State.viable (state : State) : Viable (state.signs.map Sign.kind) := by
  obtain ⟨outline, rest, hSigns⟩ := state.exists_outline
  refine ⟨rest.map Sign.kind, ?_⟩
  rw [← List.map_append, hSigns]
  exact outline.derives

/-! ## Where the reader stops -/

theorem opensRule_iff {tokens : List Token} :
    opensRule tokens = true ↔ (tokens.take 4).map Token.kind = ruleHead := by
  constructor
  · intro h
    unfold opensRule at h
    split at h
    · rfl
    · cases h
  · intro h
    obtain ⟨lt, rest, hTake, hLt, h⟩ := List.map_eq_cons_iff.mp h
    obtain ⟨name, rest, rfl, hName, h⟩ := List.map_eq_cons_iff.mp h
    obtain ⟨gt, rest, rfl, hGt, h⟩ := List.map_eq_cons_iff.mp h
    obtain ⟨assign, rfl, hAssign⟩ := List.map_eq_singleton_iff.mp h
    obtain ⟨text, hText⟩ := Token.lexeme_of_kind_word hName
    rw [← List.take_append_drop 4 tokens, hTake]
    exact opensRule_eq_true (Token.lexeme_of_kind_mark hLt) hText (Token.lexeme_of_kind_mark hGt)
      (Token.lexeme_of_kind_mark hAssign)

/-- What follows the head of a rule does not matter. -/
theorem opensRule_append {tokens : List Token} (h : opensRule tokens = true)
    (others : List Token) : opensRule (tokens.take 4 ++ others) = true := by
  rw [opensRule_iff] at h ⊢
  have hLength : (tokens.take 4).length = 4 := by simpa [ruleHead] using congrArg List.length h
  rwa [List.take_left' hLength]

namespace State

/-- A token that was expected fits. -/
theorem exists_advance {state : State} {token : Token} (h : state.expected.Names token.kind) :
    ∃ opens next, state.advance opens token.lexeme = some next := by
  obtain ⟨rules, phase⟩ := state
  cases phase with
  | start | headClose | headAssign | useClose =>
    have hLexeme := Token.lexeme_of_kind_mark h
    exact ⟨false, _, by rw [hLexeme]; rfl⟩
  | headName | useName =>
    obtain ⟨text, hText⟩ := Token.lexeme_of_kind_word h
    exact ⟨false, _, by rw [hText]; rfl⟩
  | body body =>
    obtain ⟨head, outer, sequences, elements⟩ := body
    cases elements with
    | nil =>
      obtain ⟨kind, hKind⟩ := h
      obtain ⟨text, hText⟩ := Token.lexeme_of_kind_word hKind
      exact ⟨false, _, by rw [hText]; rfl⟩
    | cons last before =>
      cases outer with
      | nil =>
        have hLexeme := Token.lexeme_of_kind_mark h
        exact ⟨false, _, by rw [hLexeme]; rfl⟩
      | cons entry outer =>
        have hLexeme := Token.lexeme_of_kind_mark h
        exact ⟨false, _, by rw [hLexeme]; exact advanceBody_closing rules false rfl rfl⟩

/-- Something that a token can be is expected. -/
theorem exists_names (state : State) : ∃ kind, state.expected.Names kind := by
  obtain ⟨rules, phase⟩ := state
  cases phase with
  | body body =>
    obtain ⟨head, outer, sequences, elements⟩ := body
    cases elements with
    | nil => exact ⟨.word .name, .name, rfl⟩
    | cons last before => cases outer <;> exact ⟨_, rfl⟩
  | _ => exact ⟨_, rfl⟩

theorem viable_names {state : State} {kind : Kind} (h : state.expected.Names kind) :
    Viable (state.signs.map Sign.kind ++ [kind]) := by
  rw [← kind.kind_token] at h
  obtain ⟨opens, next, hNext⟩ := exists_advance h
  have hViable := next.viable
  rw [signs_advance hNext, List.map_append] at hViable
  have hKind : kind.token.sign.kind = kind := kind.kind_token
  simpa [hKind] using hViable

/-- Only between the elements of a rule a `<` is looked ahead from. -/
theorem advance_congr {state : State} {lexeme : Lexeme}
    (h : (∀ body, state.phase ≠ .body body) ∨ lexeme ≠ .mark .lt) (first second : Bool) :
    state.advance first lexeme = state.advance second lexeme := by
  obtain ⟨rules, phase⟩ := state
  cases phase with
  | body body =>
    have hLexeme : lexeme ≠ .mark .lt := by
      rcases h with hPhase | hLexeme
      · exact absurd rfl (hPhase body)
      · exact hLexeme
    cases lexeme with
    | mark mark => cases mark <;> first | rfl | exact absurd rfl hLexeme
    | _ => rfl
  | _ =>
    cases lexeme with
    | mark mark => cases mark <;> rfl
    | word kind text => cases kind <;> rfl
    | finish => rfl

/-- A token that does not fit without looking ahead does not fit at all. -/
theorem advance_eq_none {state : State} {lexeme : Lexeme}
    (h : state.advance false lexeme = none) (opens : Bool) :
    state.advance opens lexeme = none := by
  obtain ⟨rules, phase⟩ := state
  rw [← h]
  refine advance_congr ?_ opens false
  by_cases hLexeme : lexeme = .mark .lt
  · left
    rintro body rfl
    rw [hLexeme] at h
    cases h
  · exact .inr hLexeme

/-- Only between the elements of a rule a token does not fit because of what follows. -/
theorem exists_body {state : State} {lexeme : Lexeme} (hStops : state.advance true lexeme = none)
    (hFits : state.advance false lexeme ≠ none) : ∃ body, state.phase = .body body := by
  refine Classical.byContradiction fun hNone => ?_
  have hPhase : ∀ body, state.phase ≠ .body body := not_exists.mp hNone
  exact hFits ((advance_congr (.inl hPhase) false true).trans hStops)

/-- Only this is accepted, whatever follows. -/
structure Awaits (state : State) (expected : Expected) : Prop where
  expects : state.expected = expected
  no_body : ∀ body, state.phase ≠ .body body

theorem Awaits.not_stops {state : State} {expected : Expected} (h : state.Awaits expected)
    {token : Token} (hNames : expected.Names token.kind) (opens : Bool) :
    state.advance opens token.lexeme ≠ none := by
  rw [← h.expects] at hNames
  obtain ⟨others, next, hNext⟩ := exists_advance hNames
  rw [advance_congr (.inl h.no_body) opens others, hNext]
  exact Option.some_ne_none next

/-- Behind a `<` only a name is accepted. -/
theorem awaits_name {state next : State} {opens : Bool}
    (h : state.advance opens (.mark .lt) = some next) : next.Awaits .name := by
  obtain ⟨rules, phase⟩ := state
  cases phase with
  | start =>
    cases h
    exact ⟨rfl, nofun⟩
  | body body =>
    cases opens with
    | false =>
      cases h
      exact ⟨rfl, nofun⟩
    | true =>
      obtain ⟨rule, -, rfl⟩ := Option.map_eq_some_iff.mp h
      exact ⟨rfl, nofun⟩
  | _ => cases h

/-- Behind this name only a `>` is accepted. -/
theorem Awaits.awaits_gt {state next : State} (h : state.Awaits .name) {opens : Bool}
    {lexeme : Lexeme} (hNext : state.advance opens lexeme = some next) :
    next.Awaits (.mark .gt) := by
  obtain ⟨rules, phase⟩ := state
  cases phase with
  | headName | useName =>
    cases lexeme with
    | word kind text =>
      cases kind <;> cases hNext
      exact ⟨rfl, nofun⟩
    | mark mark => cases mark <;> cases hNext
    | finish => cases hNext
  | body body => exact absurd rfl (h.no_body body)
  | _ => cases h.expects

end State

/-- The reader goes through some tokens from one state to another, with the given tokens behind
them. -/
inductive Leads (later : List Token) : State → List Token → State → Prop where
  | nil (state : State) : Leads later state [] state
  | cons {state next last : State} {token : Token} {earlier : List Token} :
      state.advance (opensRule (token :: (earlier ++ later))) token.lexeme = some next →
      Leads later next earlier last → Leads later state (token :: earlier) last

namespace Leads

variable {later earlier : List Token} {state last : State}

theorem readFrom_eq (h : Leads later state earlier last) (final : Token) :
    readFrom final state (earlier ++ later) = readFrom final last later := by
  induction h with
  | nil => rfl
  | cons hNext _ ih =>
    rw [← ih]
    exact readFrom_cons hNext

theorem signs_eq (h : Leads later state earlier last) :
    last.signs = state.signs ++ earlier.map Token.sign := by
  induction h with
  | nil => simp
  | cons hNext _ ih => rw [ih, State.signs_advance hNext, List.map_cons, List.append_assoc]; rfl

/-- The reader does not stop between a `<` and the `::=` that it sees from there. -/
theorem opensRule_redirect {lt token : Token} (hName : state.Awaits .name)
    (h : Leads (token :: later) state earlier last)
    (hStops : last.advance (opensRule (token :: later)) token.lexeme = none)
    (others : List Token) :
    opensRule (lt :: (earlier ++ token :: others))
      = opensRule (lt :: (earlier ++ token :: later)) := by
  rw [Bool.eq_iff_iff, opensRule_iff, opensRule_iff]
  cases h with
  | nil =>
    have hKind : token.kind ≠ .word .name := fun hKind => hName.not_stops hKind _ hStops
    simp [ruleHead, hKind]
  | cons hNext hRest =>
    have hGt := hName.awaits_gt hNext
    cases hRest with
    | nil =>
      have hKind : token.kind ≠ .mark .gt := fun hKind => hGt.not_stops hKind _ hStops
      simp [ruleHead, hKind]
    | @cons _ _ _ _ earlier => cases earlier <;> simp

/-- Where the reader stops, it has not looked at what follows. -/
theorem redirect {token : Token} (h : Leads (token :: later) state earlier last)
    (hStops : last.advance (opensRule (token :: later)) token.lexeme = none)
    (others : List Token) : Leads (token :: others) state earlier last := by
  induction h with
  | nil state => exact .nil state
  | @cons state next last read earlier hNext hRest ih =>
    refine .cons ?_ (ih hStops)
    by_cases hLt : read.lexeme = .mark .lt
    · have hName := State.awaits_name (hLt ▸ hNext)
      rwa [opensRule_redirect hName hRest hStops others]
    · rw [← hNext]
      exact State.advance_congr (.inr hLt) _ _

end Leads

/-- A reader that fails has stopped at the token of the error. -/
theorem exists_leads {final : Token} {tokens : List Token} {state : State} {expected : Expected}
    {actual : Token} (h : readFrom final state tokens = .error (.misplaced expected actual)) :
    ∃ earlier later last, tokens = earlier ++ later ∧ Leads later state earlier last ∧
      expected = last.expected ∧
      (later = [] ∧ actual = final ∨
        ∃ rest, later = actual :: rest ∧
          last.advance (opensRule (actual :: rest)) actual.lexeme = none) := by
  induction tokens generalizing state with
  | nil =>
    unfold readFrom at h
    split at h
    · cases h
    · cases h
      exact ⟨[], [], state, rfl, .nil state, rfl, .inl ⟨rfl, rfl⟩⟩
  | cons token rest ih =>
    unfold readFrom at h
    split at h
    · rename_i next hNext
      obtain ⟨earlier, later, last, rfl, hLeads, hExpected, hStops⟩ := ih h
      exact ⟨token :: earlier, later, last, rfl, .cons hNext hLeads, hExpected, hStops⟩
    · rename_i hStops
      cases h
      exact ⟨[], actual :: rest, state, rfl, .nil state, rfl, .inr ⟨rest, rfl, hStops⟩⟩

/-- Tokens that the reader fails on, whatever follows, begin no grammar. -/
theorem not_viable_of_fails {tokens : List Token}
    (h : ∀ others, ∃ error, readFrom ⟨.finish, 0⟩ .initial (tokens ++ others) = .error error) :
    ¬ Viable (tokens.map Token.kind) := by
  rintro ⟨rest, hDerives⟩
  rw [← Kind.map_kind_token rest, ← List.map_append, derives_iff_spelled] at hDerives
  obtain ⟨outline, hSigns⟩ := hDerives
  have hRead : ofTokens ⟨tokens ++ rest.map Kind.token, 0⟩ = .ok outline :=
    ofTokens_of_signs hSigns
  obtain ⟨error, hError⟩ := h (rest.map Kind.token)
  cases hRead.symm.trans hError

namespace Leads

variable {earlier rest : List Token} {token : Token} {last : State}

theorem map_kind_eq (h : Leads rest .initial earlier last) :
    last.signs.map Sign.kind = earlier.map Token.kind := by
  rw [h.signs_eq, State.initial, State.signs, Phase.signs]
  simp only [List.reverse_nil, List.flatMap_nil, List.nil_append, List.map_map]
  rfl

section Stops

variable (h : Leads (token :: rest) .initial earlier last)
  (hStops : last.advance (opensRule (token :: rest)) token.lexeme = none)

include h hStops

theorem fails {others : List Token}
    (hOthers : last.advance (opensRule (token :: others)) token.lexeme = none) :
    ∃ error, readFrom ⟨.finish, 0⟩ .initial (earlier ++ token :: others) = .error error := by
  rw [(h.redirect hStops others).readFrom_eq, readFrom, hOthers]
  exact ⟨_, rfl⟩

/-- Where the reader stops, no grammar begins with one more token, or there is the head of a rule,
and none begins with that. -/
theorem not_viable :
    ¬ Viable ((earlier ++ [token]).map Token.kind) ∨
      ((token :: rest).take 4).map Token.kind = ruleHead ∧
        Viable ((earlier ++ (token :: rest).take 3).map Token.kind) ∧
        ¬ Viable ((earlier ++ (token :: rest).take 4).map Token.kind) := by
  by_cases hAlone : last.advance false token.lexeme = none
  · refine .inl (not_viable_of_fails fun others => ?_)
    rw [List.append_assoc]
    exact h.fails hStops (State.advance_eq_none hAlone _)
  · have hOpens : opensRule (token :: rest) = true := by
      cases hOpens : opensRule (token :: rest) with
      | true => rfl
      | false => exact absurd (hOpens ▸ hStops) hAlone
    have hHead := opensRule_iff.mp hOpens
    refine .inr ⟨hHead, ?_, not_viable_of_fails fun others => ?_⟩
    · -- The tokens up to the `>` are read as a symbol of the rule.
      obtain ⟨body, hBody⟩ := State.exists_body (hOpens ▸ hStops) hAlone
      have hSymbol : ((token :: rest).take 3).map Token.kind
          = (Sign.ofNonTerminal ⟨""⟩).map Sign.kind := by
        have hTake := congrArg (List.take 3) hHead
        rwa [← List.map_take, List.take_take] at hTake
      have hViable := State.viable ⟨last.rules, .body (body.push (.nonTerminal ⟨""⟩))⟩
      rw [List.map_append, hSymbol, ← h.map_kind_eq, ← List.map_append, State.signs, hBody]
      simpa [State.signs, Phase.signs, Element.signs] using hViable
    · have hStill : opensRule (token :: (rest.take 3 ++ others)) = opensRule (token :: rest) :=
        (opensRule_append hOpens others).trans hOpens.symm
      rw [List.append_assoc]
      exact h.fails hStops (hStill ▸ hStops)

end Stops

end Leads

end Outline

/-! ## The error -/

/-- What an error at a place says about the kinds of the tokens. Some grammar begins with those
before the place, and with those followed by what was expected. None begins with one more of them,
or they end here and are no grammar, or the head of a rule stands here, and no grammar begins with
all of it, although its `<` could still start a symbol of the rule before it. -/
structure Blames (kinds : List Kind) (index : Nat) (expected : Expected) : Prop where
  before : Viable (kinds.take index)
  named : ∃ kind, expected.Names kind
  mended : ∀ kind, expected.Names kind → Viable (kinds.take index ++ [kind])
  broken :
    index < kinds.length ∧ ¬ Viable (kinds.take (index + 1)) ∨
      index = kinds.length ∧ ¬ Phrase.grammar.Derives kinds ∨
      (kinds.drop index).take 4 = ruleHead ∧ Viable (kinds.take (index + 3)) ∧
        ¬ Viable (kinds.take (index + 4))

theorem Outline.Leads.blames {earlier later : List Token} {last : State}
    (h : Leads later .initial earlier last)
    (hBroken : later = [] ∧ ¬ Phrase.grammar.Derives (earlier.map Token.kind) ∨
      ∃ token rest, later = token :: rest ∧
        last.advance (opensRule (token :: rest)) token.lexeme = none) :
    Blames ((earlier ++ later).map Token.kind) earlier.length last.expected := by
  have hTake : ∀ count, ((earlier ++ later).map Token.kind).take (earlier.length + count)
      = (earlier ++ later.take count).map Token.kind := by
    intro count
    rw [← List.map_take, List.take_length_add_append]
  have hBefore : ((earlier ++ later).map Token.kind).take earlier.length
      = last.signs.map Sign.kind := by
    rw [← List.map_take, List.take_left, h.map_kind_eq]
  refine ⟨?_, last.exists_names, ?_, ?_⟩
  · rw [hBefore]
    exact last.viable
  · intro kind hNames
    rw [hBefore]
    exact State.viable_names hNames
  · rw [hTake, hTake, hTake]
    rcases hBroken with ⟨rfl, hEnd⟩ | ⟨token, rest, rfl, hStops⟩
    · exact .inr (.inl ⟨by simp, by rwa [List.append_nil]⟩)
    · rcases h.not_viable hStops with hToken | ⟨hHead, hSymbol, hAssign⟩
      · exact .inl ⟨by simp, hToken⟩
      · refine .inr (.inr ⟨?_, hSymbol, hAssign⟩)
        rw [← List.map_drop, List.drop_left, ← List.map_take]
        exact hHead

/-- Positions strictly increase, so no token occurs twice. -/
theorem TokenList.index_unique {source : String} {list : TokenList}
    (hTokens : tokenize source = .ok list) {token : Token} {first second : Nat}
    (hFirst : list.toList[first]? = some token) (hSecond : list.toList[second]? = some token) :
    first = second := by
  have hOrder := ((scans_readAll [] source.toList).positions hTokens).2
  have hDistinct : (list.toList.map Token.position).Nodup := hOrder.imp Nat.ne_of_lt
  have hLess := (List.getElem?_eq_some_iff.mp hFirst).1
  rw [← List.length_map Token.position] at hLess
  refine (List.getElem?_inj hLess hDistinct).mp ?_
  rw [List.getElem?_map, List.getElem?_map, hFirst, hSecond]

theorem ofTokens_of_parse {source : String} {list : TokenList}
    (hTokens : tokenize source = .ok list) {expected : Expected} {actual : Token}
    (hParse : Grammar.parse source = .error (.misplaced expected actual)) :
    Outline.ofTokens list = .error (.misplaced expected actual) := by
  simp only [Grammar.parse, read, hTokens] at hParse
  cases hOutline : Outline.ofTokens list with
  | ok outline =>
    rw [hOutline] at hParse
    cases hParse
  | error error =>
    rw [hOutline] at hParse
    cases hParse
    rfl

/-- An error about a misplaced token is about a token at exactly one place, and it blames this
place. -/
theorem misplaced_of_parse {source : String} {list : TokenList}
    (hTokens : tokenize source = .ok list) {expected : Expected} {actual : Token}
    (hParse : Grammar.parse source = .error (.misplaced expected actual)) :
    ∃ index, list.toList[index]? = some actual ∧
      (∀ other, list.toList[other]? = some actual → other = index) ∧
      Blames (list.tokens.map Token.kind) index expected := by
  obtain ⟨earlier, later, last, hSplit, hLeads, rfl, hActual⟩ :=
    Outline.exists_leads (ofTokens_of_parse hTokens hParse)
  have hPlace : list.toList[earlier.length]? = some actual := by
    rw [TokenList.toList, hSplit]
    rcases hActual with ⟨rfl, rfl⟩ | ⟨rest, rfl, -⟩
    · simp
    · simp
  refine ⟨earlier.length, hPlace, ?_, ?_⟩
  · intro other hOther
    exact TokenList.index_unique hTokens hOther hPlace
  · rw [hSplit]
    refine hLeads.blames ?_
    rcases hActual with ⟨rfl, -⟩ | ⟨rest, rfl, hStops⟩
    · refine .inl ⟨rfl, fun hDerives => ?_⟩
      rw [List.append_nil] at hSplit
      rw [← hSplit] at hDerives
      obtain ⟨grammar, hGrammar⟩ := (parse_iff_derives hTokens).1.mpr hDerives
      cases hGrammar.symm.trans hParse
    · exact .inr ⟨actual, rest, rfl, hStops⟩

set_option maxRecDepth 10000 in
/-- Behind a bar a symbol is expected, and there is the head of a rule. -/
theorem misplaced_of_parse_ruleHead :
    ∃ list, tokenize "<a>::=x|<b>::=y" = .ok list ∧
      Grammar.parse "<a>::=x|<b>::=y" = .error (.misplaced .symbol ⟨.mark .lt, 8⟩) ∧
      ∃ index, list.toList[index]? = some ⟨.mark .lt, 8⟩ ∧
        (∀ other, list.toList[other]? = some ⟨.mark .lt, 8⟩ → other = index) ∧
        Blames (list.tokens.map Token.kind) index .symbol := by
  have hTokens : tokenize "<a>::=x|<b>::=y" = .ok ⟨[⟨.mark .lt, 0⟩,
      ⟨.word .name ⟨"a", by decide⟩, 1⟩, ⟨.mark .gt, 2⟩, ⟨.mark .assign, 3⟩,
      ⟨.word .name ⟨"x", by decide⟩, 6⟩, ⟨.mark .bar, 7⟩, ⟨.mark .lt, 8⟩,
      ⟨.word .name ⟨"b", by decide⟩, 9⟩, ⟨.mark .gt, 10⟩, ⟨.mark .assign, 11⟩,
      ⟨.word .name ⟨"y", by decide⟩, 14⟩], 15⟩ := by
    cbv
  have hParse : Grammar.parse "<a>::=x|<b>::=y" = .error (.misplaced .symbol ⟨.mark .lt, 8⟩) := by
    rw [Grammar.parse, read, hTokens]
    rfl
  exact ⟨_, hTokens, hParse, misplaced_of_parse hTokens hParse⟩

end CodonGrammar.Bnf
