import CodonGrammar.Proofs.Bnf.TokenGrammar

/-!
# Reading outlines

The reader of outlines goes from state to state, one token at a time. A state stands for the tokens
read so far, and `State.signs` writes their signs down: those of the finished rules, of the open
brackets and of the present level. One step adds the sign of its token (`State.signs_advance`), so a
reader that succeeds has read the signs of its outline (`signs_of_readFrom`).

Conversely the reader follows every tree. From a level that can go on, the tokens of an element end
with that element pushed on the level, whatever is open around it, provided that no `::=` comes
next: only then would a `<` before a name start the next rule. In a tree no `::=` ever follows an
element, so the reader returns the tree it is given.

Together the reader succeeds with an outline exactly when its signs are those of the tokens
(`ofTokens_eq_ok_iff`), and no two outlines have the signs of the same tokens
(`eq_of_signs_eq`).
-/

namespace CodonGrammar.Bnf

/-- The signs of a finished sequence, with the bar after it. -/
def Sequence.signsWithBar (sequence : Sequence) : List Sign := sequence.signs ++ [Mark.bar.sign]

theorem Sequence.signs_foldl (before : List Element) (last : Sequence) :
    (before.foldl (fun sequence element => .cons element sequence) last).signs
      = before.reverse.flatMap Element.signs ++ last.signs := by
  induction before generalizing last with
  | nil => simp
  | cons element before ih => simp [ih, Sequence.signs]

theorem Alternatives.signs_foldl (before : List Sequence) (last : Alternatives) :
    (before.foldl (fun alternatives sequence => .cons sequence alternatives) last).signs
      = before.reverse.flatMap Sequence.signsWithBar ++ last.signs := by
  induction before generalizing last with
  | nil => simp
  | cons sequence before ih => simp [ih, Alternatives.signs, Sequence.signsWithBar]

namespace Outline

/-! ## The tokens read so far -/

namespace Level

/-- The signs read on a level. -/
def signs (level : Level) : List Sign :=
  level.sequences.reverse.flatMap Sequence.signsWithBar
    ++ level.elements.reverse.flatMap Element.signs

@[simp] theorem signs_empty : empty.signs = [] := rfl

@[simp] theorem signs_push (level : Level) (element : Element) :
    (level.push element).signs = level.signs ++ element.signs := by
  simp [push, signs]

theorem signs_sequence? {level : Level} {sequence : Sequence}
    (h : level.sequence? = some sequence) :
    level.signs = level.sequences.reverse.flatMap Sequence.signsWithBar ++ sequence.signs := by
  obtain ⟨sequences, elements⟩ := level
  cases elements with
  | nil => cases h
  | cons last before =>
    cases h
    simp [signs, Sequence.ofReversed, Sequence.signs_foldl, Sequence.signs]

theorem signs_alternatives? {level : Level} {alternatives : Alternatives}
    (h : level.alternatives? = some alternatives) : alternatives.signs = level.signs := by
  obtain ⟨sequence, hSequence, rfl⟩ := Option.map_eq_some_iff.mp h
  rw [signs_sequence? hSequence, Alternatives.ofReversed, Alternatives.signs_foldl]
  rfl

theorem signs_nextSequence? {level next : Level} (h : level.nextSequence? = some next) :
    next.signs = level.signs ++ [Mark.bar.sign] := by
  obtain ⟨sequence, hSequence, rfl⟩ := Option.map_eq_some_iff.mp h
  rw [signs_sequence? hSequence]
  simp [signs, Sequence.signsWithBar]

end Level

namespace Body

/-- The signs of an open bracket, with those of the level around it. -/
def openSigns (entry : Bracket × Level) : List Sign :=
  entry.2.signs ++ [entry.1.opening.sign]

/-- The signs read of a rule. -/
def signs (body : Body) : List Sign :=
  Sign.ofNonTerminal body.head ++ Mark.assign.sign ::
    (body.outer.reverse.flatMap openSigns ++ body.level.signs)

@[simp] theorem signs_push (body : Body) (element : Element) :
    (body.push element).signs = body.signs ++ element.signs := by
  simp [push, signs]

@[simp] theorem signs_openBracket (body : Body) (bracket : Bracket) :
    (body.openBracket bracket).signs = body.signs ++ [bracket.opening.sign] := by
  simp [openBracket, signs, openSigns]

theorem signs_closeBracket? {body next : Body} {mark : Mark}
    (h : body.closeBracket? mark = some next) : next.signs = body.signs ++ [mark.sign] := by
  obtain ⟨head, outer, level⟩ := body
  cases outer with
  | nil => cases h
  | cons entry outer =>
    obtain ⟨bracket, around⟩ := entry
    simp only [closeBracket?] at h
    split at h
    · rename_i hMark
      obtain ⟨inner, hInner, rfl⟩ := Option.map_eq_some_iff.mp h
      simp [signs, openSigns, Element.signs, Level.signs_alternatives? hInner, hMark]
    · cases h

theorem signs_nextSequence? {body next : Body} (h : body.nextSequence? = some next) :
    next.signs = body.signs ++ [Mark.bar.sign] := by
  obtain ⟨level, hLevel, rfl⟩ := Option.map_eq_some_iff.mp h
  simp [signs, Level.signs_nextSequence? hLevel]

theorem signs_rule? {body : Body} {rule : SourceRule} (h : body.rule? = some rule) :
    rule.signs = body.signs := by
  obtain ⟨head, outer, level⟩ := body
  cases outer with
  | nil =>
    obtain ⟨alternatives, hAlternatives, rfl⟩ := Option.map_eq_some_iff.mp h
    simp [SourceRule.signs, signs, Level.signs_alternatives? hAlternatives]
  | cons entry outer => cases h

end Body

/-- The signs read of the rule under way. -/
def Phase.signs : Phase → List Sign
  | .start => []
  | .headName => [Mark.lt.sign]
  | .headClose head => [Mark.lt.sign, ⟨.word .name, head.name⟩]
  | .headAssign head => Sign.ofNonTerminal head
  | .body underWay => underWay.signs
  | .useName underWay => underWay.signs ++ [Mark.lt.sign]
  | .useClose underWay symbol => underWay.signs ++ [Mark.lt.sign, ⟨.word .name, symbol.name⟩]

namespace State

/-- The signs of all tokens read. -/
def signs (state : State) : List Sign :=
  state.rules.reverse.flatMap SourceRule.signs ++ state.phase.signs

theorem signs_advanceBody {rules : List SourceRule} {body : Body} {opensRule : Bool}
    {token : Token} {next : State}
    (h : advanceBody rules body opensRule token.lexeme = some next) :
    next.signs = State.signs ⟨rules, .body body⟩ ++ [token.sign] := by
  unfold advanceBody at h
  split at h
  · rename_i kind text hLexeme
    cases h
    simp [signs, Phase.signs, Element.signs, Token.sign_of_lexeme_word hLexeme]
  · rename_i hLexeme
    obtain ⟨nextBody, hNext, rfl⟩ := Option.map_eq_some_iff.mp h
    simp [signs, Phase.signs, Body.signs_nextSequence? hNext, Token.sign_of_lexeme_mark hLexeme]
  · rename_i hLexeme
    rw [Token.sign_of_lexeme_mark hLexeme]
    split at h
    · obtain ⟨rule, hRule, rfl⟩ := Option.map_eq_some_iff.mp h
      simp [signs, Phase.signs, Body.signs_rule? hRule]
    · cases h
      simp [signs, Phase.signs]
  · rename_i mark _ _ hLexeme
    rw [Token.sign_of_lexeme_mark hLexeme]
    split at h
    · rename_i bracket hBracket
      cases h
      rw [Bracket.ofOpening?_eq_some_iff] at hBracket
      simp [signs, Phase.signs, hBracket]
    · obtain ⟨nextBody, hNext, rfl⟩ := Option.map_eq_some_iff.mp h
      simp [signs, Phase.signs, Body.signs_closeBracket? hNext]
  · cases h

/-- One step reads one token. -/
theorem signs_advance {state next : State} {opensRule : Bool} {token : Token}
    (h : state.advance opensRule token.lexeme = some next) :
    next.signs = state.signs ++ [token.sign] := by
  obtain ⟨rules, phase⟩ := state
  unfold advance at h
  split at h
  · rename_i hPhase hLexeme
    cases h
    cases hPhase
    simp [signs, Phase.signs, Token.sign_of_lexeme_mark hLexeme]
  · rename_i text hPhase hLexeme
    cases h
    cases hPhase
    simp [signs, Phase.signs, Token.sign_of_lexeme_word hLexeme]
  · rename_i head hPhase hLexeme
    cases h
    cases hPhase
    simp [signs, Phase.signs, Sign.ofNonTerminal, Token.sign_of_lexeme_mark hLexeme]
  · rename_i head hPhase hLexeme
    cases h
    cases hPhase
    simp [signs, Phase.signs, Body.signs, Token.sign_of_lexeme_mark hLexeme]
  · rename_i body hPhase
    cases hPhase
    exact signs_advanceBody h
  · rename_i body text hPhase hLexeme
    cases h
    cases hPhase
    simp [signs, Phase.signs, Token.sign_of_lexeme_word hLexeme]
  · rename_i body symbol hPhase hLexeme
    cases h
    cases hPhase
    simp [signs, Phase.signs, Element.signs, Sign.ofNonTerminal,
      Token.sign_of_lexeme_mark hLexeme]
  · cases h

theorem signs_outline? {state : State} {outline : Outline} (h : state.outline? = some outline) :
    outline.signs = state.signs := by
  obtain ⟨rules, phase⟩ := state
  cases phase with
  | body body =>
    obtain ⟨rule, hRule, rfl⟩ := Option.map_eq_some_iff.mp h
    simp [Outline.signs, signs, Phase.signs, Body.signs_rule? hRule]
  | _ => cases h

end State

/-- A successful reader has read the signs of its outline. -/
theorem signs_of_readFrom {final : Token} {tokens : List Token} {state : State}
    {outline : Outline} (h : readFrom final state tokens = .ok outline) :
    outline.signs = state.signs ++ tokens.map Token.sign := by
  induction tokens generalizing state with
  | nil =>
    unfold readFrom at h
    split at h
    · rename_i found hOutline
      cases h
      simp [State.signs_outline? hOutline]
    · cases h
  | cons token rest ih =>
    unfold readFrom at h
    split at h
    · rename_i next hNext
      rw [ih h, State.signs_advance hNext]
      simp
    · cases h

/-! ## Following a tree -/

/-- A `::=` comes next. -/
def AssignAhead : List Token → Prop
  | [] => False
  | token :: _ => token.lexeme = .mark .assign

theorem not_assignAhead_mark {token : Token} {mark : Mark} {rest : List Token}
    (h : token.sign = mark.sign) (hMark : mark ≠ .assign) : ¬ AssignAhead (token :: rest) := by
  intro hAhead
  rw [AssignAhead, Token.lexeme_of_sign_mark h] at hAhead
  cases hAhead
  exact hMark rfl

theorem not_assignAhead_of_signs {first : Sign} {signs : List Sign} {tokens : List Token}
    (h : tokens.map Token.sign = first :: signs) (hFirst : first.kind ≠ .mark .assign)
    (rest : List Token) :
    ¬ AssignAhead (tokens ++ rest) := by
  obtain ⟨token, others, rfl, hSign, -⟩ := List.map_eq_cons_iff.mp h
  intro hAhead
  apply hFirst
  rw [← hSign]
  exact congrArg Lexeme.kind hAhead

theorem exists_signs_element (element : Element) :
    ∃ first signs, element.signs = first :: signs ∧ first.kind ≠ .mark .assign := by
  cases element with
  | word kind text => exact ⟨_, _, rfl, by simp⟩
  | nonTerminal symbol => exact ⟨_, _, rfl, by simp [Mark.sign]⟩
  | group bracket body => exact ⟨_, _, rfl, by cases bracket <;> simp [Mark.sign, Bracket.opening]⟩

theorem exists_signs_sequence (sequence : Sequence) :
    ∃ first signs, sequence.signs = first :: signs ∧ first.kind ≠ .mark .assign := by
  cases sequence with
  | single element => exact exists_signs_element element
  | cons element rest =>
    obtain ⟨first, signs, hSigns, hFirst⟩ := exists_signs_element element
    exact ⟨first, signs ++ rest.signs, by simp [Sequence.signs, hSigns], hFirst⟩

theorem readFrom_cons {final token : Token} {rest : List Token} {state next : State}
    (h : state.advance (opensRule (token :: rest)) token.lexeme = some next) :
    readFrom final state (token :: rest) = readFrom final next rest := by
  rw [readFrom, h]

theorem opensRule_eq_false {lt name gt : Token} {rest : List Token}
    (hAhead : ¬ AssignAhead rest) : opensRule (lt :: name :: gt :: rest) = false := by
  unfold opensRule
  split
  · rename_i heq
    cases heq
    exact absurd rfl hAhead
  · rfl

section Following

variable (final : Token) (rules : List SourceRule)

theorem readFrom_nonTerminal (symbol : NonTerminal) (body : Body) {tokens rest : List Token}
    (hTokens : tokens.map Token.sign = Sign.ofNonTerminal symbol) (hAhead : ¬ AssignAhead rest) :
    readFrom final ⟨rules, .body body⟩ (tokens ++ rest)
      = readFrom final ⟨rules, .body (body.push (.nonTerminal symbol))⟩ rest := by
  obtain ⟨lt, tokens, rfl, hLt, hTokens⟩ := List.map_eq_cons_iff.mp hTokens
  obtain ⟨name, tokens, rfl, hName, hTokens⟩ := List.map_eq_cons_iff.mp hTokens
  obtain ⟨gt, rfl, hGt⟩ := List.map_eq_singleton_iff.mp hTokens
  obtain ⟨text, hText, hValue⟩ := Token.lexeme_of_sign_word hName
  have hLt' := Token.lexeme_of_sign_mark hLt
  have hGt' := Token.lexeme_of_sign_mark hGt
  have hOpens : opensRule (lt :: name :: gt :: rest) = false := opensRule_eq_false hAhead
  calc readFrom final ⟨rules, .body body⟩ (lt :: name :: gt :: rest)
      = readFrom final ⟨rules, .useName body⟩ (name :: gt :: rest) := by
        apply readFrom_cons
        simp [State.advance, State.advanceBody, hLt', hOpens]
    _ = readFrom final ⟨rules, .useClose body symbol⟩ (gt :: rest) := by
        apply readFrom_cons
        simp [State.advance, hText, hValue]
    _ = readFrom final ⟨rules, .body (body.push (.nonTerminal symbol))⟩ rest := by
        apply readFrom_cons
        simp [State.advance, hGt']

theorem advanceBody_opening (body : Body) (bracket : Bracket) (opens : Bool) :
    State.advanceBody rules body opens (.mark bracket.opening)
      = some ⟨rules, .body (body.openBracket bracket)⟩ := by
  cases bracket <;> rfl

theorem advanceBody_closing {body : Body} {bracket : Bracket} {around : Level}
    {outer : List (Bracket × Level)} {inner : Alternatives} (opens : Bool)
    (hOuter : body.outer = (bracket, around) :: outer)
    (hInner : body.level.alternatives? = some inner) :
    State.advanceBody rules body opens (.mark bracket.closing)
      = some ⟨rules, .body ⟨body.head, outer, around.push (.group bracket inner)⟩⟩ := by
  cases bracket <;>
    simp [State.advanceBody, Bracket.closing, Bracket.ofOpening?, Body.closeBracket?, hOuter,
      hInner]

mutual

/-- The tokens of an element end with the element on the present level. -/
theorem readFrom_element : ∀ (element : Element) (body : Body) (tokens rest : List Token),
    tokens.map Token.sign = element.signs → ¬ AssignAhead rest →
    readFrom final ⟨rules, .body body⟩ (tokens ++ rest)
      = readFrom final ⟨rules, .body (body.push element)⟩ rest
  | .word kind text, body, tokens, rest, hTokens, _ => by
    obtain ⟨token, rfl, hToken⟩ := List.map_eq_singleton_iff.mp hTokens
    obtain ⟨terminal, hLexeme, hText⟩ := Token.lexeme_of_sign_word hToken
    have hSame : terminal = text := Terminal.ext hText
    apply readFrom_cons
    simp [State.advance, State.advanceBody, hLexeme, hSame]
  | .nonTerminal symbol, body, tokens, rest, hTokens, hAhead =>
    readFrom_nonTerminal final rules symbol body hTokens hAhead
  | .group bracket inner, body, tokens, rest, hTokens, _ => by
    obtain ⟨opening, tokens, rfl, hOpening, hTokens⟩ := List.map_eq_cons_iff.mp hTokens
    obtain ⟨middle, tokens, rfl, hMiddle, hTokens⟩ := List.map_eq_append_iff.mp hTokens
    obtain ⟨closing, rfl, hClosing⟩ := List.map_eq_singleton_iff.mp hTokens
    have hAhead : ¬ AssignAhead (closing :: rest) :=
      not_assignAhead_mark hClosing (by cases bracket <;> simp [Bracket.closing])
    obtain ⟨level, hLevel, hRead⟩ :=
      readFrom_alternatives inner (body.openBracket bracket) middle (closing :: rest) rfl hMiddle
        hAhead
    calc readFrom final ⟨rules, .body body⟩ (opening :: (middle ++ [closing]) ++ rest)
        = readFrom final ⟨rules, .body (body.openBracket bracket)⟩
            (middle ++ closing :: rest) := by
          rw [List.cons_append, List.append_assoc, List.singleton_append]
          apply readFrom_cons
          simp only [State.advance, Token.lexeme_of_sign_mark hOpening, advanceBody_opening]
      _ = readFrom final ⟨rules, .body { body.openBracket bracket with level := level }⟩
            (closing :: rest) := hRead
      _ = readFrom final ⟨rules, .body (body.push (.group bracket inner))⟩ rest := by
          apply readFrom_cons
          simp only [State.advance, Token.lexeme_of_sign_mark hClosing]
          exact advanceBody_closing rules _ rfl hLevel

/-- The tokens of a sequence end with its elements after those of the present level. -/
theorem readFrom_sequence : ∀ (sequence : Sequence) (body : Body) (tokens rest : List Token),
    tokens.map Token.sign = sequence.signs → ¬ AssignAhead rest →
    ∃ level : Level, level.sequences = body.level.sequences ∧
      level.sequence? = some (body.level.elements.foldl (fun s e => .cons e s) sequence) ∧
      readFrom final ⟨rules, .body body⟩ (tokens ++ rest)
        = readFrom final ⟨rules, .body { body with level := level }⟩ rest
  | .single element, body, tokens, rest, hTokens, hAhead =>
    ⟨body.level.push element, rfl, rfl, readFrom_element element body tokens rest hTokens hAhead⟩
  | .cons element others, body, tokens, rest, hTokens, hAhead => by
    obtain ⟨front, back, rfl, hFront, hBack⟩ := List.map_eq_append_iff.mp hTokens
    obtain ⟨first, signs, hSigns, hFirst⟩ := exists_signs_sequence others
    have hBetween : ¬ AssignAhead (back ++ rest) :=
      not_assignAhead_of_signs (hBack.trans hSigns) hFirst rest
    obtain ⟨level, hSequences, hSequence, hRead⟩ :=
      readFrom_sequence others (body.push element) back rest hBack hAhead
    refine ⟨level, hSequences, hSequence, ?_⟩
    rw [List.append_assoc, readFrom_element element body front (back ++ rest) hFront hBetween]
    exact hRead

/-- The tokens of alternatives end with their sequences after those of the present level, which
must be at the beginning of a sequence. -/
theorem readFrom_alternatives :
    ∀ (alternatives : Alternatives) (body : Body) (tokens rest : List Token),
    body.level.elements = [] → tokens.map Token.sign = alternatives.signs → ¬ AssignAhead rest →
    ∃ level : Level,
      level.alternatives? = some (body.level.sequences.foldl (fun a s => .cons s a) alternatives) ∧
      readFrom final ⟨rules, .body body⟩ (tokens ++ rest)
        = readFrom final ⟨rules, .body { body with level := level }⟩ rest
  | .single sequence, body, tokens, rest, hEmpty, hTokens, hAhead => by
    obtain ⟨level, hSequences, hSequence, hRead⟩ :=
      readFrom_sequence sequence body tokens rest hTokens hAhead
    refine ⟨level, ?_, hRead⟩
    rw [Level.alternatives?, hSequence, hSequences, hEmpty]
    rfl
  | .cons sequence others, body, tokens, rest, hEmpty, hTokens, hAhead => by
    obtain ⟨front, tokens, rfl, hFront, hTokens⟩ := List.map_eq_append_iff.mp hTokens
    obtain ⟨bar, back, rfl, hBar, hBack⟩ := List.map_eq_cons_iff.mp hTokens
    have hBetween : ¬ AssignAhead (bar :: (back ++ rest)) := not_assignAhead_mark hBar (by simp)
    obtain ⟨level, hSequences, hSequence, hRead⟩ :=
      readFrom_sequence sequence body front (bar :: (back ++ rest)) hFront hBetween
    obtain ⟨last, hLast, hReadOthers⟩ := readFrom_alternatives others
      { body with level := ⟨sequence :: level.sequences, []⟩ } back rest rfl hBack hAhead
    refine ⟨last, ?_, ?_⟩
    · rw [hLast, hSequences]
      rfl
    · rw [List.append_assoc, List.cons_append, hRead, ← hReadOthers]
      apply readFrom_cons
      rw [hEmpty] at hSequence
      simp [State.advance, State.advanceBody, Token.lexeme_of_sign_mark hBar, Body.nextSequence?,
        Level.nextSequence?, hSequence]

end

theorem opensRule_eq_true {lt name gt assign : Token} {text : Terminal} {rest : List Token}
    (hLt : lt.lexeme = .mark .lt) (hName : name.lexeme = .word .name text)
    (hGt : gt.lexeme = .mark .gt) (hAssign : assign.lexeme = .mark .assign) :
    opensRule (lt :: name :: gt :: assign :: rest) = true := by
  obtain ⟨ltLexeme, _⟩ := lt
  obtain ⟨nameLexeme, _⟩ := name
  obtain ⟨gtLexeme, _⟩ := gt
  obtain ⟨assignLexeme, _⟩ := assign
  cases hLt
  cases hName
  cases hGt
  cases hAssign
  rfl

/-- The tokens of a rule start it from every state in which a rule may start, and end in a body that
can be finished as that rule. -/
theorem readFrom_rule (rule : SourceRule) {tokens rest : List Token}
    (hTokens : tokens.map Token.sign = rule.signs) (hAhead : ¬ AssignAhead rest) :
    ∃ body : Body, body.rule? = some rule ∧ ∀ state : State,
      state.advance true (.mark .lt) = some ⟨rules, .headName⟩ →
      readFrom final state (tokens ++ rest) = readFrom final ⟨rules, .body body⟩ rest := by
  obtain ⟨lt, tokens, rfl, hLt, hTokens⟩ := List.map_eq_cons_iff.mp hTokens
  obtain ⟨name, tokens, rfl, hName, hTokens⟩ := List.map_eq_cons_iff.mp hTokens
  obtain ⟨gt, tokens, rfl, hGt, hTokens⟩ := List.map_eq_cons_iff.mp hTokens
  obtain ⟨assign, tokens, rfl, hAssign, hTokens⟩ := List.map_eq_cons_iff.mp hTokens
  obtain ⟨text, hText, hValue⟩ := Token.lexeme_of_sign_word hName
  have hLt' := Token.lexeme_of_sign_mark hLt
  have hGt' := Token.lexeme_of_sign_mark hGt
  have hAssign' := Token.lexeme_of_sign_mark hAssign
  obtain ⟨level, hLevel, hRead⟩ := readFrom_alternatives final rules rule.alternatives
    ⟨rule.head, [], .empty⟩ tokens rest rfl hTokens hAhead
  refine ⟨⟨rule.head, [], level⟩, by simp [Body.rule?, hLevel, Level.empty], ?_⟩
  intro state hState
  calc readFrom final state (lt :: name :: gt :: assign :: (tokens ++ rest))
      = readFrom final ⟨rules, .headName⟩ (name :: gt :: assign :: (tokens ++ rest)) := by
        apply readFrom_cons
        rw [opensRule_eq_true hLt' hText hGt' hAssign', hLt', hState]
    _ = readFrom final ⟨rules, .headClose rule.head⟩ (gt :: assign :: (tokens ++ rest)) := by
        apply readFrom_cons
        simp [State.advance, hText, hValue]
    _ = readFrom final ⟨rules, .headAssign rule.head⟩ (assign :: (tokens ++ rest)) := by
        apply readFrom_cons
        simp [State.advance, hGt']
    _ = readFrom final ⟨rules, .body ⟨rule.head, [], .empty⟩⟩ (tokens ++ rest) := by
        apply readFrom_cons
        simp [State.advance, hAssign']
    _ = readFrom final ⟨rules, .body ⟨rule.head, [], level⟩⟩ rest := hRead

end Following

/-- No `::=` stands at the beginning of rules. -/
theorem not_assignAhead_of_rules {rules : List SourceRule} {tokens : List Token}
    (h : tokens.map Token.sign = rules.flatMap SourceRule.signs) : ¬ AssignAhead tokens := by
  cases rules with
  | nil =>
    obtain rfl := List.map_eq_nil_iff.mp h
    exact id
  | cons rule rest =>
    have hLt : tokens.map Token.sign = Mark.lt.sign :: (⟨.word .name, rule.head.name⟩ ::
        Mark.gt.sign :: Mark.assign.sign ::
          (rule.alternatives.signs ++ rest.flatMap SourceRule.signs)) := by
      simpa [SourceRule.signs, Sign.ofNonTerminal] using h
    simpa using not_assignAhead_of_signs hLt (by simp [Mark.sign]) []

/-- From a body that can be finished, the tokens of further rules are read as those rules. -/
theorem readFrom_moreRules (final : Token) :
    ∀ (more finished : List SourceRule) (body : Body) (rule : SourceRule) (tokens : List Token),
    body.rule? = some rule → tokens.map Token.sign = more.flatMap SourceRule.signs →
    ∃ outline : Outline, outline.rules = finished.reverse ++ rule :: more ∧
      readFrom final ⟨finished, .body body⟩ tokens = .ok outline := by
  intro more
  induction more with
  | nil =>
    intro finished body rule tokens hRule hTokens
    obtain rfl := List.map_eq_nil_iff.mp hTokens
    exact ⟨⟨(rule :: finished).reverse, by simp⟩, by simp,
      by simp [readFrom, State.outline?, hRule]⟩
  | cons next more ih =>
    intro finished body rule tokens hRule hTokens
    obtain ⟨front, back, rfl, hFront, hBack⟩ := List.map_eq_append_iff.mp hTokens
    obtain ⟨nextBody, hNext, hRead⟩ := readFrom_rule final (rule :: finished) next hFront
      (not_assignAhead_of_rules hBack)
    obtain ⟨outline, hRules, hOutline⟩ := ih (rule :: finished) nextBody next back hNext hBack
    refine ⟨outline, by simp [hRules], ?_⟩
    rw [hRead ⟨finished, .body body⟩ (by simp [State.advance, State.advanceBody, hRule]), hOutline]

theorem ofTokens_of_signs {list : TokenList} {outline : Outline}
    (h : outline.signs = list.tokens.map Token.sign) : ofTokens list = .ok outline := by
  obtain ⟨rules, hNonempty⟩ := outline
  cases rules with
  | nil => exact absurd rfl hNonempty
  | cons rule more =>
    obtain ⟨front, back, hTokens, hFront, hBack⟩ := List.map_eq_append_iff.mp h.symm
    obtain ⟨body, hRule, hRead⟩ := readFrom_rule list.finishToken [] rule hFront
      (not_assignAhead_of_rules hBack)
    obtain ⟨found, hRules, hFound⟩ :=
      readFrom_moreRules list.finishToken more [] body rule back hRule hBack
    obtain ⟨foundRules, _⟩ := found
    obtain rfl : foundRules = rule :: more := hRules
    rw [ofTokens, hTokens, hRead .initial rfl, hFound]

/-- The reader succeeds with an outline exactly when the tokens have its signs. -/
theorem ofTokens_eq_ok_iff {list : TokenList} {outline : Outline} :
    ofTokens list = .ok outline ↔ outline.signs = list.tokens.map Token.sign :=
  ⟨fun h => by simpa [State.signs, State.initial, Phase.signs] using signs_of_readFrom h,
    ofTokens_of_signs⟩

/-- Tokens have the signs of at most one outline. -/
theorem eq_of_signs_eq {first second : Outline} {tokens : List Token}
    (hFirst : first.signs = tokens.map Token.sign)
    (hSecond : second.signs = tokens.map Token.sign) : first = second := by
  have hRead := @ofTokens_of_signs ⟨tokens, 0⟩ first hFirst
  rw [@ofTokens_of_signs ⟨tokens, 0⟩ second hSecond] at hRead
  cases hRead
  rfl

end Outline

end CodonGrammar.Bnf
