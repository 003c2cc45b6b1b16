import CodonGrammar.Bnf.Parse
import CodonGrammar.Proofs.Bnf.LoweredRules
import CodonGrammar.Proofs.Bnf.OutlineReading

/-!
# Which sources are grammars, and which grammars they are

A source that can be cut into tokens is accepted exactly when the kinds of its tokens are derivable
as a grammar. Then its tokens are the signs of exactly one outline, and the rules of the result are
those of the outline followed by those of its groups.
-/

namespace CodonGrammar.Bnf

theorem parse_eq_ok_iff {source : String} {list : TokenList} (h : tokenize source = .ok list)
    {grammar : Grammar} :
    Grammar.parse source = .ok grammar ↔
      ∃ outline : Outline, outline.signs = list.tokens.map Token.sign ∧
        (outline.lower list.bracketedNames).grammar = grammar := by
  simp only [Grammar.parse, read, h]
  constructor
  · intro hParse
    cases hRead : Outline.ofTokens list with
    | error error => simp [hRead, Except.map] at hParse
    | ok outline =>
      simp only [hRead, Except.map, Except.ok.injEq] at hParse
      exact ⟨outline, Outline.ofTokens_eq_ok_iff.mp hRead, hParse⟩
  · rintro ⟨outline, hSigns, rfl⟩
    simp [Outline.ofTokens_eq_ok_iff.mpr hSigns, Except.map]

theorem exists_tokenize_of_parse {source : String} {grammar : Grammar}
    (h : Grammar.parse source = .ok grammar) : ∃ list, tokenize source = .ok list := by
  cases hTokens : tokenize source with
  | error error => simp [Grammar.parse, read, hTokens, Except.map] at h
  | ok list => exact ⟨list, rfl⟩

/-- The names between angle brackets hold those of all non-terminals of the outline. -/
theorem Outline.name_mem_bracketedNames {outline : Outline} {list : TokenList}
    (hSigns : outline.signs = list.tokens.map Token.sign) {symbol : NonTerminal}
    (h : symbol ∈ outline.nonTerminals) : symbol.name ∈ list.bracketedNames := by
  apply TokenList.mem_bracketedNames_of_infix
  rw [← hSigns]
  exact outline.infix_signs h

/-- A source is accepted exactly when its tokens are derivable. No tokens have two outlines, and the
result consists of the rules of the outline and of the rules of its groups, in the order in which
the groups close. -/
theorem parse_iff_derives {source : String} {list : TokenList} (h : tokenize source = .ok list) :
    ((∃ grammar, Grammar.parse source = .ok grammar) ↔
        Phrase.grammar.Derives (list.tokens.map Token.kind)) ∧
      (∀ (tokens : List Token) (first second : Outline),
        first.signs = tokens.map Token.sign → second.signs = tokens.map Token.sign →
          first = second) ∧
      ∀ grammar, Grammar.parse source = .ok grammar →
        ∃ (outline : Outline) (stated added : List Rule),
          outline.signs = list.tokens.map Token.sign ∧
          outline.LowersTo stated added ∧
          grammar.rules = stated ++ added ∧
          outline.groups.map Prod.fst
            = (list.tokens.map Token.kind).filterMap Kind.closed? ∧
          List.Forall₂ GroupRule outline.groups added := by
  refine ⟨?_, fun tokens first second => Outline.eq_of_signs_eq, ?_⟩
  · rw [derives_iff_spelled]
    constructor
    · rintro ⟨grammar, hParse⟩
      obtain ⟨outline, hSigns, -⟩ := (parse_eq_ok_iff h).mp hParse
      exact ⟨outline, hSigns⟩
    · rintro ⟨outline, hSigns⟩
      exact ⟨_, (parse_eq_ok_iff h).mpr ⟨outline, hSigns, rfl⟩⟩
  · intro grammar hParse
    obtain ⟨outline, hSigns, rfl⟩ := (parse_eq_ok_iff h).mp hParse
    have hLowers := (outline.lower_lowersTo list.bracketedNames
      fun symbol => outline.name_mem_bracketedNames hSigns).1
    refine ⟨outline, _, _, hSigns, hLowers, rfl, ?_, hLowers.rules.groupRules⟩
    rw [← outline.closers, hSigns, List.filterMap_map, List.filterMap_map]
    rfl

set_option maxRecDepth 10000 in
theorem parse_nested_groups :
    ∃ list grammar, tokenize "<a>::=[{x}]" = .ok list ∧
      Grammar.parse "<a>::=[{x}]" = .ok grammar ∧
      ∃ (outline : Outline) (stated added : List Rule), outline.LowersTo stated added ∧
        grammar.rules = stated ++ added ∧
        outline.groups.map Prod.fst = [.zeroOrMore, .optional] ∧
        List.Forall₂ GroupRule outline.groups added := by
  have hTokens : tokenize "<a>::=[{x}]" = .ok ⟨[⟨.mark .lt, 0⟩, ⟨.word .name ⟨"a", by decide⟩, 1⟩,
      ⟨.mark .gt, 2⟩, ⟨.mark .assign, 3⟩, ⟨.mark .lbracket, 6⟩, ⟨.mark .lbrace, 7⟩,
      ⟨.word .name ⟨"x", by decide⟩, 8⟩, ⟨.mark .rbrace, 9⟩, ⟨.mark .rbracket, 10⟩], 11⟩ := by
    cbv
  obtain ⟨hAccepts, -, hResult⟩ := parse_iff_derives hTokens
  have hInner : Phrase.element.Derives [.mark .lbrace, .word .name, .mark .rbrace] :=
    .group .zeroOrMore (.lastAlternative (.lastElement (.word .name)))
  have hDerives : Phrase.grammar.Derives [.mark .lt, .word .name, .mark .gt, .mark .assign,
      .mark .lbracket, .mark .lbrace, .word .name, .mark .rbrace, .mark .rbracket] :=
    .lastRule (.rule (.lastAlternative (.lastElement
      (.group .optional (.lastAlternative (.lastElement hInner))))))
  obtain ⟨grammar, hParse⟩ := hAccepts.mpr hDerives
  obtain ⟨outline, stated, added, -, hLowers, hRules, hGroups, hAdded⟩ := hResult grammar hParse
  exact ⟨_, grammar, hTokens, hParse, outline, stated, added, hLowers, hRules, hGroups, hAdded⟩

end CodonGrammar.Bnf
