import CodonGrammar.Proofs.Codec.Reading
import CodonGrammar.Proofs.Derivation.Reachability

/-!
# Choices by rule alone

A chooser may answer each rule with a place of its own, always the same one. Then it does not matter
which engine asks it: an engine finishes its sentence within the limit exactly when any other one
does, and then both have the same sentence after the same number of queries
(`Grammar.produce_confluent`).

With such a chooser a derivation is one in the grammar that keeps only the alternatives in these
places. There each symbol can be replaced in one way, so the steps that are left to a finished
sentence do not depend on the ones made so far: every derivation can be continued to this sentence,
and all take the same number of steps in the end (`Grammar.DerivesIn.remaining`).
-/

namespace CodonGrammar

variable {σ ε : Type}

/-! ## Grammars without a choice -/

namespace Grammar

/-- Every rule that is used has a single alternative. -/
def Determinate (grammar : Grammar) : Prop :=
  ∀ symbol rule, grammar.expansionOf? symbol = some rule →
    ∃ alternative, rule.alternatives = [alternative]

variable {grammar : Grammar} {count steps limit : Nat} {sentence next word : List Symbol}

/-- What is derived so far leads on to the finished sentence, in the steps that are left. The
induction is on the steps made so far: whatever symbol the first of them replaces, the finished
sentence may be derived by replacing it first. -/
theorem DerivesIn.remaining (hGrammar : grammar.Determinate)
    (hNext : grammar.DerivesIn steps sentence next) (hWord : grammar.DerivesIn count sentence word)
    (hFinished : grammar.Finished word) :
    ∃ rest, count = steps + rest ∧ grammar.DerivesIn rest next word := by
  induction hNext generalizing count with
  | zero => exact ⟨count, (Nat.zero_add count).symm, hWord⟩
  | succ hStep _ ih =>
    obtain ⟨before, after, hRule, hAlternative⟩ := hStep
    obtain ⟨only, hOnly⟩ := hGrammar _ _ hRule
    obtain ⟨others, alternative, rfl, hOther, hOthers⟩ := hWord.expand hRule hFinished
    rw [hOnly, List.mem_singleton] at hAlternative hOther
    subst hAlternative hOther
    obtain ⟨rest, rfl, hRest⟩ := ih hOthers
    exact ⟨rest, Nat.add_right_comm .., hRest⟩

/-- Of two derivations within a limit, one that finishes and one that ends at the limit or finishes,
the second one is as long as the first one and ends alike. -/
theorem DerivesIn.eq_of_finished_within (hGrammar : grammar.Determinate)
    (hWord : grammar.DerivesIn count sentence word) (hFinished : grammar.Finished word)
    (hLimit : count ≤ limit) (hNext : grammar.DerivesIn steps sentence next)
    (hEnd : steps = limit ∨ grammar.Finished next) : next = word ∧ steps = count := by
  obtain ⟨rest, rfl, hRest⟩ := hNext.remaining hGrammar hWord hFinished
  rcases hEnd with hSpent | hNextFinished
  · obtain rfl : rest = 0 := by omega
    cases hRest
    exact ⟨rfl, rfl⟩
  · obtain ⟨rfl, rfl⟩ := hRest.eq_of_finished hNextFinished
    exact ⟨rfl, rfl⟩

end Grammar

/-! ## The grammar of the places that are answered -/

/-- The rule with the alternative at a place alone. A place that is none changes nothing. -/
def Rule.only (rule : Rule) (place : Int) : Rule :=
  match rule.alternativeAt? place with
  | some alternative => ⟨rule.head, [alternative], by simp⟩
  | none => rule

theorem Rule.head_only (rule : Rule) (place : Int) : (rule.only place).head = rule.head := by
  rw [only]
  split <;> rfl

theorem Rule.alternatives_only {rule : Rule} {place : Int} {alternative : Expression}
    (h : rule.alternativeAt? place = some alternative) :
    (rule.only place).alternatives = [alternative] := by
  simp only [only, h]

namespace Grammar

/-- The grammar in which each rule has the alternative at its place alone. -/
def only (grammar : Grammar) (place : Rule → Int) : Grammar :=
  ⟨grammar.rules.map fun rule => rule.only (place rule), by simpa using grammar.nonempty⟩

variable {grammar : Grammar} {place : Rule → Int}

theorem expansionOf?_only (grammar : Grammar) (place : Rule → Int) (symbol : Symbol) :
    (grammar.only place).expansionOf? symbol
      = (grammar.expansionOf? symbol).map fun rule => rule.only (place rule) := by
  cases symbol with
  | terminal symbol => rfl
  | nonTerminal head =>
    simp only [expansionOf?, ruleFor?, only, List.find?_map, Function.comp_def, Rule.head_only]

theorem finished_only_iff (grammar : Grammar) (place : Rule → Int) {sentence : List Symbol} :
    (grammar.only place).Finished sentence ↔ grammar.Finished sentence := by
  simp only [Finished, expansionOf?_only, Option.map_eq_none_iff]

/-- Places of alternatives leave each rule one of them. -/
theorem determinate_only (h : ∀ head rule, grammar.ruleFor? head = some rule →
    0 ≤ place rule ∧ place rule < rule.arity) : (grammar.only place).Determinate := by
  intro symbol rule hRule
  rw [expansionOf?_only, Option.map_eq_some_iff] at hRule
  obtain ⟨used, hUsed, rfl⟩ := hRule
  obtain ⟨head, -, hHead⟩ := exists_ruleFor? hUsed
  cases hPlace : used.alternativeAt? (place used) with
  | none => exact absurd (h head used hHead) (Rule.alternativeAt?_eq_none_iff.mp hPlace)
  | some alternative => exact ⟨alternative, Rule.alternatives_only hPlace⟩

/-- Queries that are answered with the places of their rules derive in the grammar of these
places. -/
theorem DerivesBy.only {queries : List (Query ε)} {sentence last : List Symbol}
    (h : grammar.DerivesBy queries sentence last)
    (hAnswers : ∀ query ∈ queries, query.answer = .ok (place query.rule)) :
    (grammar.only place).DerivesIn queries.length sentence last := by
  induction h with
  | nil => exact .zero _
  | cons hStep _ ih =>
    obtain ⟨hAnswer, hRest⟩ := List.forall_mem_cons.mp hAnswers
    refine .succ ?_ (ih hRest)
    obtain ⟨before, after, hRule, hChosen⟩ := hStep
    obtain ⟨choice, hChoice, hPlace⟩ := Query.chosen_eq_ok_iff.mp hChosen
    cases hAnswer.symm.trans hChoice
    refine .expand before after (by rw [expansionOf?_only, hRule, Option.map_some]) ?_
    rw [Rule.alternatives_only hPlace]
    exact List.mem_singleton_self _

end Grammar

/-! ## Choosers that answer by rule -/

namespace Chooser

/-- In this class of states a chooser answers the first rule of a non-terminal with the place that
the rule has, which is the place of an alternative, and it stays in the class. -/
def Follows (chooser : Chooser σ ε) (grammar : Grammar) (place : Rule → Int) (kept : σ → Prop) :
    Prop :=
  ∀ head rule state, grammar.ruleFor? head = some rule → kept state →
    (chooser rule rule.arity state).1 = .ok (place rule) ∧
      (0 ≤ place rule ∧ place rule < rule.arity) ∧ kept (chooser rule rule.arity state).2

/-- From this state on the answer to a query about a rule of the grammar is a function of the rule
alone, and it is in range. -/
def ByRuleAlone (chooser : Chooser σ ε) (grammar : Grammar) (state : σ) : Prop :=
  ∃ (place : Rule → Int) (kept : σ → Prop), chooser.Follows grammar place kept ∧ kept state

variable {chooser : Chooser σ ε} {grammar : Grammar} {place : Rule → Int} {kept : σ → Prop}

theorem Follows.serves (h : chooser.Follows grammar place kept) : chooser.Serves grammar kept := by
  intro head rule state hHead hKept
  obtain ⟨hAnswer, hRange, hNext⟩ := h head rule state hHead hKept
  exact ⟨⟨place rule, hAnswer, hRange⟩, hNext⟩

theorem Follows.answer_eq (h : chooser.Follows grammar place kept) {queries : List (Query ε)}
    {state last : σ} (hAnswers : chooser.Answers state queries last)
    (hAsked : ∀ query ∈ queries, (∃ head, grammar.ruleFor? head = some query.rule) ∧
      query.bound = query.rule.arity ∧ query.InRange) (hKept : kept state) :
    ∀ query ∈ queries, query.answer = .ok (place query.rule) := by
  induction hAnswers with
  | nil => simp
  | @cons query rest state next last hAnswer _ ih =>
    obtain ⟨⟨⟨head, hHead⟩, hBound, -⟩, hRest⟩ := List.forall_mem_cons.mp hAsked
    obtain ⟨hPlace, -, hNext⟩ := h head query.rule state hHead hKept
    rw [← hBound, hAnswer] at hPlace hNext
    exact List.forall_mem_cons.mpr ⟨hPlace, ih hRest hNext⟩

/-- What an engine makes of such a chooser. -/
theorem Follows.exists_produces (h : chooser.Follows grammar place kept) (engine : Engine)
    {limit : Nat} (hLimit : 1 ≤ limit) {state : σ} (hKept : kept state) :
    ∃ (queries : List (Query ε)) (result : engine.Result) (last : σ),
      grammar.Produces engine chooser limit state queries result last ∧
      (grammar.only place).DerivesIn queries.length [.nonTerminal grammar.start]
        (engine.read result) ∧
      queries.length ≤ limit ∧ (queries.length = limit ∨ grammar.Finished (engine.read result)) := by
  obtain ⟨S, expander, view, start, hDrives⟩ := grammar.exists_drives engine
  obtain ⟨queries, situation, last, hPlays, hAnswers, -, hLength, hEnd⟩ :=
    h.serves.exists_plays hDrives.sound limit start hKept
  refine ⟨queries, view situation, last,
    hDrives.produces_of_plays hPlays hLimit hLength hEnd hAnswers, ?_, hLength,
    hEnd.imp_right hDrives.sound.finished⟩
  rw [← hDrives.start_eq]
  exact (hDrives.sound.derivesBy hPlays).only
    (h.answer_eq hAnswers (hDrives.sound.queries hPlays) hKept)

end Chooser

/-! ## Indexes that answer by rule -/

/-- A reader of one codon stays where it is. -/
theorem Codons.advance_of_single {codons : Codons} (h : codons.values.length = 1) :
    codons.advance = codons := by
  obtain ⟨values, cursor, hCursor⟩ := codons
  dsimp only at h
  have hStays : (cursor + 1) % values.length = cursor := by
    rw [h, Nat.mod_one]
    omega
  simp only [advance, hStays]

namespace RuleCodons

theorem exists_readerOf? {grammar : Grammar} {readers : List Codons} {codons : RuleCodons}
    (h : of grammar readers = .ok codons) {head : NonTerminal} {rule : Rule}
    (hRule : grammar.ruleFor? head = some rule) :
    ∃ reader ∈ readers, codons.readerOf? rule.head = some reader := by
  have hLength : readers.length = grammar.rules.length := by
    rw [of] at h
    split at h
    · assumption
    · cases h
  rw [Grammar.head_of_ruleFor? hRule, readerOf?_of h]
  rw [← grammar.getElem?_placeOf, List.getElem?_eq_some_iff] at hRule
  obtain ⟨hPlace, -⟩ := hRule
  rw [← hLength] at hPlace
  exact ⟨_, List.getElem_mem hPlace, List.getElem?_eq_getElem hPlace⟩

end RuleCodons

namespace Codec

/-- A single codon answers each rule with its rest modulo the number of alternatives. -/
theorem byRuleAlone_single (grammar : Grammar) (codon : Nat) :
    indexChooser.ByRuleAlone grammar (.shared (.ofValues [codon] (by simp))) := by
  refine ⟨fun rule => (codon : Int) % rule.arity,
    fun index => index = .shared (.ofValues [codon] (by simp)), ?_, rfl⟩
  rintro head rule index - rfl
  have hArity := rule.arity_pos
  rw [indexChooser_shared rule (by omega), Codons.advance_of_single rfl]
  exact ⟨rfl, ⟨Int.emod_nonneg _ (by omega), Int.emod_lt_of_pos _ (by omega)⟩, rfl⟩

/-- Readers of one codon each answer by rule, because no reading changes what a head owns. -/
theorem byRuleAlone_singles {grammar : Grammar} {readers : List Codons} {codons : RuleCodons}
    (hCodons : RuleCodons.of grammar readers = .ok codons)
    (hSingles : ∀ reader ∈ readers, reader.values.length = 1) :
    indexChooser.ByRuleAlone grammar (.byRule codons) := by
  refine ⟨fun rule => (((codons.readerOf? rule.head).map Codons.current).getD 0 % rule.arity : Nat),
    fun index => ∃ moved, index = .byRule moved ∧ ∀ head, moved.readerOf? head
      = codons.readerOf? head, ?_, codons, rfl, fun _ => rfl⟩
  rintro head rule index hRule ⟨moved, rfl, hSame⟩
  obtain ⟨reader, hMember, hReader⟩ := RuleCodons.exists_readerOf? hCodons hRule
  have hArity := rule.arity_pos
  have hOwn := (hSame rule.head).trans hReader
  rw [indexChooser_own hOwn (by omega)]
  simp only [hReader, Option.map_some, Option.getD_some, Int.toNat_natCast, true_and]
  refine ⟨⟨Int.natCast_nonneg _, Int.ofNat_lt.mpr (Nat.mod_lt _ hArity)⟩, _, rfl, ?_⟩
  intro other
  rw [RuleCodons.readerOf?_next, hSame, hSame]
  split
  · rename_i hOther
    rw [hOther, hReader, Option.map_some, reader.next_eq (by omega),
      Codons.advance_of_single (hSingles reader hMember)]
  · rfl

end Codec

namespace Grammar

/-- If the answers of a chooser depend on the rule alone, all engines agree: one has a finished
sentence within the limit exactly when another one has, and then it is the same sentence after the
same number of queries. A single codon is such a chooser, and so are readers of one codon for each
rule. -/
theorem produce_confluent (grammar : Grammar) {limit : Nat} (hLimit : 1 ≤ limit) :
    (∀ {σ ε : Type} (chooser : Chooser σ ε) (state : σ), chooser.ByRuleAlone grammar state →
      ∀ first second : Engine, ∃ (queries others : List (Query ε)) (result : first.Result)
        (other : second.Result) (last ending : σ),
        grammar.Produces first chooser limit state queries result last ∧
        grammar.Produces second chooser limit state others other ending ∧
        (grammar.Finished (first.read result) ↔ grammar.Finished (second.read other)) ∧
        (grammar.Finished (first.read result) →
          second.read other = first.read result ∧ others.length = queries.length)) ∧
    (∀ codon, Codec.indexChooser.ByRuleAlone grammar (.shared (.ofValues [codon] (by simp)))) ∧
    ∀ readers codons, RuleCodons.of grammar readers = .ok codons →
      (∀ reader ∈ readers, reader.values.length = 1) →
      Codec.indexChooser.ByRuleAlone grammar (.byRule codons) := by
  refine ⟨?_, Codec.byRuleAlone_single grammar, fun _ _ => Codec.byRuleAlone_singles⟩
  rintro σ ε chooser state ⟨place, kept, hFollows, hKept⟩ first second
  have hRange : ∀ head rule, grammar.ruleFor? head = some rule →
      0 ≤ place rule ∧ place rule < rule.arity := fun head rule hHead =>
    (hFollows head rule state hHead hKept).2.1
  have hDeterminate := determinate_only hRange
  obtain ⟨queries, result, last, hFirst, hDerives, hLength, hEnd⟩ :=
    hFollows.exists_produces first hLimit hKept
  obtain ⟨others, other, ending, hSecond, hOther, hOthers, hOtherEnd⟩ :=
    hFollows.exists_produces second hLimit hKept
  refine ⟨queries, others, result, other, last, ending, hFirst, hSecond, ?_⟩
  -- The same sentences are finished in both grammars.
  have hOnly : ∀ {made : List Symbol}, (grammar.only place).Finished made ↔ grammar.Finished made :=
    finished_only_iff grammar place
  have hAgree : grammar.Finished (first.read result) →
      second.read other = first.read result ∧ others.length = queries.length := by
    intro hFinished
    exact hDerives.eq_of_finished_within hDeterminate (hOnly.mpr hFinished) hLength hOther
      (hOtherEnd.imp_right hOnly.mpr)
  refine ⟨⟨?_, ?_⟩, hAgree⟩
  · intro hFinished
    rwa [(hAgree hFinished).1]
  · intro hFinished
    obtain ⟨hSame, -⟩ := hOther.eq_of_finished_within hDeterminate (hOnly.mpr hFinished) hOthers
      hDerives (hEnd.imp_right hOnly.mpr)
    rwa [hSame]

/-- One codon for all rules, and a limit that the derivation just reaches. -/
theorem produce_confluent_single :
    let x : Symbol := .terminal ⟨"x", by decide⟩
    let y : Symbol := .terminal ⟨"y", by decide⟩
    let a : Symbol := .nonTerminal ⟨"a"⟩
    let b : Symbol := .nonTerminal ⟨"b"⟩
    let grammar : Grammar := ⟨[⟨⟨"s"⟩, [⟨[a, b], by simp⟩], by simp⟩,
      ⟨⟨"a"⟩, [.single y, ⟨[b, y], by simp⟩], by simp⟩,
      ⟨⟨"b"⟩, [.single y, .single x], by simp⟩], by simp⟩
    let index : Index := .shared (.ofValues [1] (by simp))
    1 ≤ 4 ∧ Codec.indexChooser.ByRuleAlone grammar index ∧
      grammar.produce (.sentence .leftToRight) Codec.indexChooser 4 index
        = (.ok ⟨[x, y, x], 4⟩, index) ∧
      ∃ queries tree last, grammar.Produces .tree Codec.indexChooser 4 index queries tree last ∧
        tree.sentence = [x, y, x] ∧ queries.length = 4 := by
  intro x y a b grammar index
  obtain ⟨hAgree, hSingle, -⟩ := produce_confluent grammar (by decide : 1 ≤ 4)
  obtain ⟨queries, others, made, tree, last, ending, hFirst, hTree, -, hSame⟩ :=
    hAgree Codec.indexChooser index (hSingle 1) (.sentence .leftToRight) .tree
  have hResult : grammar.produce (.sentence .leftToRight) Codec.indexChooser 4 index
      = (.ok ⟨[x, y, x], 4⟩, index) := by
    subst x y a b grammar index
    rfl
  injection hFirst.plain.symm.trans hResult with hDerived
  injection hDerived with hDerived
  injection hDerived with hMade hLength
  subst hMade
  have hFinished : grammar.Finished [x, y, x] := by decide
  obtain ⟨hSentence, hCount⟩ := hSame hFinished
  exact ⟨by decide, hSingle 1, hResult, others, tree, ending, hTree, hSentence,
    hCount.trans hLength⟩

end Grammar

end CodonGrammar
