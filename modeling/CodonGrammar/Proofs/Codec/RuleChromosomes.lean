import CodonGrammar.Proofs.Codec.Totality

/-!
# A chromosome for each rule

A codec by rules has three tables in which the first rule with a head counts: the rules to expand
with, the readers of chromosomes and the encoding. They agree: the expansions of a head take the
numbers in the chromosome of its first rule in their order, and from the beginning again, and each
number is the place of an alternative as it stands (`Codec.decode_byRule`). The chromosome of a rule
behind another one with the same head is never read.

Between two expansions of a head, others may happen. They leave the reader of the head alone, so
after any queries it has moved once for each of them that is about this head
(`RuleCodons.readerOf?_of_answers`).
-/

namespace CodonGrammar

variable {σ ε : Type}

/-! ## Readers after some queries -/

theorem RuleCodons.readerOf?_of_answers {codons : RuleCodons}
    {queries : List (Query RuleCodonsError)} {last : Index}
    (h : Codec.indexChooser.Answers (.byRule codons) queries last)
    (hBounds : ∀ query ∈ queries, 1 ≤ query.bound) :
    ∃ moved, last = .byRule moved ∧ ∀ head, moved.readerOf? head
      = (codons.readerOf? head).map Codons.advance^[queries.countP (·.rule.head = head)] := by
  induction queries generalizing codons with
  | nil =>
    cases h
    exact ⟨codons, rfl, fun head => by simp⟩
  | cons query rest ih =>
    obtain ⟨hBound, hRest⟩ := List.forall_mem_cons.mp hBounds
    cases h with
    | @cons _ _ _ next _ hAnswer hAnswers =>
      rw [Codec.indexChooser_byRule] at hAnswer
      obtain rfl := (Prod.ext_iff.mp hAnswer).2
      obtain ⟨moved, hLast, hMoved⟩ := ih hAnswers hRest
      refine ⟨moved, hLast, ?_⟩
      intro head
      rw [hMoved, readerOf?_next, List.countP_cons]
      by_cases hHead : head = query.rule.head
      · subst hHead
        rw [if_pos rfl, if_pos (decide_eq_true rfl), Option.map_map, Function.iterate_succ]
        congr 2
        funext reader
        rw [reader.next_eq hBound]
      · rw [if_neg hHead, if_neg (by simpa using Ne.symm hHead), Nat.add_zero]

/-! ## The values that are used -/

/-- A query after earlier ones, about the first rule with its head: it is answered with the value
whose turn it is in the chromosome at the place of this rule, and the value is the place of the
alternative. -/
structure Grammar.Picks (grammar : Grammar) (chromosomes : List (List Int))
    (earlier : List (Query ε)) (query : Query ε) (chromosome : List Int) (value : Int)
    (alternative : Expression) : Prop where
  first : grammar.ruleFor? query.rule.head = some query.rule
  place : chromosomes[grammar.placeOf query.rule.head]? = some chromosome
  turn : chromosome[earlier.countP (·.rule.head = query.rule.head) % chromosome.length]?
    = some value
  range : 0 ≤ value ∧ value < query.rule.arity
  answer : query.answer = .ok value
  alternative_eq : query.rule.alternatives[value.toNat]? = some alternative
  chosen : query.chosen = .ok alternative

theorem Query.chosen_of_answer {query : Query ε} {value : Int} {alternative : Expression}
    (hAnswer : query.answer = .ok value) (hLow : 0 ≤ value)
    (hPlace : query.rule.alternatives[value.toNat]? = some alternative) :
    query.chosen = .ok alternative := by
  rw [chosen, hAnswer]
  simp only [Rule.alternativeAt?, if_neg (Int.not_lt.mpr hLow), hPlace]

namespace Codec

section Rules

variable {reader : FieldReader} {grammar : Grammar} {length : Nat → Int} {strategy : Strategy}
  {limit : Int} {codec : Codec} (hCodec : ofRules reader grammar length strategy limit = .ok codec)
  {chromosomes : List (List Int)} (hAllows : codec.Allows chromosomes)

include hCodec hAllows

theorem length_of_allows : chromosomes.length = grammar.rules.length := by
  obtain ⟨-, -, -, -, hSpecs⟩ := eq_of_ofRules hCodec
  exact hAllows.length_eq.symm.trans hSpecs.length_eq.symm

/-- The values of the chromosome of a rule are places of its alternatives. -/
theorem range_of_allows {head : NonTerminal} {rule : Rule}
    (hRule : grammar.ruleFor? head = some rule) {chromosome : List Int}
    (hPlace : chromosomes[grammar.placeOf head]? = some chromosome) :
    ∀ value ∈ chromosome, 0 ≤ value ∧ value < rule.arity := by
  obtain ⟨-, -, -, -, hSpecs⟩ := eq_of_ofRules hCodec
  obtain ⟨spec, hSpec, hSpecifies⟩ :=
    getElem?_of_forall₂ hSpecs ((grammar.getElem?_placeOf head).trans hRule)
  obtain ⟨other, hOther, hAllowed⟩ := getElem?_of_forall₂ hAllows hSpec
  cases hPlace.symm.trans hOther
  intro value hValue
  have hRange := hAllowed.range value hValue
  rw [hSpecifies.lower_eq, hSpecifies.upper_eq] at hRange
  exact hRange

theorem exists_picks {codons : RuleCodons} (hReads : codons.Reads grammar chromosomes)
    {earlier later : List (Query RuleCodonsError)} {query : Query RuleCodonsError} {last : Index}
    (hAnswers : indexChooser.Answers (.byRule codons) (earlier ++ query :: later) last)
    (hAsked : ∀ asked ∈ earlier ++ query :: later,
      (∃ head, grammar.ruleFor? head = some asked.rule) ∧ asked.bound = asked.rule.arity) :
    ∃ chromosome value alternative,
      grammar.Picks chromosomes earlier query chromosome value alternative := by
  have hBounds : ∀ asked ∈ earlier, 1 ≤ asked.bound := by
    intro asked hMember
    have hPositive := asked.rule.arity_pos
    have hBound := (hAsked asked (List.mem_append_left _ hMember)).2
    omega
  obtain ⟨middle, hEarlier, hLater⟩ := hAnswers.split
  obtain ⟨moved, rfl, hMoved⟩ := RuleCodons.readerOf?_of_answers hEarlier hBounds
  obtain ⟨⟨head, hHead⟩, hBound⟩ := hAsked query (by simp)
  have hFirst : grammar.ruleFor? query.rule.head = some query.rule := by
    rw [Grammar.head_of_ruleFor? hHead]
    exact hHead
  have hFit := (Made.byRule hCodec).not_refuses hAllows
  rw [(eq_of_ofRules hCodec).2.1] at hFit
  obtain ⟨chromosome, hNonempty, hPlace, hReader⟩ :=
    hReads.exists_reader (length_of_allows hCodec hAllows) hFit hFirst
  obtain ⟨value, hTurn, hCurrent⟩ :=
    Codons.exists_value hNonempty (earlier.countP (·.rule.head = query.rule.head))
  have hRange := range_of_allows hCodec hAllows hFirst hPlace value (List.mem_of_getElem? hTurn)
  have hOwner := hMoved query.rule.head
  rw [hReader, Option.map_some] at hOwner
  have hPositive := query.rule.arity_pos
  -- The value is below the bound already, so the reader does not reduce it.
  have hAnswer : query.answer = .ok value := by
    cases hLater with
    | cons hFound _ =>
      rw [indexChooser_own hOwner (by omega), hCurrent, Nat.mod_eq_of_lt (by omega),
        Int.toNat_of_nonneg hRange.1] at hFound
      exact (Prod.ext_iff.mp hFound).1.symm
  have hArity : query.rule.arity = query.rule.alternatives.length := rfl
  have hAlternative := List.getElem?_eq_getElem
    (by omega : value.toNat < query.rule.alternatives.length)
  exact ⟨chromosome, value, _, hFirst, hPlace, hTurn, hRange, hAnswer, hAlternative,
    Query.chosen_of_answer hAnswer hRange.1 hAlternative⟩

/-- The readers that a genotype is decoded with. -/
theorem exists_reads :
    ∃ codons, (codec.indexSource (.ofIntegers chromosomes)).index grammar = .ok (.byRule codons) ∧
      codons.Reads grammar chromosomes ∧ (Index.byRule codons).Serves grammar := by
  have hLength := length_of_allows hCodec hAllows
  have hRefuses := (Made.byRule hCodec).not_refuses hAllows
  obtain ⟨rfl, hDecoding, -⟩ := eq_of_ofRules hCodec
  rw [hDecoding] at hRefuses
  rcases CodonSource.readers_cases hLength with
    ⟨hFit, codons, hCodons, hReads⟩ | ⟨⟨chromosome, hMember, hRefused⟩, -⟩
  · refine ⟨codons, ?_, hReads, hReads.serves hLength hFit⟩
    rw [index_byRule hDecoding, hCodons]
    rfl
  · exact absurd hRefused (hRefuses chromosome hMember)

end Rules

/-! ## Chromosomes that are not read -/

/-- Indexes by rule in which each head owns the same reader. -/
def Alike (index other : Index) : Prop :=
  ∃ codons others, index = .byRule codons ∧ other = .byRule others ∧
    ∀ head, codons.readerOf? head = others.readerOf? head

theorem agrees_indexChooser : indexChooser.Agrees Alike := by
  rintro rule bound index other ⟨codons, others, rfl, rfl, hSame⟩
  rw [indexChooser_byRule, indexChooser_byRule]
  refine ⟨?_, _, _, rfl, rfl, ?_⟩
  · rw [codons.next_answer, others.next_answer, hSame]
  · intro head
    rw [codons.readerOf?_next, others.readerOf?_next, hSame, hSame]

end Codec

/-- A head never has its place at a rule behind another one with this head. -/
theorem Grammar.placeOf_ne {grammar : Grammar} {first second : Nat} {rule shadowed : Rule}
    (hOrder : first < second) (hFirst : grammar.rules[first]? = some rule)
    (hSecond : grammar.rules[second]? = some shadowed) (hHeads : rule.head = shadowed.head)
    (head : NonTerminal) : grammar.placeOf head ≠ second := by
  rintro rfl
  rw [grammar.getElem?_placeOf] at hSecond
  rw [Grammar.head_of_ruleFor? hSecond] at hHeads
  obtain ⟨hPlace, rfl⟩ := List.getElem?_eq_some_iff.mp hFirst
  have hEarlier := List.not_of_lt_findIdx hOrder
  simp [hHeads] at hEarlier

namespace Codec

section Rules

variable {reader : FieldReader} {grammar : Grammar} {length : Nat → Int} {strategy : Strategy}
  {limit : Int} {codec : Codec} (hCodec : ofRules reader grammar length strategy limit = .ok codec)
  {chromosomes : List (List Int)} (hAllows : codec.Allows chromosomes)

include hCodec hAllows

theorem decode_of_limit (hLimit : limit < 1) :
    codec.decode (.ofIntegers chromosomes) = .error (.limit ⟨limit⟩) := by
  obtain ⟨codons, hIndex, -, -⟩ := exists_reads hCodec hAllows
  obtain ⟨rfl, -, -, rfl, -⟩ := eq_of_ofRules hCodec
  simp [decode, run, hAllows.length_ofIntegers, hIndex, checkLimit, hLimit, Except.map]

/-- With a positive limit the answers of the readers decide the sentence. -/
theorem exists_decides (hLimit : 1 ≤ limit) :
    ∃ codons queries sentence last,
      (codec.indexSource (.ofIntegers chromosomes)).index grammar = .ok (.byRule codons) ∧
      codons.Reads grammar chromosomes ∧
      grammar.Decides (.sentence strategy) limit.toNat queries sentence ∧
      indexChooser.Answers (.byRule codons) queries last := by
  obtain ⟨codons, hIndex, hReads, hServes⟩ := exists_reads hCodec hAllows
  obtain ⟨queries, sentence, last, hDecides, hAnswers⟩ :=
    (serves_indexChooser grammar).exists_decides (.sentence strategy)
      (by omega : 1 ≤ limit.toNat) hServes
  exact ⟨codons, queries, sentence, last, hIndex, hReads, hDecides, hAnswers⟩

theorem decode_of_decides (hLimit : 1 ≤ limit) {queries : List (Query RuleCodonsError)}
    {sentence : List Symbol} {index last : Index}
    (hIndex : (codec.indexSource (.ofIntegers chromosomes)).index grammar = .ok index)
    (hDecides : grammar.Decides (.sentence strategy) limit.toNat queries sentence)
    (hAnswers : indexChooser.Answers index queries last) :
    codec.decode (.ofIntegers chromosomes) = .ok sentence := by
  obtain ⟨rfl, -, rfl, rfl, -⟩ := eq_of_ofRules hCodec
  exact decode_of_derive hAllows.length_ofIntegers hIndex hLimit (hDecides.run hAnswers)

/-- Genotypes with the same chromosomes at the places of all first rules have the same sentence. -/
theorem decode_congr {others : List (List Int)} (hOthers : codec.Allows others)
    (hSame : ∀ head, others[grammar.placeOf head]? = chromosomes[grammar.placeOf head]?) :
    codec.decode (.ofIntegers others) = codec.decode (.ofIntegers chromosomes) := by
  by_cases hLimit : limit < 1
  · rw [decode_of_limit hCodec hAllows hLimit, decode_of_limit hCodec hOthers hLimit]
  · have hPositive := Int.not_lt.mp hLimit
    obtain ⟨codons, queries, sentence, last, hIndex, hReads, hDecides, hAnswers⟩ :=
      exists_decides hCodec hAllows hPositive
    obtain ⟨moved, hOtherIndex, hOtherReads, -⟩ := exists_reads hCodec hOthers
    have hAlike : Alike (.byRule codons) (.byRule moved) :=
      ⟨codons, moved, rfl, rfl, fun head => by rw [hReads, hOtherReads, hSame]⟩
    obtain ⟨ending, hOtherAnswers⟩ := hAnswers.of_alike agrees_indexChooser hAlike
    rw [decode_of_decides hCodec hAllows hPositive hIndex hDecides hAnswers,
      decode_of_decides hCodec hOthers hPositive hOtherIndex hDecides hOtherAnswers]

/-- A codec by rules decodes a genotype that conforms to its encoding with the values of the
chromosomes as they stand: after any number of expansions of a head, the next one uses the
alternative whose place is the value at this number in the chromosome of the first rule with the
head, counted around. So the chromosome of a rule behind another one with the same head may be any
that conforms. -/
theorem decode_byRule :
    (limit < 1 → codec.decode (.ofIntegers chromosomes) = .error (.limit ⟨limit⟩)) ∧
    (1 ≤ limit → ∃ index last queries sentence,
      (codec.indexSource (.ofIntegers chromosomes)).index grammar = .ok index ∧
      grammar.derive indexChooser.traced strategy limit.toNat (index, [])
        = (.ok ⟨sentence, queries.length⟩, (last, queries.reverse)) ∧
      codec.decode (.ofIntegers chromosomes) = .ok sentence ∧
      grammar.DerivesBy queries [.nonTerminal grammar.start] sentence ∧
      ∀ earlier query later, queries = earlier ++ query :: later →
        ∃ chromosome value alternative,
          grammar.Picks chromosomes earlier query chromosome value alternative) ∧
    ∀ (first second : Nat) (rule shadowed : Rule) (others : List (List Int)), first < second →
      grammar.rules[first]? = some rule → grammar.rules[second]? = some shadowed →
      rule.head = shadowed.head → codec.Allows others →
      (∀ place, place ≠ second → others[place]? = chromosomes[place]?) →
      codec.decode (.ofIntegers others) = codec.decode (.ofIntegers chromosomes) := by
  refine ⟨decode_of_limit hCodec hAllows, ?_, ?_⟩
  · intro hLimit
    obtain ⟨codons, queries, sentence, last, hIndex, hReads, hDecides, hAnswers⟩ :=
      exists_decides hCodec hAllows hLimit
    refine ⟨_, last, queries, sentence, hIndex, hDecides.run hAnswers.traced_all,
      decode_of_decides hCodec hAllows hLimit hIndex hDecides hAnswers, hDecides.derives, ?_⟩
    rintro earlier query later rfl
    have hAsked := fun asked hMember =>
      And.intro (hDecides.asked asked hMember).1 (hDecides.asked asked hMember).2.1
    exact exists_picks hCodec hAllows hReads hAnswers hAsked
  · intro first second rule shadowed others hOrder hFirst hSecond hHeads hOthers hSame
    exact decode_congr hCodec hAllows hOthers fun head =>
      hSame _ (Grammar.placeOf_ne hOrder hFirst hSecond hHeads head)

end Rules

/-- A head with two rules, of which the second one has a chromosome that is never read. -/
theorem decode_byRule_shadowed :
    let a : Symbol := .nonTerminal ⟨"a"⟩
    let x : Symbol := .terminal ⟨"x", by decide⟩
    let y : Symbol := .terminal ⟨"y", by decide⟩
    let grammar : Grammar := ⟨[⟨⟨"s"⟩, [⟨[a, a], by simp⟩], by simp⟩,
      ⟨⟨"a"⟩, [.single x, .single y], by simp⟩, ⟨⟨"a"⟩, [.single y, .single a], by simp⟩], by simp⟩
    ∃ codec, ofRules .loose grammar (fun arity => arity) .leftToRight 5 = .ok codec ∧
      codec.Allows [[0], [1, 0], [0, 1]] ∧
      (∃ (queries : List (Query RuleCodonsError)),
        grammar.DerivesBy queries [.nonTerminal grammar.start] [y, x] ∧
        ∀ earlier query later, queries = earlier ++ query :: later →
          ∃ chromosome value alternative,
            grammar.Picks [[0], [1, 0], [0, 1]] earlier query chromosome value alternative) ∧
      codec.decode (.ofIntegers [[0], [1, 0], [1, 1]]) = .ok [y, x] := by
  intro a x y grammar
  have hCodec := (rfl : ofRules .loose grammar (fun arity => arity) .leftToRight 5 = .ok _)
  obtain ⟨-, hExpansions, hShadowed⟩ := decode_byRule hCodec
    (by decide : Allows _ [[0], [1, 0], [0, 1]])
  obtain ⟨index, last, queries, sentence, -, -, hDecode, hDerives, hPicks⟩ :=
    hExpansions (by decide)
  have hResult : Except.ok sentence = Except.ok [y, x] := hDecode.symm.trans rfl
  cases hResult
  refine ⟨_, hCodec, by decide, ⟨queries, hDerives, hPicks⟩, ?_⟩
  rw [← hDecode]
  refine hShadowed 1 2 _ _ _ (by decide) rfl rfl rfl (by decide) ?_
  intro place hPlace
  match place with
  | 0 | 1 => rfl
  | 2 => exact absurd rfl hPlace
  | _ + 3 => rfl

end Codec

end CodonGrammar
