import CodonGrammar.Proofs.Codec.Specification
import CodonGrammar.Proofs.Codon.OwnReaders
import CodonGrammar.Proofs.Codon.Turns
import CodonGrammar.Proofs.Derivation.Serving

/-!
# Reading chromosomes

Of a chromosome of integers a reader is made unless the chromosome is empty or holds a negative
value, and of one of bits unless it is too short for one codon (`Decoding.Refuses`). When readers
are made of all chromosomes, there are codons for every rule that can be asked for, and they answer
all queries about such rules in range (`Codec.serves_indexChooser`).
-/

namespace CodonGrammar

/-! ## Readers -/

namespace Codons

/-- There are codons of integers unless there are no integers or some are negative. -/
theorem ofInts_cases (numbers : List Int) :
    (¬ (numbers = [] ∨ ∃ value ∈ numbers, value < 0) ∧
        ∃ hNonempty, ofInts numbers = .ok (ofValues (numbers.map Int.toNat) hNonempty)) ∨
      ((numbers = [] ∨ ∃ value ∈ numbers, value < 0) ∧ ∃ error, ofInts numbers = .error error) := by
  rw [ofInts]
  by_cases hEmpty : numbers = []
  · rw [dif_pos hEmpty]
    exact .inr ⟨.inl hEmpty, _, rfl⟩
  · rw [dif_neg hEmpty]
    by_cases hNegative : ∃ value ∈ numbers, value < 0
    · have hAny : numbers.any (· < 0) = true := by simpa using hNegative
      rw [if_pos hAny]
      exact .inr ⟨.inr hNegative, _, rfl⟩
    · have hAny : ¬ numbers.any (· < 0) = true := by simpa using hNegative
      rw [if_neg hAny]
      exact .inl ⟨not_or.mpr ⟨hEmpty, hNegative⟩, by simpa using hEmpty, rfl⟩

/-- There are codons of bits unless the bits do not make one. -/
theorem ofBits_cases (bits : List Bool) :
    (¬ bits.length < bitsPerCodon ∧ ∃ codons, ofBits bits = .ok codons) ∨
      (bits.length < bitsPerCodon ∧ ∃ error, ofBits bits = .error error) := by
  have hPositive : 0 < bitsPerCodon := by decide
  rw [ofBits]
  by_cases hShort : bits.length < bitsPerCodon
  · rw [dif_pos (Nat.div_eq_of_lt hShort)]
    exact .inr ⟨hShort, _, rfl⟩
  · have hSome := Nat.div_pos (Nat.not_lt.mp hShort) hPositive
    rw [dif_neg (Nat.ne_of_gt hSome)]
    exact .inl ⟨hShort, _, rfl⟩

end Codons

/-- A chromosome that no reader is made of. -/
def Decoding.Refuses : Decoding → List Int → Prop
  | .integers, chromosome => chromosome = [] ∨ ∃ value ∈ chromosome, value < 0
  | .bits, chromosome => chromosome.length < bitsPerCodon
  | .byRule, chromosome => chromosome = [] ∨ ∃ value ∈ chromosome, value < 0

/-- What a chromosome is read as. -/
def Decoding.source : Decoding → List Int → CodonSource
  | .integers, chromosome => .integers (.ofIntegers chromosome)
  | .bits, chromosome => .bits (.ofIntegers chromosome)
  | .byRule, chromosome => .integers (.ofIntegers chromosome)

theorem Decoding.reader_cases (decoding : Decoding) (chromosome : List Int) :
    (¬ decoding.Refuses chromosome ∧ ∃ codons, (decoding.source chromosome).reader = .ok codons) ∨
      (decoding.Refuses chromosome ∧
        ∃ error, (decoding.source chromosome).reader = .error (.codons error)) := by
  have hIntegers := Codons.ofInts_cases chromosome
  have hBits := Codons.ofBits_cases ((chromosome.map Datum.integer).map Datum.isSet)
  rw [List.length_map, List.length_map] at hBits
  cases decoding with
  | integers | byRule =>
    rw [source, CodonSource.reader_integers]
    rcases hIntegers with ⟨hFit, hNonempty, hCodons⟩ | ⟨hRefused, error, hError⟩
    · rw [hCodons]
      exact .inl ⟨hFit, _, rfl⟩
    · rw [hError]
      exact .inr ⟨hRefused, error, rfl⟩
  | bits =>
    rw [source, Datum.ofIntegers, CodonSource.reader_list]
    rcases hBits with ⟨hEnough, codons, hCodons⟩ | ⟨hShort, error, hError⟩
    · rw [hCodons]
      exact .inl ⟨hEnough, codons, rfl⟩
    · rw [hError]
      exact .inr ⟨hShort, error, rfl⟩

/-! ## Readers for all rules -/

theorem Grammar.head_of_ruleFor? {grammar : Grammar} {head : NonTerminal} {rule : Rule}
    (h : grammar.ruleFor? head = some rule) : rule.head = head := by
  simpa using List.find?_some h

/-- Each head owns a reader of the chromosome at the place of its first rule. -/
def RuleCodons.Reads (codons : RuleCodons) (grammar : Grammar) (chromosomes : List (List Int)) :
    Prop :=
  ∀ head, codons.readerOf? head
    = chromosomes[grammar.placeOf head]?.bind fun chromosome => (Codons.ofInts chromosome).toOption

theorem CodonSource.ofInts_of_reader {chromosome : List Int} {codons : Codons}
    (h : (Decoding.byRule.source chromosome).reader = .ok codons) :
    Codons.ofInts chromosome = .ok codons := by
  rw [Decoding.source, reader_integers] at h
  cases hInts : Codons.ofInts chromosome with
  | error error =>
    rw [hInts] at h
    cases h
  | ok made =>
    rw [hInts] at h
    cases h
    rfl

/-- A rule that can be asked for has a chromosome, and its head owns the reader of it. -/
theorem RuleCodons.Reads.exists_reader {codons : RuleCodons} {grammar : Grammar}
    {chromosomes : List (List Int)} (hReads : codons.Reads grammar chromosomes)
    (hLength : chromosomes.length = grammar.rules.length)
    (hFit : ∀ chromosome ∈ chromosomes, ¬ Decoding.byRule.Refuses chromosome)
    {head : NonTerminal} {rule : Rule} (hRule : grammar.ruleFor? head = some rule) :
    ∃ chromosome hNonempty, chromosomes[grammar.placeOf head]? = some chromosome ∧
      codons.readerOf? head = some (.ofValues (chromosome.map Int.toNat) hNonempty) := by
  rw [← grammar.getElem?_placeOf, List.getElem?_eq_some_iff] at hRule
  obtain ⟨hPlace, -⟩ := hRule
  rw [← hLength] at hPlace
  have hFound := List.getElem?_eq_getElem hPlace
  rcases Codons.ofInts_cases chromosomes[grammar.placeOf head] with
    ⟨-, hNonempty, hCodons⟩ | ⟨hRefused, -⟩
  · refine ⟨_, hNonempty, hFound, ?_⟩
    rw [hReads, hFound, Option.bind_some, hCodons]
    rfl
  · exact absurd hRefused (hFit _ (List.getElem_mem hPlace))

/-- There are readers for all rules unless one of the chromosomes is refused. -/
theorem CodonSource.readers_cases {grammar : Grammar} {chromosomes : List (List Int)}
    (hLength : chromosomes.length = grammar.rules.length) :
    ((∀ chromosome ∈ chromosomes, ¬ Decoding.byRule.Refuses chromosome) ∧
        ∃ codons, readers grammar (chromosomes.map Decoding.byRule.source) = .ok codons ∧
          codons.Reads grammar chromosomes) ∨
      ((∃ chromosome ∈ chromosomes, Decoding.byRule.Refuses chromosome) ∧
        ∃ error, readers grammar (chromosomes.map Decoding.byRule.source)
          = .error (.codons error)) := by
  rw [readers]
  rcases mapM_cases reader (chromosomes.map Decoding.byRule.source) with
    ⟨made, hMade, hAll⟩ | ⟨failure, hFailure, source, hSource, hError⟩
  · rw [List.forall₂_map_left_iff] at hAll
    have hCount : made.length = grammar.rules.length := hAll.length_eq.symm.trans hLength
    have hOf : RuleCodons.of grammar made = .ok ⟨(grammar.rules.map Rule.head).zip made⟩ := by
      rw [RuleCodons.of, if_pos hCount]
    rw [hMade]
    dsimp only
    rw [hOf]
    refine .inl ⟨?_, _, rfl, ?_⟩
    · intro chromosome hMember hRefused
      obtain ⟨place, hPlace⟩ := List.mem_iff_getElem?.mp hMember
      obtain ⟨codons, -, hCodons⟩ := getElem?_of_forall₂ hAll hPlace
      rcases Decoding.byRule.reader_cases chromosome with ⟨hFit, -⟩ | ⟨-, error, hError⟩
      · exact hFit hRefused
      · cases hCodons.symm.trans hError
    · intro head
      rw [RuleCodons.readerOf?_of hOf]
      cases hPlace : chromosomes[grammar.placeOf head]? with
      | none =>
        rw [List.getElem?_eq_none_iff] at hPlace
        rw [Option.bind_none, List.getElem?_eq_none_iff]
        omega
      | some chromosome =>
        obtain ⟨codons, hMember, hCodons⟩ := getElem?_of_forall₂ hAll hPlace
        rw [hMember, Option.bind_some, ofInts_of_reader hCodons]
        rfl
  · obtain ⟨chromosome, hMember, rfl⟩ := List.mem_map.mp hSource
    rw [hFailure]
    rcases Decoding.byRule.reader_cases chromosome with
      ⟨-, codons, hCodons⟩ | ⟨hRefused, error, hRefusal⟩
    · cases hError.symm.trans hCodons
    · cases hError.symm.trans hRefusal
      exact .inr ⟨⟨chromosome, hMember, hRefused⟩, error, rfl⟩

/-! ## Indexes -/

/-- An index with codons for every rule that can be asked for. -/
def Index.Serves (grammar : Grammar) : Index → Prop
  | shared _ => True
  | byRule codons => ∀ head rule, grammar.ruleFor? head = some rule →
      ∃ reader, codons.readerOf? head = some reader
  | script _ => False

theorem RuleCodons.Reads.serves {codons : RuleCodons} {grammar : Grammar}
    {chromosomes : List (List Int)} (hReads : codons.Reads grammar chromosomes)
    (hLength : chromosomes.length = grammar.rules.length)
    (hFit : ∀ chromosome ∈ chromosomes, ¬ Decoding.byRule.Refuses chromosome) :
    (Index.byRule codons).Serves grammar := by
  intro head rule hRule
  obtain ⟨_, _, -, hReader⟩ := hReads.exists_reader hLength hFit hRule
  exact ⟨_, hReader⟩

namespace Codec

theorem indexChooser_byRule (codons : RuleCodons) (rule : Rule) (bound : Int) :
    indexChooser rule bound (.byRule codons)
      = ((codons.next rule.head bound).1.map Nat.cast,
          .byRule (codons.next rule.head bound).2) := by
  rw [indexChooser, Index.next]
  cases codons.next rule.head bound with
  | mk answer moved => cases answer <;> rfl

/-- A head that owns a reader is answered by it. -/
theorem indexChooser_own {codons : RuleCodons} {rule : Rule} {reader : Codons}
    (hReader : codons.readerOf? rule.head = some reader) {bound : Int} (hBound : 1 ≤ bound) :
    indexChooser rule bound (.byRule codons)
      = (.ok (reader.current % bound.toNat : Nat), .byRule (codons.next rule.head bound).2) := by
  rw [indexChooser_byRule, codons.next_answer, hReader]
  dsimp only
  rw [reader.next_eq hBound]
  rfl

/-- Codons are read modulo the number of alternatives, so they answer in range. -/
theorem serves_indexChooser (grammar : Grammar) :
    indexChooser.Serves grammar (Index.Serves grammar) := by
  intro head rule index hRule hServes
  have hArity := rule.arity_pos
  have hBound : (1 : Int) ≤ rule.arity := by omega
  cases index with
  | shared codons =>
    rw [Chooser.query, indexChooser_shared rule hBound]
    exact ⟨⟨_, rfl, Int.emod_nonneg _ (by omega), Int.emod_lt_of_pos _ (by omega)⟩, trivial⟩
  | byRule codons =>
    have hHead := Grammar.head_of_ruleFor? hRule
    obtain ⟨reader, hReader⟩ := hServes head rule hRule
    rw [← hHead] at hReader
    rw [Chooser.query, indexChooser_own hReader hBound]
    have hLess : reader.current % (rule.arity : Int).toNat < rule.arity := Nat.mod_lt _ hArity
    refine ⟨⟨_, rfl, Int.natCast_nonneg _, Int.ofNat_lt.mpr hLess⟩, ?_⟩
    intro other otherRule hOther
    rw [RuleCodons.readerOf?_next]
    split
    · exact ⟨_, by rw [hReader]; rfl⟩
    · exact hServes other otherRule hOther
  | script script => exact hServes.elim

/-- There is one chromosome for all rules, or one for each of them. -/
def Shaped (codec : Codec) : Prop :=
  codec.encoding.length = match codec.decoding with
    | .integers | .bits => 1
    | .byRule => codec.grammar.rules.length

theorem index_byRule {codec : Codec} (hDecoding : codec.decoding = .byRule)
    (chromosomes : List (List Int)) :
    (codec.indexSource (.ofIntegers chromosomes)).index codec.grammar
      = (CodonSource.readers codec.grammar (chromosomes.map Decoding.byRule.source)).map
          .byRule := by
  rw [indexSource, hDecoding, Genotype.ofIntegers]
  dsimp only
  rw [List.map_map]
  rfl

theorem index_shared_cases (grammar : Grammar) (decoding : Decoding) (chromosome : List Int) :
    (¬ decoding.Refuses chromosome ∧
        ∃ codons, (IndexSource.shared (decoding.source chromosome)).index grammar
          = .ok (.shared codons)) ∨
      (decoding.Refuses chromosome ∧
        ∃ error, (IndexSource.shared (decoding.source chromosome)).index grammar
          = .error (.codons error)) := by
  rw [IndexSource.index]
  rcases decoding.reader_cases chromosome with
    ⟨hFit, codons, hCodons⟩ | ⟨hRefused, error, hError⟩
  · rw [hCodons]
    exact .inl ⟨hFit, codons, rfl⟩
  · rw [hError]
    exact .inr ⟨hRefused, error, rfl⟩

/-- Of chromosomes in the right number an index is made that can answer all queries, unless one of
them is refused. -/
theorem index_cases {codec : Codec} (hShaped : codec.Shaped) {chromosomes : List (List Int)}
    (hLength : chromosomes.length = codec.encoding.length) :
    ((∀ chromosome ∈ chromosomes, ¬ codec.decoding.Refuses chromosome) ∧
        ∃ index, (codec.indexSource (.ofIntegers chromosomes)).index codec.grammar = .ok index ∧
          index.Serves codec.grammar) ∨
      ((∃ chromosome ∈ chromosomes, codec.decoding.Refuses chromosome) ∧
        ∃ error, (codec.indexSource (.ofIntegers chromosomes)).index codec.grammar
          = .error (.codons error)) := by
  rw [hShaped] at hLength
  cases hDecoding : codec.decoding with
  | integers | bits =>
    rw [hDecoding] at hLength
    obtain ⟨chromosome, rfl⟩ := List.length_eq_one_iff.mp hLength
    rw [indexSource, hDecoding]
    rcases index_shared_cases codec.grammar _ chromosome with
      ⟨hFit, codons, hCodons⟩ | ⟨hRefused, hError⟩
    · exact .inl ⟨List.forall_mem_singleton.mpr hFit, _, hCodons, trivial⟩
    · exact .inr ⟨⟨chromosome, List.mem_singleton_self _, hRefused⟩, hError⟩
  | byRule =>
    rw [hDecoding] at hLength
    rw [index_byRule hDecoding]
    rcases CodonSource.readers_cases hLength with
      ⟨hFit, codons, hCodons, hReads⟩ | ⟨hRefused, error, hError⟩
    · rw [hCodons]
      exact .inl ⟨hFit, .byRule codons, rfl, hReads.serves hLength hFit⟩
    · rw [hError]
      exact .inr ⟨hRefused, error, rfl⟩

end Codec

end CodonGrammar
