import CodonGrammar.Number.Loose
import CodonGrammar.Proofs.Codon.Turns
import CodonGrammar.Proofs.Derivation.Reachability
import CodonGrammar.Proofs.Derivation.Results
import Mathlib.Algebra.Group.Nat.Defs

/-!
# Every finished sentence has codons

The answers that derive a finished sentence can be written down as codons: each answer is below the
number of alternatives that it is asked with, so reading it modulo that number changes nothing
(`Codons.answers_ofValues`). So for each engine there are codons, one for each step, that derive
the sentence. Put into a chromosome as integers, or as bytes of eight bits, they are decoded to it
(`Grammar.exists_codons_of_derivesIn`).
-/

namespace CodonGrammar

variable {ε : Type}

/-! ## Codons from answers -/

/-- The place that a query is answered with. -/
def Query.place (query : Query ε) : Nat :=
  match query.answer with
  | .ok choice => choice.toNat
  | .error _ => 0

theorem Query.InRange.answer_eq {query : Query ε} (h : query.InRange) :
    query.answer = .ok (query.place : Int) ∧ (query.place : Int) < query.bound := by
  obtain ⟨choice, hAnswer, hLow, hHigh⟩ := h
  have hPlace : (query.place : Int) = choice := by
    simp only [place, hAnswer]
    omega
  rw [hPlace]
  exact ⟨hAnswer, hHigh⟩

/-- Codons that are the places of the answers give these answers, and then they are at their
beginning again. -/
theorem Codons.answers_ofValues {queries : List (Query RuleCodonsError)}
    (hRange : ∀ query ∈ queries, query.InRange) {values : List Nat}
    (hPlaces : queries.map Query.place = values) (hNonempty : values ≠ []) :
    Codec.indexChooser.Answers (.shared (.ofValues values hNonempty)) queries
      (.shared (.ofValues values hNonempty)) := by
  subst hPlaces
  have hBounds : ∀ query ∈ queries, 1 ≤ query.bound := by
    intro query hQuery
    obtain ⟨choice, -, hLow, hHigh⟩ := hRange query hQuery
    omega
  refine (answers_iff hBounds).mpr ⟨?_, ?_⟩
  · have hRound := iterate_advance_length hNonempty
    rw [List.length_map] at hRound
    rw [hRound]
  · intro turn query hQuery
    obtain ⟨hTurn, -⟩ := List.getElem?_eq_some_iff.mp hQuery
    obtain ⟨hAnswer, hLess⟩ := (hRange query (List.mem_of_getElem? hQuery)).answer_eq
    have hCodon := getElem?_turn hNonempty turn
    rw [List.length_map, Nat.mod_eq_of_lt hTurn, List.getElem?_map, hQuery] at hCodon
    rw [hAnswer, ← Option.some.inj hCodon, Int.emod_eq_of_lt (Int.natCast_nonneg _) hLess]

/-! ## Codons for a derivation -/

/-- The largest number of alternatives of a rule. -/
def Grammar.largestArity (grammar : Grammar) : Nat := (grammar.rules.map Rule.arity).max?.getD 0

theorem Grammar.arity_le_largestArity {grammar : Grammar} {head : NonTerminal} {rule : Rule}
    (h : grammar.ruleFor? head = some rule) : rule.arity ≤ grammar.largestArity :=
  List.le_max?_getD_of_mem (List.mem_map_of_mem (List.mem_of_find?_eq_some h))

theorem Grammar.largestArity_pos (grammar : Grammar) : 0 < grammar.largestArity :=
  Nat.lt_of_lt_of_le grammar.firstRule.arity_pos (arity_le_largestArity grammar.ruleFor?_start)

theorem Grammar.largestArity_le {grammar : Grammar} {bound : Nat}
    (h : ∀ rule ∈ grammar.rules, rule.arity ≤ bound) : grammar.largestArity ≤ bound := by
  rw [largestArity]
  cases hMax : (grammar.rules.map Rule.arity).max? with
  | none => exact Nat.zero_le bound
  | some largest =>
    obtain ⟨rule, hRule, rfl⟩ := List.mem_map.mp (List.max?_mem hMax)
    exact h rule hRule

/-- Codons with which an engine derives a word in a number of steps, whenever the limit allows as
many: they are as many as the steps, and all of them are read once. -/
structure Grammar.CodonsFor (grammar : Grammar) (engine : Engine) (count : Nat) (word : List Symbol)
    (values : List Nat) : Prop where
  nonempty : values ≠ []
  length_eq : values.length = count
  small : ∀ value ∈ values, value < grammar.largestArity
  run : ∀ limit, count ≤ limit →
    grammar.generate engine Codec.indexChooser limit (.shared (.ofValues values nonempty))
      = (.ok ⟨word, count⟩, .shared (.ofValues values nonempty))
  queries : ∀ limit, count ≤ limit → ∃ queries : List (Query RuleCodonsError),
    queries.length = count ∧
    grammar.generate engine Codec.indexChooser.traced limit
        (.shared (.ofValues values nonempty), [])
      = (.ok ⟨word, count⟩, (.shared (.ofValues values nonempty), queries))

/-- The derivation of a finished sentence, with codons instead of its steps. -/
theorem Grammar.exists_codons (grammar : Grammar) {count : Nat} {word : List Symbol}
    (hDerives : grammar.DerivesIn count [.nonTerminal grammar.start] word)
    (hWord : grammar.Finished word) (engine : Engine) :
    ∃ values, grammar.CodonsFor engine count word values := by
  obtain ⟨S, expander, read, start, hSound, hStart, hRun⟩ := grammar.exists_expander engine
  rw [← hStart] at hDerives
  obtain ⟨queries, last, hPlays, hLength, hLast, hStops⟩ :=
    hSound.exists_plays_of_derivesIn (ε := RuleCodonsError) hDerives hWord
  have hQueries := hSound.queries hPlays
  have hNonempty := hSound.queries_ne_nil hStart hPlays (Nat.le_refl 1) (.inr hStops)
  have hValues : queries.map Query.place ≠ [] := by simpa using hNonempty
  have hAnswers :=
    Codons.answers_ofValues (fun query hQuery => (hQueries query hQuery).2.2) rfl hValues
  have hPositive : 1 ≤ count := by
    have hSome := List.length_pos_iff.mpr hNonempty
    omega
  refine ⟨queries.map Query.place, hValues, by simpa using hLength, ?_, ?_, ?_⟩
  · intro value hValue
    obtain ⟨query, hQuery, rfl⟩ := List.mem_map.mp hValue
    obtain ⟨⟨head, hHead⟩, hBound, hRange⟩ := hQueries query hQuery
    have hLess := hRange.answer_eq.2
    have hArity := arity_le_largestArity hHead
    omega
  · intro limit hLimit
    rw [hRun _ limit _ (by omega),
      Expander.run_completed hPlays hAnswers (by omega) (.inr hStops)]
    simp [hLast, hLength, Nat.sub_sub_self hLimit]
  · intro limit hLimit
    refine ⟨queries.reverse, by simpa using hLength, ?_⟩
    rw [hRun _ limit _ (by omega),
      Expander.run_completed hPlays hAnswers.traced_all (by omega) (.inr hStops)]
    simp [hLast, hLength, Nat.sub_sub_self hLimit]

/-! ## Chromosomes for codons -/

theorem Codons.ofInts_natCast {values : List Nat} (hValues : values ≠ []) :
    ofInts (values.map Nat.cast) = .ok (ofValues values hValues) := by
  have hInts : (values.map Nat.cast : List Int) ≠ [] := by simpa using hValues
  have hNonnegative : ((values.map Nat.cast : List Int).any (· < 0)) = false := by simp
  have hBack : (values.map Nat.cast : List Int).map Int.toNat = values := by
    rw [List.map_map]
    exact List.map_id'' Int.toNat_natCast values
  simp only [ofInts, hInts, hNonnegative, hBack, dite_false, Bool.false_eq_true, if_false]

/-- The binary digits of a number, the least significant first. -/
def Codons.bitsOf : (count : Nat) → Nat → List Bool
  | 0, _ => []
  | count + 1, number => decide (number % 2 = 1) :: bitsOf count (number / 2)

namespace Codons

@[simp] theorem length_bitsOf (count number : Nat) : (bitsOf count number).length = count := by
  induction count generalizing number with
  | zero => rfl
  | succ count ih => simp [bitsOf, ih]

theorem byteOf_bitsOf {count number : Nat} (h : number < 2 ^ count) :
    byteOf (bitsOf count number) = number := by
  induction count generalizing number with
  | zero =>
    rw [Nat.pow_zero] at h
    simp only [bitsOf, byteOf]
    omega
  | succ count ih =>
    rw [Nat.pow_succ] at h
    have hBit : (decide (number % 2 = 1)).toNat = number % 2 := by
      rcases Nat.mod_two_eq_zero_or_one number with hEven | hOdd
      · rw [hEven]
        rfl
      · rw [hOdd]
        rfl
    rw [bitsOf, byteOf, ih (by omega), hBit]
    omega

theorem bytesOf_bitsOf {values : List Nat} (h : ∀ value ∈ values, value < 256) :
    bytesOf values.length (values.flatMap (bitsOf bitsPerCodon)) = values := by
  induction values with
  | nil => rfl
  | cons value rest ih =>
    obtain ⟨hValue, hRest⟩ := List.forall_mem_cons.mp h
    have hBits : (bitsOf bitsPerCodon value).length = bitsPerCodon := length_bitsOf _ _
    rw [List.length_cons, List.flatMap_cons, bytesOf, List.take_left' hBits,
      List.drop_left' hBits, byteOf_bitsOf hValue, ih hRest]

theorem length_flatMap_bitsOf (values : List Nat) :
    (values.flatMap (bitsOf bitsPerCodon)).length = bitsPerCodon * values.length := by
  induction values with
  | nil => rfl
  | cons value rest ih =>
    rw [List.flatMap_cons, List.length_append, ih, length_bitsOf, List.length_cons, Nat.mul_succ,
      Nat.add_comm]

theorem ofValues_congr {values others : List Nat} (h : values = others) (hValues : values ≠ [])
    (hOthers : others ≠ []) : ofValues values hValues = ofValues others hOthers := by
  subst h
  rfl

theorem ofBits_bitsOf {values : List Nat} (hValues : values ≠ [])
    (h : ∀ value ∈ values, value < 256) :
    ofBits (values.flatMap (bitsOf bitsPerCodon)) = .ok (ofValues values hValues) := by
  have hCount : (values.flatMap (bitsOf bitsPerCodon)).length / bitsPerCodon = values.length := by
    rw [length_flatMap_bitsOf]
    exact Nat.mul_div_cancel_left _ (by decide)
  have hPositive := List.length_pos_iff.mpr hValues
  rw [ofBits]
  split
  · omega
  · congr 1
    apply ofValues_congr
    rw [hCount, bytesOf_bitsOf h]

end Codons

/-- Bits as numbers. -/
def Datum.ofBits (bits : List Bool) : Datum :=
  .ofIntegers (bits.map fun bit => (bit.toNat : Int))

theorem CodonSource.reader_bits (digits : List Bool) :
    (bits (.ofBits digits)).reader = (Codons.ofBits digits).mapError .codons := by
  have hSet : ((digits.map fun bit => (bit.toNat : Int)).map Datum.integer).map Datum.isSet
      = digits := by
    rw [List.map_map, List.map_map]
    refine List.map_id'' ?_ digits
    intro bit
    cases bit <;> rfl
  rw [Datum.ofBits, Datum.ofIntegers, reader_list, hSet]

/-! ## Decoding -/

namespace Codec

theorem run_of_derive {codec : Codec} {genotype : Genotype} {index last : Index}
    {derived : Derived (List Symbol)} (hLength : genotype.length = codec.encoding.length)
    (hIndex : (codec.indexSource genotype).index codec.grammar = .ok index)
    (hLimit : 1 ≤ codec.limit)
    (hDerive : codec.grammar.derive indexChooser codec.strategy codec.limit.toNat index
      = (.ok derived, last)) :
    codec.run genotype = .ok derived := by
  have hCheck : checkLimit codec.limit = .ok codec.limit.toNat := by
    have hPositive : ¬ codec.limit < 1 := by omega
    rw [checkLimit, if_neg hPositive]
  simp [run, hLength, hIndex, hCheck, hDerive]

theorem decode_of_derive {codec : Codec} {genotype : Genotype} {index last : Index}
    {word : List Symbol} {count : Nat} (hLength : genotype.length = codec.encoding.length)
    (hIndex : (codec.indexSource genotype).index codec.grammar = .ok index)
    (hLimit : 1 ≤ codec.limit)
    (hDerive : codec.grammar.derive indexChooser codec.strategy codec.limit.toNat index
      = (.ok ⟨word, count⟩, last)) :
    codec.decode genotype = .ok word := by
  rw [decode, run_of_derive hLength hIndex hLimit hDerive]
  rfl

/-- A codec of integers has its chromosome read by one reader for all rules. -/
theorem index_integers {codec : Codec} (hDecoding : codec.decoding = .integers)
    {chromosome : List Int} {codons : Codons} (hCodons : Codons.ofInts chromosome = .ok codons) :
    (codec.indexSource (.ofIntegers [chromosome])).index codec.grammar
      = .ok (.shared codons) := by
  have hReader := CodonSource.reader_integers chromosome
  rw [hCodons] at hReader
  rw [indexSource, hDecoding, Genotype.ofIntegers]
  simp only [List.map_cons, List.headD_cons, IndexSource.index, hReader]
  rfl

theorem eq_of_ofIntegers {reader : FieldReader} {grammar : Grammar} {range : RangeInput}
    {lengths : CountInput} {limit : Int} {codec : Codec}
    (h : ofIntegers reader grammar range lengths limit = .ok codec) :
    ∃ spec, codec = ⟨grammar, [spec], .integers, .leftToRight, limit, by simp⟩ := by
  rw [ofIntegers] at h
  split at h
  · cases h
  · split at h
    · cases h
    · cases h
      exact ⟨_, rfl⟩

theorem eq_of_ofBits {reader : FieldReader} {grammar : Grammar} {lengths : Datum} {limit : Int}
    {codec : Codec} (h : ofBits reader grammar lengths limit = .ok codec) :
    ∃ spec, codec = ⟨grammar, [spec], .bits, .leftToRight, limit, by simp⟩ := by
  rw [ofBits] at h
  split at h
  · cases h
  · dsimp only at h
    split at h
    · cases h
    · cases h
      exact ⟨_, rfl⟩

theorem exists_spec (reader : FieldReader) {kind : Option Datum} {word : ChromosomeKind}
    {lower upper length : Int} (hKind : ChromosomeSpec.kindField kind = .ok word)
    (hLower : 0 ≤ lower) (hUpper : lower < upper) (hLength : 1 ≤ length)
    (hBits : word = .bit → lower = 0 ∧ upper = 2) :
    ∃ spec, ChromosomeSpec.ofFields reader
        ⟨kind, some (.integer lower), some (.integer upper), some (.integer length), none⟩
          = .ok spec ∧
      (spec.lower : Int) = lower ∧ (spec.upper : Int) = upper := by
  have hNonnegative : ¬ lower < 0 := by omega
  have hLowerField : ChromosomeSpec.lowerField reader (some (.integer lower))
      = .ok lower.toNat := by
    simp [ChromosomeSpec.lowerField, FieldReader.readFrom, hNonnegative, Except.map]
  have hLengthField : ChromosomeSpec.lengthField reader (some (.integer length))
      = .ok ⟨length.toNat, by omega⟩ := by
    simp [ChromosomeSpec.lengthField, FieldReader.readPositive, hLength]
  have hRange : (lower.toNat : Int) < upper := by omega
  have hZero : word = .bit → lower.toNat = 0 ∧ upper = 2 := by
    intro hBit
    have hEnds := hBits hBit
    omega
  have hNoMost : ∀ most, Option.none = some most → length.toNat < most := by
    intro most hMost
    cases hMost
  refine ⟨⟨word, lower.toNat, upper.toNat, length.toNat, none, by omega, by omega,
    ChromosomeSpec.bitRange_toNat hZero, hNoMost⟩, ?_, ?_, ?_⟩
  · simp only [ChromosomeSpec.ofFields, hKind, hLowerField, hLengthField,
      ChromosomeSpec.upperField, ChromosomeSpec.maxLengthField, FieldReader.read_integer,
      ChromosomeSpec.ofNumbers, dif_pos hRange, dif_pos hZero]
  · exact Int.toNat_of_nonneg hLower
  · exact Int.toNat_of_nonneg (by omega)

/-- There is a codec of integers from zero on for every bound and every length. -/
theorem exists_ofIntegers (reader : FieldReader) (grammar : Grammar) {upper length : Int} (limit : Int)
    (hUpper : 0 < upper) (hLength : 1 ≤ length) :
    ∃ codec,
      ofIntegers reader grammar (.ends 0 upper) (.fixed (.integer length)) limit = .ok codec ∧
      ∀ spec ∈ codec.encoding, spec.lower = 0 ∧ (spec.upper : Int) = upper := by
  have hKind : ChromosomeSpec.kindField none = .ok .integer := rfl
  obtain ⟨spec, hSpec, hRange⟩ :=
    exists_spec reader hKind (Int.le_refl 0) hUpper hLength (by simp)
  refine ⟨_, by simp only [ofIntegers, intFields, RangeInput.ends?, hSpec]; rfl, ?_⟩
  intro other hOther
  obtain rfl := List.mem_singleton.mp hOther
  omega

/-- There is a codec of bits for every number of codons. -/
theorem exists_ofBits (reader : FieldReader) (grammar : Grammar) {count : Int} (limit : Int)
    (hCount : 1 ≤ count) : ∃ codec, ofBits reader grammar (.integer count) limit = .ok codec := by
  have hKind : ChromosomeSpec.kindField (some (.text ChromosomeKind.bit.word)) = .ok .bit := rfl
  have hLength : 1 ≤ count * bitsPerCodon := by
    rw [bitsPerCodon]
    omega
  obtain ⟨spec, hSpec, -⟩ :=
    exists_spec reader hKind (Int.le_refl 0) (by decide : (0 : Int) < 2) hLength fun _ => ⟨rfl, rfl⟩
  exact ⟨_, by simp only [ofBits, Datum.times, hSpec]; rfl⟩

end Codec

namespace Grammar

section Decode

variable {reader : FieldReader} {grammar : Grammar} {count : Nat} {word : List Symbol}
  (hDerives : grammar.DerivesIn count [.nonTerminal grammar.start] word)
  (hWord : grammar.Finished word)

include hDerives hWord

theorem exists_values_decode {range : RangeInput} {lengths : CountInput} {limit : Int}
    {codec : Codec} (hCodec : Codec.ofIntegers reader grammar range lengths limit = .ok codec)
    (hLimit : count ≤ limit)
    (hRange : ∀ spec ∈ codec.encoding, spec.lower = 0 ∧ grammar.largestArity ≤ spec.upper) :
    ∃ values : List Int,
      (∀ value ∈ values, ∀ spec ∈ codec.encoding, spec.lower ≤ value ∧ value < spec.upper) ∧
      codec.decode (Genotype.ofIntegers [values]) = .ok word := by
  obtain ⟨spec, rfl⟩ := Codec.eq_of_ofIntegers hCodec
  obtain ⟨values, hValues, hLength, hSmall, hRuns, -⟩ :=
    grammar.exists_codons hDerives hWord (.sentence .leftToRight)
  have hPositive := List.length_pos_iff.mpr hValues
  have hRun := hRuns limit.toNat (by omega)
  obtain ⟨hLower, hUpper⟩ := hRange spec (List.mem_singleton.mpr rfl)
  refine ⟨values.map Nat.cast, ?_, ?_⟩
  · intro value hValue other hOther
    obtain ⟨codon, hCodon, rfl⟩ := List.mem_map.mp hValue
    obtain rfl := List.mem_singleton.mp hOther
    have hCodonSmall := hSmall codon hCodon
    omega
  · refine Codec.decode_of_derive rfl ?_ (by dsimp only; omega) hRun
    exact Codec.index_integers rfl (Codons.ofInts_natCast hValues)

theorem exists_bits_decode {lengths : Datum} {limit : Int} {codec : Codec}
    (hCodec : Codec.ofBits reader grammar lengths limit = .ok codec) (hLimit : count ≤ limit)
    (hArity : ∀ rule ∈ grammar.rules, rule.arity ≤ 256) :
    ∃ bits : List Bool, bits.length = 8 * count ∧ codec.decode [.ofBits bits] = .ok word := by
  obtain ⟨spec, rfl⟩ := Codec.eq_of_ofBits hCodec
  obtain ⟨values, hValues, hLength, hSmall, hRuns, -⟩ :=
    grammar.exists_codons hDerives hWord (.sentence .leftToRight)
  have hPositive := List.length_pos_iff.mpr hValues
  have hRun := hRuns limit.toNat (by omega)
  have hBytes : ∀ value ∈ values, value < 256 := by
    intro value hValue
    exact Nat.lt_of_lt_of_le (hSmall value hValue) (grammar.largestArity_le hArity)
  refine ⟨values.flatMap (Codons.bitsOf bitsPerCodon), ?_, ?_⟩
  · rw [Codons.length_flatMap_bitsOf, hLength]
    rfl
  · refine Codec.decode_of_derive rfl ?_ (by dsimp only; omega) hRun
    have hReader := CodonSource.reader_bits (values.flatMap (Codons.bitsOf bitsPerCodon))
    rw [Codons.ofBits_bitsOf hValues hBytes] at hReader
    simp only [Codec.indexSource, List.headD_cons, IndexSource.index, hReader]
    rfl

end Decode

/-- A finished sentence that steps of the grammar derive from the start symbol has codons for every
engine, one for each step and each below the largest number of alternatives. A codec of integers
decodes values of its range to it, if the range begins at zero and holds all such codons, and a
codec of bits decodes eight bits for each step to it, if bytes hold all such codons. There are such
codecs, whatever else the reader of their fields takes for an integer. -/
theorem exists_codons_of_derivesIn (grammar : Grammar) {count : Nat} {word : List Symbol}
    (hDerives : grammar.DerivesIn count [.nonTerminal grammar.start] word)
    (hWord : grammar.Finished word) :
    (∀ engine, ∃ values, grammar.CodonsFor engine count word values) ∧
    (∀ (reader : FieldReader) (upper length limit : Int), grammar.largestArity ≤ upper →
      1 ≤ length → ∃ codec,
        Codec.ofIntegers reader grammar (.ends 0 upper) (.fixed (.integer length)) limit
          = .ok codec ∧
        ∀ spec ∈ codec.encoding, spec.lower = 0 ∧ grammar.largestArity ≤ spec.upper) ∧
    (∀ reader range lengths (limit : Int) codec,
      Codec.ofIntegers reader grammar range lengths limit = .ok codec → count ≤ limit →
      (∀ spec ∈ codec.encoding, spec.lower = 0 ∧ grammar.largestArity ≤ spec.upper) →
      ∃ values : List Int,
        (∀ value ∈ values, ∀ spec ∈ codec.encoding, spec.lower ≤ value ∧ value < spec.upper) ∧
        codec.decode (Genotype.ofIntegers [values]) = .ok word) ∧
    (∀ (reader : FieldReader) (codons limit : Int), 1 ≤ codons →
      ∃ codec, Codec.ofBits reader grammar (.integer codons) limit = .ok codec) ∧
    (∀ reader lengths (limit : Int) codec,
      Codec.ofBits reader grammar lengths limit = .ok codec → count ≤ limit →
      (∀ rule ∈ grammar.rules, rule.arity ≤ 256) →
      ∃ bits : List Bool, bits.length = 8 * count ∧ codec.decode [.ofBits bits] = .ok word) := by
  refine ⟨grammar.exists_codons hDerives hWord, ?_, ?_, ?_, ?_⟩
  · intro reader upper length limit hUpper hLength
    have hPositive := grammar.largestArity_pos
    obtain ⟨codec, hCodec, hRange⟩ :=
      Codec.exists_ofIntegers reader grammar limit (by omega : 0 < upper) hLength
    refine ⟨codec, hCodec, ?_⟩
    intro spec hSpec
    have hEnds := hRange spec hSpec
    omega
  · intro reader range lengths limit codec hCodec hLimit hRange
    exact exists_values_decode hDerives hWord hCodec hLimit hRange
  · intro reader codons limit hCodons
    exact Codec.exists_ofBits reader grammar limit hCodons
  · intro reader lengths limit codec hCodec hLimit hArity
    exact exists_bits_decode hDerives hWord hCodec hLimit hArity

/-- A right-most derivation, for which a tree and both codecs have codons. -/
theorem exists_codons_of_derivesIn_rightmost :
    let x : Symbol := .terminal ⟨"x", by decide⟩
    let y : Symbol := .terminal ⟨"y", by decide⟩
    let a : Symbol := .nonTerminal ⟨"a"⟩
    let grammar : Grammar := ⟨[
      ⟨⟨"s"⟩, [⟨[a, a], by simp⟩], by simp⟩, ⟨⟨"a"⟩, [.single x, .single y], by simp⟩], by simp⟩
    grammar.DerivesIn 3 [.nonTerminal ⟨"s"⟩] [x, y] ∧ grammar.Finished [x, y] ∧
      (∃ values, grammar.CodonsFor .tree 3 [x, y] values) ∧
      (∃ codec values,
        Codec.ofIntegers .loose grammar (.ends 0 5) (.fixed (.integer 2)) 3 = .ok codec ∧
        (∀ value ∈ values, 0 ≤ value ∧ value < 5) ∧
        codec.decode (Genotype.ofIntegers [values]) = .ok [x, y]) ∧
      ∃ (codec : Codec) (bits : List Bool),
        Codec.ofBits .loose grammar (.integer 2) 3 = .ok codec ∧
        bits.length = 24 ∧ codec.decode [.ofBits bits] = .ok [x, y] := by
  intro x y a grammar
  have hDerives : grammar.DerivesIn 3 [.nonTerminal ⟨"s"⟩] [x, y] := by
    have hStart : grammar.Rewrites [.nonTerminal ⟨"s"⟩] [a, a] :=
      @Rewrites.expand grammar [] [] _ _ ⟨[a, a], by simp⟩ rfl (by simp)
    have hSecond : grammar.Rewrites [a, a] [a, y] :=
      @Rewrites.expand grammar [a] [] _ _ (.single y) rfl (by simp)
    have hFirst : grammar.Rewrites [a, y] [x, y] :=
      @Rewrites.expand grammar [] [y] _ _ (.single x) rfl (by simp)
    exact .succ hStart (.succ hSecond (.succ hFirst (.zero _)))
  have hWord : grammar.Finished [x, y] := by
    rintro symbol hSymbol
    obtain rfl | rfl : symbol = x ∨ symbol = y := by simpa using hSymbol
    · rfl
    · rfl
  obtain ⟨hEngines, -, hIntegers, -, hBits⟩ := exists_codons_of_derivesIn grammar hDerives hWord
  refine ⟨hDerives, hWord, hEngines .tree, ?_, ?_⟩
  · obtain ⟨values, hRange, hDecode⟩ :=
      hIntegers .loose (.ends 0 5) (.fixed (.integer 2)) 3 _ rfl (by decide) (by decide)
    exact ⟨_, values, rfl, fun value hValue => hRange value hValue _ (List.mem_singleton.mpr rfl),
      hDecode⟩
  · obtain ⟨bits, hLength, hDecode⟩ := hBits .loose (.integer 2) 3 _ rfl (by decide) (by decide)
    exact ⟨_, bits, rfl, hLength, hDecode⟩

end Grammar

end CodonGrammar
