import CodonGrammar.Proofs.Codec.Coverage
import CodonGrammar.Proofs.Codec.Reading
import CodonGrammar.Proofs.Codec.Sampling

/-!
# When decoding fails

A codec is made from numbers that have been checked, and the checks are strong enough: with a
positive limit, decoding fails only if the number of chromosomes is wrong or one of them is refused
by its reader, and a genotype that the codec has drawn never fails (`Codec.decode_total`). No
derivation fails, since there are codons for every rule that can be asked for and they are read
modulo the number of its alternatives.
-/

namespace CodonGrammar

namespace Codec

/-- The codecs of a grammar with a limit for their derivations, whose fields come from a reader. The
number of codons in bits is an integer: with a fraction of a codon, chromosomes would be drawn that
are too short for one. -/
inductive Made (reader : FieldReader) (grammar : Grammar) (limit : Int) (codec : Codec) : Prop where
  | integers {range : RangeInput} {lengths : CountInput} :
      ofIntegers reader grammar range lengths limit = .ok codec → Made reader grammar limit codec
  | bits {count : Int} :
      ofBits reader grammar (.integer count) limit = .ok codec → Made reader grammar limit codec
  | byRule {length : Nat → Int} {strategy : Strategy} :
      ofRules reader grammar length strategy limit = .ok codec → Made reader grammar limit codec

/-- The chromosomes of bits that a codec specifies are long enough for a codon. -/
theorem bitsPerCodon_le_length {reader : FieldReader} {grammar : Grammar} {count limit : Int}
    {codec : Codec} (h : ofBits reader grammar (.integer count) limit = .ok codec) :
    ∀ spec ∈ codec.encoding, bitsPerCodon ≤ spec.length := by
  simp only [ofBits, Datum.times] at h
  split at h
  · cases h
  · rename_i spec hSpec
    cases h
    refine List.forall_mem_singleton.mpr ?_
    obtain ⟨-, -, -, hLength, -⟩ := ChromosomeSpec.fields_of_ofFields hSpec
    have hNumber := ChromosomeSpec.length_of_lengthField hLength
    have hPositive := spec.length_pos
    rw [bitsPerCodon] at hNumber ⊢
    dsimp only at hNumber
    omega

section Made

variable {reader : FieldReader} {grammar : Grammar} {limit : Int} {codec : Codec}
  (hMade : codec.Made reader grammar limit)

include hMade

theorem Made.limit_eq : codec.limit = limit := by
  cases hMade with
  | integers h =>
    obtain ⟨spec, rfl⟩ := eq_of_ofIntegers h
    rfl
  | bits h =>
    obtain ⟨spec, rfl⟩ := eq_of_ofBits h
    rfl
  | byRule h =>
    obtain ⟨-, -, -, hLimit, -⟩ := eq_of_ofRules h
    exact hLimit

theorem Made.shaped : codec.Shaped := by
  cases hMade with
  | integers h =>
    obtain ⟨spec, rfl⟩ := eq_of_ofIntegers h
    rfl
  | bits h =>
    obtain ⟨spec, rfl⟩ := eq_of_ofBits h
    rfl
  | byRule h =>
    obtain ⟨hGrammar, hDecoding, -, -, hSpecs⟩ := eq_of_ofRules h
    rw [Shaped, hDecoding, hGrammar]
    exact hSpecs.length_eq.symm

theorem Made.length_of_bits (hBits : codec.decoding = .bits) :
    ∀ spec ∈ codec.encoding, bitsPerCodon ≤ spec.length := by
  cases hMade with
  | integers h =>
    obtain ⟨spec, rfl⟩ := eq_of_ofIntegers h
    cases hBits
  | bits h => exact bitsPerCodon_le_length h
  | byRule h =>
    obtain ⟨-, hDecoding, -, -, -⟩ := eq_of_ofRules h
    cases hDecoding.symm.trans hBits

/-- No chromosome that conforms to the encoding is refused. -/
theorem Made.not_refuses {chromosomes : List (List Int)} (hAllows : codec.Allows chromosomes) :
    ∀ chromosome ∈ chromosomes, ¬ codec.decoding.Refuses chromosome := by
  intro chromosome hMember
  obtain ⟨place, hPlace⟩ := List.mem_iff_getElem?.mp hMember
  obtain ⟨spec, hSpec, hAllowed⟩ := getElem?_of_forall₂ hAllows.flip hPlace
  have hLength := hAllowed.length_le
  have hPositive := spec.length_pos
  have hReadable : ¬ (chromosome = [] ∨ ∃ value ∈ chromosome, value < 0) := by
    rintro (rfl | ⟨value, hValue, hNegative⟩)
    · rw [List.length_nil] at hLength
      omega
    · have hLower := (hAllowed.range value hValue).1
      omega
  cases hDecoding : codec.decoding with
  | integers | byRule => exact hReadable
  | bits =>
    have hEnough := hMade.length_of_bits hDecoding spec (List.mem_of_getElem? hSpec)
    exact Nat.not_lt.mpr (Nat.le_trans hEnough hLength)

end Made

/-- The three outcomes of decoding integers. -/
theorem decode_cases {codec : Codec} (hShaped : codec.Shaped) (hLimit : 1 ≤ codec.limit)
    (chromosomes : List (List Int)) :
    (chromosomes.length ≠ codec.encoding.length ∧
        codec.decode (.ofIntegers chromosomes)
          = .error (.chromosomeCount codec.encoding.length chromosomes.length)) ∨
      ((∃ chromosome ∈ chromosomes, codec.decoding.Refuses chromosome) ∧
        ∃ reason, codec.decode (.ofIntegers chromosomes) = .error (.source (.codons reason))) ∨
      (chromosomes.length = codec.encoding.length ∧
        (∀ chromosome ∈ chromosomes, ¬ codec.decoding.Refuses chromosome) ∧
        ∃ sentence, codec.decode (.ofIntegers chromosomes) = .ok sentence) := by
  have hGenotype : (Genotype.ofIntegers chromosomes).length = chromosomes.length :=
    List.length_map _
  by_cases hLength : chromosomes.length = codec.encoding.length
  · rcases index_cases hShaped hLength with
      ⟨hFit, index, hIndex, hServes⟩ | ⟨hRefused, reason, hError⟩
    · obtain ⟨queries, sentence, last, hDecides, hAnswers⟩ :=
        (serves_indexChooser codec.grammar).exists_decides (.sentence codec.strategy)
          (by omega : 1 ≤ codec.limit.toNat) hServes
      have hDecode := decode_of_derive (hGenotype.trans hLength) hIndex hLimit
        (hDecides.run hAnswers)
      exact .inr (.inr ⟨hLength, hFit, sentence, hDecode⟩)
    · refine .inr (.inl ⟨hRefused, reason, ?_⟩)
      rw [decode, run, if_neg (by omega), hError]
      rfl
  · refine .inl ⟨hLength, ?_⟩
    rw [decode, run, if_pos (by omega), hGenotype]
    rfl

/-- With a positive limit, a codec fails to decode lists of integers only if there are too many or
too few of them or one of them is refused, and it says so. A genotype that it draws from a random
source is drawn with calls for non-empty ranges only, conforms to its encoding and is decoded. This
holds whatever the reader of its fields takes for an integer. -/
theorem decode_total {reader : FieldReader} {grammar : Grammar} {limit : Int} {codec : Codec}
    (hMade : codec.Made reader grammar limit) (hLimit : 1 ≤ limit) :
    (∀ chromosomes : List (List Int),
      ((∃ error, codec.decode (.ofIntegers chromosomes) = .error error) ↔
        chromosomes.length ≠ codec.encoding.length ∨
          ∃ chromosome ∈ chromosomes, codec.decoding.Refuses chromosome) ∧
      ∀ error, codec.decode (.ofIntegers chromosomes) = .error error →
        error = .chromosomeCount codec.encoding.length chromosomes.length ∨
          ∃ reason, error = .source (.codons reason)) ∧
    ∀ (σ : Type) (source : RandomSource σ) (state : σ), source.Bounded →
      ∃ chromosomes last calls sentence,
        codec.newGenotype source state = (chromosomes, last) ∧
        codec.newGenotype source.recorded (state, []) = (chromosomes, (last, calls)) ∧
        (∀ call ∈ calls, call.lower < call.upper) ∧
        codec.Allows chromosomes ∧
        codec.decode (.ofIntegers chromosomes) = .ok sentence := by
  have hCases := decode_cases hMade.shaped (hMade.limit_eq ▸ hLimit)
  constructor
  · intro chromosomes
    rcases hCases chromosomes with
      ⟨hLength, hDecode⟩ | ⟨hRefused, reason, hDecode⟩ | ⟨hLength, hFit, sentence, hDecode⟩
    · rw [hDecode]
      refine ⟨⟨fun _ => .inl hLength, fun _ => ⟨_, rfl⟩⟩, ?_⟩
      rintro error ⟨⟩
      exact .inl rfl
    · rw [hDecode]
      refine ⟨⟨fun _ => .inr hRefused, fun _ => ⟨_, rfl⟩⟩, ?_⟩
      rintro error ⟨⟩
      exact .inr ⟨reason, rfl⟩
    · rw [hDecode]
      refine ⟨⟨?_, ?_⟩, ?_⟩
      · rintro ⟨error, ⟨⟩⟩
      · rintro (hOther | ⟨chromosome, hMember, hRefused⟩)
        · exact absurd hLength hOther
        · exact absurd hRefused (hFit chromosome hMember)
      · rintro error ⟨⟩
  · intro σ source state hSource
    obtain ⟨calls, hCalls, hKept⟩ := codec.kept_newGenotype source state
    have hAllows := codec.allows_newGenotype hSource state
    have hKeptEmpty := hKept []
    rw [List.append_nil] at hKeptEmpty
    rcases hCases (codec.newGenotype source state).1 with
      ⟨hLength, -⟩ | ⟨⟨chromosome, hMember, hRefused⟩, -⟩ | ⟨-, -, sentence, hDecode⟩
    · exact absurd hAllows.length_eq.symm hLength
    · exact absurd hRefused (hMade.not_refuses hAllows chromosome hMember)
    · exact ⟨_, _, calls, sentence, rfl, hKeptEmpty, hCalls, hAllows, hDecode⟩

/-- A codec for a grammar in which a head has two rules and a symbol has none: it refuses a negative
value, and decodes what it draws. -/
theorem decode_total_duplicate :
    let a : NonTerminal := ⟨"a"⟩
    let x : Symbol := .terminal ⟨"x", by decide⟩
    let y : Symbol := .terminal ⟨"y", by decide⟩
    let grammar : Grammar := ⟨[
      ⟨⟨"s"⟩, [⟨[.nonTerminal a, .nonTerminal ⟨"u"⟩], by simp⟩], by simp⟩,
      ⟨a, [.single x, .single y], by simp⟩, ⟨a, [.single y], by simp⟩], by simp⟩
    ∃ codec, ofRules .loose grammar (fun arity => arity) .leftMost 5 = .ok codec ∧ (1 : Int) ≤ 5 ∧
      (∃ reason,
        codec.decode (.ofIntegers [[0], [-1, 0], [0]]) = .error (.source (.codons reason))) ∧
      ∃ chromosomes last calls sentence,
        codec.newGenotype Draws.draw ⟨[3, 1], 0, by decide⟩ = (chromosomes, last) ∧
        codec.newGenotype Draws.draw.recorded (⟨[3, 1], 0, by decide⟩, [])
          = (chromosomes, (last, calls)) ∧
        (∀ call ∈ calls, call.lower < call.upper) ∧ codec.Allows chromosomes ∧
        codec.decode (.ofIntegers chromosomes) = .ok sentence := by
  intro a x y grammar
  have hBounded : Draws.draw.Bounded := fun _ _ draws hRange => Draws.draw_bounds hRange draws
  have hMade := Made.byRule (rfl : ofRules .loose grammar (fun arity => arity) .leftMost 5 = .ok _)
  obtain ⟨hDecode, hDraw⟩ := decode_total hMade (by decide)
  refine ⟨_, rfl, by decide, ?_, hDraw _ _ _ hBounded⟩
  obtain ⟨hFails, hErrors⟩ := hDecode [[0], [-1, 0], [0]]
  obtain ⟨error, hError⟩ := hFails.mpr (.inr ⟨[-1, 0], by simp, .inr ⟨-1, by simp, by decide⟩⟩)
  rcases hErrors error hError with rfl | ⟨reason, rfl⟩
  · cases hError
  · exact ⟨reason, hError⟩

end Codec

end CodonGrammar
