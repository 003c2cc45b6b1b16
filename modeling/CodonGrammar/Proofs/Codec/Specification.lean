import CodonGrammar.Codec.Basic
import Mathlib.Data.List.Forall2

/-!
# What a specification allows

A chromosome conforms to a specification if its values and its length lie in the ranges of the
specification (`ChromosomeSpec.Allows`), and a genotype conforms to the encoding of a codec if each
of its chromosomes conforms to the specification in the same place (`Codec.Allows`). The numbers of
a specification are those of the fields that it is made from (`ChromosomeSpec.fields_of_ofFields`),
so the encoding of a codec by rules says how many alternatives each rule has.
-/

namespace CodonGrammar

/-- A list is gone through to its end with an outcome for each member, or it has the error of one of
its members. -/
theorem mapM_cases {ε α β : Type} (f : α → Except ε β) (inputs : List α) :
    (∃ outputs, inputs.mapM f = .ok outputs ∧
        List.Forall₂ (fun input output => f input = .ok output) inputs outputs) ∨
      ∃ error, inputs.mapM f = .error error ∧ ∃ input ∈ inputs, f input = .error error := by
  induction inputs with
  | nil => exact .inl ⟨[], rfl, .nil⟩
  | cons input rest ih =>
    rw [List.mapM_cons]
    cases hFirst : f input with
    | error error => exact .inr ⟨error, rfl, input, List.mem_cons_self, hFirst⟩
    | ok output =>
      rcases ih with ⟨outputs, hRest, hAll⟩ | ⟨error, hRest, found, hMem, hFound⟩
      · rw [hRest]
        exact .inl ⟨output :: outputs, rfl, .cons hFirst hAll⟩
      · rw [hRest]
        exact .inr ⟨error, rfl, found, List.mem_cons_of_mem _ hMem, hFound⟩

theorem getElem?_of_forall₂ {α β : Type} {related : α → β → Prop} {inputs : List α}
    {outputs : List β} (h : List.Forall₂ related inputs outputs) {place : Nat} {input : α}
    (hInput : inputs[place]? = some input) :
    ∃ output, outputs[place]? = some output ∧ related input output := by
  induction h generalizing place with
  | nil => cases hInput
  | cons hFirst _ ih =>
    cases place with
    | zero =>
      cases hInput
      exact ⟨_, rfl, hFirst⟩
    | succ place => exact ih hInput

/-! ## Fields -/

namespace ChromosomeSpec

theorem numbers_of_ofNumbers {kind : ChromosomeKind} {lower : Nat} {upper : Int} {length : Nat}
    {hLength : 1 ≤ length} {maxLength : Option Int} {spec : ChromosomeSpec}
    (h : ofNumbers kind lower upper length hLength maxLength = .ok spec) :
    spec.kind = kind ∧ spec.lower = lower ∧ (spec.upper : Int) = upper ∧ spec.length = length ∧
      spec.maxLength.map Nat.cast = maxLength := by
  rw [ofNumbers] at h
  split at h
  · rename_i hRange
    split at h
    · split at h
      · cases h
        exact ⟨rfl, rfl, Int.toNat_of_nonneg (by omega), rfl, rfl⟩
      · split at h
        · rename_i most hLonger
          cases h
          refine ⟨rfl, rfl, Int.toNat_of_nonneg (by omega), rfl, ?_⟩
          rw [Option.map_some, Int.toNat_of_nonneg (by omega)]
        · cases h
    · cases h
  · cases h

variable {reader : FieldReader}

/-- The numbers of a specification are those in its fields. -/
theorem fields_of_ofFields {fields : ChromosomeFields} {spec : ChromosomeSpec}
    (h : ofFields reader fields = .ok spec) :
    kindField fields.kind = .ok spec.kind ∧ lowerField reader fields.lower = .ok spec.lower ∧
      upperField reader fields.upper = .ok spec.upper ∧
      lengthField reader fields.length = .ok ⟨spec.length, spec.length_pos⟩ ∧
      maxLengthField reader fields.maxLength = .ok (spec.maxLength.map Nat.cast) := by
  rw [ofFields] at h
  split at h
  · rename_i kind lower upper length hPositive maxLength hKind hLower hUpper hLength hMaxLength
    split at h
    · rename_i made hMade
      cases h
      obtain ⟨rfl, rfl, hSpecUpper, rfl, hSpecMost⟩ := numbers_of_ofNumbers hMade
      rw [hSpecUpper, hSpecMost]
      exact ⟨hKind, hLower, hUpper, hLength, hMaxLength⟩
    · cases h
  · cases h

theorem upper_of_upperField {number upper : Int}
    (h : upperField reader (some (.integer number)) = .ok upper) : upper = number := by
  rw [upperField, FieldReader.read_integer] at h
  exact (Except.ok.inj h).symm

theorem length_of_lengthField {number : Int} {length : Positive}
    (h : lengthField reader (some (.integer number)) = .ok length) :
    (length.val : Int) = number := by
  simp only [lengthField, FieldReader.readPositive, FieldReader.read_integer] at h
  split at h
  · cases h
    exact Int.toNat_of_nonneg (by omega)
  · cases h

/-- A chromosome whose values and length are those of a specification. -/
structure Allows (spec : ChromosomeSpec) (chromosome : List Int) : Prop where
  range : ∀ value ∈ chromosome, spec.lower ≤ value ∧ value < spec.upper
  fixed : spec.maxLength = none → chromosome.length = spec.length
  ranged : ∀ most, spec.maxLength = some most →
    spec.length ≤ chromosome.length ∧ chromosome.length < most

instance (spec : ChromosomeSpec) (chromosome : List Int) : Decidable (spec.Allows chromosome) :=
  decidable_of_iff
    ((∀ value ∈ chromosome, spec.lower ≤ value ∧ value < spec.upper) ∧
      (spec.maxLength = none → chromosome.length = spec.length) ∧
      ∀ most ∈ spec.maxLength, spec.length ≤ chromosome.length ∧ chromosome.length < most)
    ⟨fun ⟨range, fixed, ranged⟩ => ⟨range, fixed, ranged⟩,
      fun ⟨range, fixed, ranged⟩ => ⟨range, fixed, ranged⟩⟩

theorem Allows.length_le {spec : ChromosomeSpec} {chromosome : List Int}
    (h : spec.Allows chromosome) : spec.length ≤ chromosome.length := by
  cases hMost : spec.maxLength with
  | none => exact Nat.le_of_eq (h.fixed hMost).symm
  | some most => exact (h.ranged most hMost).1

end ChromosomeSpec

namespace Codec

/-- A genotype whose chromosomes conform to the encoding, one to each specification. -/
def Allows (codec : Codec) (chromosomes : List (List Int)) : Prop :=
  List.Forall₂ ChromosomeSpec.Allows codec.encoding chromosomes

instance (codec : Codec) (chromosomes : List (List Int)) : Decidable (codec.Allows chromosomes) :=
  inferInstanceAs (Decidable (List.Forall₂ _ _ _))

theorem Allows.length_ofIntegers {codec : Codec} {chromosomes : List (List Int)}
    (h : codec.Allows chromosomes) :
    (Genotype.ofIntegers chromosomes).length = codec.encoding.length :=
  (List.length_map _).trans h.length_eq.symm

/-- The chromosome of a rule holds places of its alternatives. -/
structure SpecifiesRule (length : Nat → Int) (rule : Rule) (spec : ChromosomeSpec) : Prop where
  lower_eq : spec.lower = 0
  upper_eq : spec.upper = rule.arity
  length_eq : (spec.length : Int) = length rule.arity
  maxLength_eq : spec.maxLength = none

variable {reader : FieldReader}

theorem specifiesRule_of_ruleSpec {length : Nat → Int} {rule : Rule} {spec : ChromosomeSpec}
    (h : ruleSpec reader length rule = .ok spec) : SpecifiesRule length rule spec := by
  obtain ⟨-, hLower, hUpper, hLength, hMost⟩ := ChromosomeSpec.fields_of_ofFields h
  refine ⟨?_, ?_, ?_, ?_⟩
  · exact (Except.ok.inj hLower).symm
  · exact Int.ofNat_inj.mp (ChromosomeSpec.upper_of_upperField hUpper)
  · exact ChromosomeSpec.length_of_lengthField hLength
  · have hNone := Except.ok.inj hMost
    cases hMaxLength : spec.maxLength with
    | none => rfl
    | some most =>
      rw [hMaxLength] at hNone
      cases hNone

/-- What a codec by rules is. -/
theorem eq_of_ofRules {grammar : Grammar} {length : Nat → Int} {strategy : Strategy} {limit : Int}
    {codec : Codec} (h : ofRules reader grammar length strategy limit = .ok codec) :
    codec.grammar = grammar ∧ codec.decoding = .byRule ∧ codec.strategy = strategy ∧
      codec.limit = limit ∧
      List.Forall₂ (SpecifiesRule length) grammar.rules codec.encoding := by
  rw [ofRules] at h
  split at h
  · cases h
  · rename_i encoding hEncoding
    rw [ofEncoding] at h
    split at h
    · cases h
      rcases mapM_cases (ruleSpec reader length) grammar.rules with
        ⟨specs, hSpecs, hAll⟩ | ⟨error, hError, -⟩
      · cases hEncoding.symm.trans hSpecs
        exact ⟨rfl, rfl, rfl, rfl, hAll.imp fun _ _ => specifiesRule_of_ruleSpec⟩
      · cases hEncoding.symm.trans hError
    · cases h

end Codec

end CodonGrammar
