import CodonGrammar.Codec.ChromosomeSpec
import CodonGrammar.Codon.Source
import CodonGrammar.Derivation.Sentence

/-!
# Codecs

A codec decodes a genotype, a list of chromosomes, into a sentence of a grammar. Its encoding says
how many chromosomes there are and what each may hold. There are three ways to read chromosomes:

* one chromosome of integers, whose values are the codons for all rules,
* one chromosome of bits, of which eight make a codon for all rules,
* one chromosome for each rule, with the codons for that rule alone.

Decoding depends on the chromosomes only, and not on the ranges of the encoding. A chromosome is any
datum that a reader of codons can be made of.
-/

namespace CodonGrammar

/-- How the chromosomes of a genotype are read. -/
inductive Decoding where
  | integers
  | bits
  | byRule
  deriving DecidableEq, Repr

/-- A codec for the sentences of a grammar. -/
structure Codec where
  grammar : Grammar
  encoding : List ChromosomeSpec
  decoding : Decoding
  strategy : Strategy
  limit : Int
  nonempty : encoding ≠ []

/-- A list of chromosomes, each of which is handed over as a datum. -/
abbrev Genotype := List Datum

/-- The genotype whose chromosomes have the given values. -/
def Genotype.ofIntegers (chromosomes : List (List Int)) : Genotype :=
  chromosomes.map Datum.ofIntegers

/-- A range of numbers as it is handed over: a sequence, which has to have two members, or its two
ends. -/
inductive RangeInput where
  | pair (members : Datum)
  | ends (lower upper : Int)

/-- The lengths of a chromosome as they are handed over. -/
inductive CountInput where
  | fixed (count : Datum)
  | range (input : RangeInput)

/-- A datum for lengths: an integer or a truth value is a length, anything else a range. -/
def CountInput.ofDatum : Datum → CountInput
  | .integer number => fixed (.integer number)
  | .truth holds => fixed (.truth holds)
  | other => range (.pair other)

/-- Why a datum is no range. -/
inductive RangeError where
  /-- It has no members. -/
  | noSequence (error : DatumError)
  /-- It has not the number of members that a range has. -/
  | notAPair (count : Nat)
  /-- Its numbers are no distance apart. -/
  | zeroStep

def RangeError.message : RangeError → String
  | noSequence error => error.message
  | notAPair count =>
    if 2 < count then "too many values to unpack (expected 2)"
    else "not enough values to unpack (expected 2, got " ++ count.repr ++ ")"
  | zeroStep => "range() arg 3 must not be zero"

/-- The range of the numbers that are a step apart. Only its ends matter, but there has to be a
step. -/
def RangeInput.ofSteps (start stop step : Int) : Except RangeError RangeInput :=
  if step = 0 then .error .zeroStep else .ok (.ends start stop)

/-- The two ends of a range. -/
def RangeInput.ends? : RangeInput → Except RangeError (Datum × Datum)
  | ends lower upper => .ok (.integer lower, .integer upper)
  | pair datum =>
    match datum.members with
    | .error error => .error (.noSequence error)
    | .ok [lower, upper] => .ok (lower, upper)
    | .ok members => .error (.notAPair members.length)

/-- Why there is no codec. -/
inductive CodecError where
  /-- The encoding has no chromosomes. -/
  | noChromosomes
  /-- A range is none. -/
  | range (error : RangeError)
  /-- A number of codons is none. -/
  | count (error : DatumError)
  /-- A chromosome cannot be specified. -/
  | spec (error : Invalid ChromosomeSpecError)

/-- The text of the error for a codec without chromosomes. -/
def noChromosomesMessage : String := "A codec needs at least one chromosome."

/-- Why a genotype is not decoded. -/
inductive DecodeError where
  /-- The number of chromosomes is not that of the encoding. -/
  | chromosomeCount (expected actual : Nat)
  /-- The chromosomes cannot be read. -/
  | source (error : SourceError)
  /-- The limit is not positive. -/
  | limit (error : LimitError)
  /-- The derivation failed. -/
  | choice (error : ChoiceError RuleCodonsError)

def DecodeError.message : DecodeError → String
  | chromosomeCount expected actual =>
    "Expected " ++ expected.repr ++ " chromosomes, got " ++ actual.repr ++ "."
  | source error => error.message
  | limit error => error.message
  | choice error => error.message RuleCodonsError.message

namespace Codec

def ofEncoding (grammar : Grammar) (encoding : List ChromosomeSpec) (decoding : Decoding)
    (strategy : Strategy) (limit : Int) : Except CodecError Codec :=
  if h : encoding ≠ [] then .ok ⟨grammar, encoding, decoding, strategy, limit, h⟩
  else .error .noChromosomes

/-- The fields of a specification with a range of values and lengths. -/
def intFields (range : RangeInput) (count : CountInput) : Except RangeError ChromosomeFields :=
  match range.ends? with
  | .error error => .error error
  | .ok (lower, upper) =>
    match count with
    | .fixed length => .ok ⟨none, some lower, some upper, some length, none⟩
    | .range lengths =>
      match lengths.ends? with
      | .error error => .error error
      | .ok (shortest, longest) =>
        .ok ⟨none, some lower, some upper, some shortest, some longest⟩

section Making

variable (reader : FieldReader)

/-- The codec with one chromosome of integers for all rules. -/
def ofIntegers (grammar : Grammar) (range : RangeInput) (count : CountInput) (limit : Int) :
    Except CodecError Codec :=
  match intFields range count with
  | .error error => .error (.range error)
  | .ok fields =>
    match ChromosomeSpec.ofFields reader fields with
    | .error error => .error (.spec error)
    | .ok spec => .ok ⟨grammar, [spec], .integers, .leftToRight, limit, by simp⟩

/-- The codec with one chromosome of bits for all rules, long enough for a number of codons. -/
def ofBits (grammar : Grammar) (count : Datum) (limit : Int) : Except CodecError Codec :=
  match count.times bitsPerCodon with
  | .error error => .error (.count error)
  | .ok length =>
    let fields : ChromosomeFields :=
      ⟨some (.text ChromosomeKind.bit.word), some (.integer 0), some (.integer 2), some length,
        none⟩
    match ChromosomeSpec.ofFields reader fields with
    | .error error => .error (.spec error)
    | .ok spec => .ok ⟨grammar, [spec], .bits, .leftToRight, limit, by simp⟩

/-- The specification of the chromosome of a rule, whose length depends on the number of its
alternatives. -/
def ruleSpec (length : Nat → Int) (rule : Rule) :
    Except (Invalid ChromosomeSpecError) ChromosomeSpec :=
  ChromosomeSpec.ofFields reader
    ⟨none, none, some (.integer rule.arity), some (.integer (length rule.arity)), none⟩

/-- The codec with one chromosome for each rule, in the order of the rules. -/
def ofRules (grammar : Grammar) (length : Nat → Int) (strategy : Strategy) (limit : Int) :
    Except CodecError Codec :=
  match grammar.rules.mapM (ruleSpec reader length) with
  | .error error => .error (.spec error)
  | .ok encoding => ofEncoding grammar encoding .byRule strategy limit

end Making

/-- The log records about the making of a codec: the layout, if it has a chromosome for each
rule. -/
def layoutRecords (codec : Codec) : List Log.Record :=
  match codec.decoding with
  | .byRule =>
    let pairs := codec.encoding.map fun spec =>
      "(" ++ spec.upper.repr ++ ", " ++ spec.length.repr ++ ")"
    [⟨.debug, "cfgevo.codec",
      "Rule codec layout: [" ++ String.intercalate ", " pairs ++ "]"⟩]
  | .integers | .bits => []

/-! ## Decoding -/

def indexSource (codec : Codec) (genotype : Genotype) : IndexSource :=
  match codec.decoding with
  | .integers => .shared (.integers (genotype.headD .nothing))
  | .bits => .shared (.bits (genotype.headD .nothing))
  | .byRule => .byRule (genotype.map .integers)

def indexChooser : Chooser Index RuleCodonsError :=
  fun rule bound index => index.next rule.head bound

/-- Decodes a genotype, and keeps the number of expansions. -/
def run (codec : Codec) (genotype : Genotype) : Except DecodeError (Derived (List Symbol)) :=
  if genotype.length ≠ codec.encoding.length then
    .error (.chromosomeCount codec.encoding.length genotype.length)
  else
    match (codec.indexSource genotype).index codec.grammar with
    | .error error => .error (.source error)
    | .ok index =>
      match checkLimit codec.limit with
      | .error error => .error (.limit error)
      | .ok limit =>
        match (codec.grammar.derive indexChooser codec.strategy limit index).1 with
        | .error error => .error (.choice error)
        | .ok derived => .ok derived

def decode (codec : Codec) (genotype : Genotype) : Except DecodeError (List Symbol) :=
  (codec.run genotype).map Derived.result

/-- Decodes a genotype into the text of its sentence. -/
def decodeText (codec : Codec) (genotype : Genotype) : Except DecodeError String :=
  (codec.decode genotype).map sentenceText

variable {σ : Type}

/-- Draws one chromosome for each specification of a list. -/
def drawAll (source : RandomSource σ) : List ChromosomeSpec → σ → List (List Int) × σ
  | [], state => ([], state)
  | spec :: rest, state =>
    let (first, state) := spec.draw source state
    let (others, state) := drawAll source rest state
    (first :: others, state)

/-- Draws the chromosomes of a genotype that fits the encoding. -/
def newGenotype (codec : Codec) (source : RandomSource σ) (state : σ) : List (List Int) × σ :=
  drawAll source codec.encoding state

end Codec

end CodonGrammar
