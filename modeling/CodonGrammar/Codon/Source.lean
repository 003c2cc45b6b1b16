import CodonGrammar.Codon.Index
import CodonGrammar.Number.Datum

/-!
# Readers and indexes from data

What a caller hands over to make a reader of, or an index: data for codons, data for bits, such
data for each rule, or the numbers of a script. All data is read before any reader is made, and the
readers of the rules are made in order before their number is checked.

Codons are the members of what is handed over, in their order, and bits are those at its places. A
record has members, which are its names, but none of them has a place, so no bits are made of it.
-/

namespace CodonGrammar

/-- What a reader is made of: a sequence of codons, or one of bits. -/
inductive CodonSource where
  | integers (data : Datum)
  | bits (data : Datum)

/-- What an index is made of. -/
inductive IndexSource where
  | shared (source : CodonSource)
  | byRule (sources : List CodonSource)
  | script (answers : List Int)

/-- Why a reader or an index cannot be made. -/
inductive SourceError where
  | datum (error : DatumError)
  | codons (error : CodonError)
  | count (error : ReaderCountError)
  /-- A script has no answers. -/
  | emptyScript

def SourceError.message : SourceError → String
  | datum error => error.message
  | codons error => error.message
  | count error => error.message
  | emptyScript => "a script needs at least one answer"

namespace CodonSource

def reader : CodonSource → Except SourceError Codons
  | integers data =>
    match data.members with
    | .error error => .error (.datum error)
    | .ok members =>
      match Datum.toIntegers members with
      | .error error => .error (.datum error)
      | .ok numbers =>
        match Codons.ofInts numbers with
        | .error error => .error (.codons error)
        | .ok codons => .ok codons
  | bits (.record names) =>
    if names.length < bitsPerCodon then .error (.codons (.tooFewBits names.length))
    else .error (.datum (.noPlace 0))
  | bits data =>
    match data.members with
    | .error error => .error (.datum error)
    | .ok members =>
      match Codons.ofBits (members.map Datum.isSet) with
      | .error error => .error (.codons error)
      | .ok codons => .ok codons

theorem reader_integers (numbers : List Int) :
    (integers (.ofIntegers numbers)).reader = (Codons.ofInts numbers).mapError .codons := by
  simp only [reader, Datum.members_ofIntegers, Datum.toIntegers_map_integer]
  cases Codons.ofInts numbers <;> rfl

theorem reader_list (members : List Datum) :
    (bits (.list members)).reader = (Codons.ofBits (members.map Datum.isSet)).mapError .codons := by
  simp only [reader, Datum.members]
  cases Codons.ofBits (members.map Datum.isSet) <;> rfl

def readers (grammar : Grammar) (sources : List CodonSource) : Except SourceError RuleCodons :=
  match sources.mapM reader with
  | .error error => .error error
  | .ok made =>
    match RuleCodons.of grammar made with
    | .error error => .error (.count error)
    | .ok codons => .ok codons

end CodonSource

def IndexSource.index (grammar : Grammar) : IndexSource → Except SourceError Index
  | shared source => source.reader.map Index.shared
  | byRule sources => (CodonSource.readers grammar sources).map Index.byRule
  | script answers =>
    match Script.of? answers with
    | some made => .ok (.script made)
    | none => .error .emptyScript

end CodonGrammar
