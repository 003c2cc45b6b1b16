import CodonGrammar.Proofs.Codec.Coverage
import CodonGrammar.Proofs.Codec.Reading
import Mathlib.Data.Int.ModEq

/-!
# What a derivation sees of its codons

A derivation depends on its codons only through their residues: in each turn the codon counts modulo
the number of alternatives that is asked with, and codons whose turn never comes do not count at all.
So two lists of codons that are congruent in each turn lead to the same decisions and to the same
result, whichever engine runs (`Grammar.produce_congruent`). The bounds of the turns depend on the
answers to the turns before, but as long as the answers agree, so do the bounds: all that the two
runs share are the situations of the engine.

Repeating a chromosome, shifting its codons by common multiples of the bounds and appending to it
what is not read give congruent codons.
-/

namespace CodonGrammar

/-! ## Congruent codons -/

/-- In each turn the codons of both lists are congruent modulo the bound of the query. -/
def Codons.Congruent {ε : Type} (queries : List (Query ε)) (values others : List Nat) : Prop :=
  ∀ (turn : Nat) (query : Query ε) (codon other : Nat), queries[turn]? = some query →
    values[turn % values.length]? = some codon → others[turn % others.length]? = some other →
    codon ≡ other [ZMOD query.bound]

namespace Codons

variable {queries : List (Query RuleCodonsError)} {values others : List Nat}

theorem Congruent.answers (hCongruent : Congruent queries values others)
    (hBounds : ∀ query ∈ queries, 1 ≤ query.bound) {hNonempty : values ≠ []} {last : Index}
    (hAnswers : Codec.indexChooser.Answers (.shared (.ofValues values hNonempty)) queries last)
    (hOthers : others ≠ []) :
    Codec.indexChooser.Answers (.shared (.ofValues others hOthers)) queries
      (.shared (advance^[queries.length] (.ofValues others hOthers))) := by
  obtain ⟨-, hTurns⟩ := (answers_iff hBounds).mp hAnswers
  refine (answers_iff hBounds).mpr ⟨rfl, ?_⟩
  intro turn query hQuery
  have hResidues := hCongruent turn query _ _ hQuery (getElem?_turn hNonempty turn)
    (getElem?_turn hOthers turn)
  rw [hTurns turn query hQuery, hResidues]

/-- Codons that are the same in each turn are congruent. -/
theorem congruent_of_turns (h : ∀ turn, turn < queries.length →
    others[turn % others.length]? = values[turn % values.length]?) :
    Congruent queries values others := by
  intro turn query codon other hQuery hCodon hOther
  obtain ⟨hTurn, -⟩ := List.getElem?_eq_some_iff.mp hQuery
  rw [h turn hTurn, hCodon] at hOther
  cases hOther
  exact Int.ModEq.refl _

theorem getElem?_flatten_replicate (values : List Nat) (count : Nat) {place : Nat}
    (hPlace : place < count * values.length) :
    (List.replicate count values).flatten[place]? = values[place % values.length]? := by
  induction count generalizing place with
  | zero =>
    rw [Nat.zero_mul] at hPlace
    exact absurd hPlace (Nat.not_lt_zero place)
  | succ count ih =>
    rw [List.replicate_succ, List.flatten_cons]
    by_cases hFirst : place < values.length
    · rw [List.getElem?_append_left hFirst, Nat.mod_eq_of_lt hFirst]
    · have hRound := Nat.mod_eq_sub_mod (Nat.not_lt.mp hFirst)
      rw [Nat.succ_mul] at hPlace
      rw [List.getElem?_append_right (by omega), ih (by omega), hRound]

theorem congruent_repeated (hValues : values ≠ []) (times : Nat) :
    Congruent queries values (List.replicate (times + 1) values).flatten := by
  refine congruent_of_turns ?_
  intro turn hTurn
  have hLength : (List.replicate (times + 1) values).flatten.length
      = (times + 1) * values.length := by simp
  have hPositive : 0 < (times + 1) * values.length :=
    Nat.mul_pos (Nat.succ_pos times) (List.length_pos_iff.mpr hValues)
  rw [hLength, getElem?_flatten_replicate values _ (Nat.mod_lt turn hPositive),
    Nat.mod_mul_left_mod]

/-- Codons behind the last turn do not matter. -/
theorem congruent_append (hLength : queries.length ≤ values.length) (more : List Nat) :
    Congruent queries values (values ++ more) := by
  refine congruent_of_turns ?_
  intro turn hTurn
  have hPlace : turn < values.length := by omega
  have hLonger : turn < (values ++ more).length := by
    rw [List.length_append]
    omega
  rw [Nat.mod_eq_of_lt hPlace, Nat.mod_eq_of_lt hLonger, List.getElem?_append_left hPlace]

/-- Codons that are shifted by multiples of all bounds are congruent. -/
theorem congruent_shifted {common : Int} {chromosome shifted : List Int}
    (hBounds : ∀ query ∈ queries, query.bound ∣ common)
    (hFit : ∀ value ∈ chromosome, 0 ≤ value) (hShiftedFit : ∀ value ∈ shifted, 0 ≤ value)
    (hShift : List.Forall₂ (fun value other => common ∣ other - value) chromosome shifted) :
    Congruent queries (chromosome.map Int.toNat) (shifted.map Int.toNat) := by
  intro turn query codon other hQuery hCodon hOther
  rw [List.length_map, List.getElem?_map] at hCodon hOther
  obtain ⟨value, hValue, rfl⟩ := Option.map_eq_some_iff.mp hCodon
  obtain ⟨moved, hMoved, hMultiple⟩ := getElem?_of_forall₂ hShift hValue
  rw [← hShift.length_eq, hMoved] at hOther
  cases hOther
  rw [Int.toNat_of_nonneg (hFit value (List.mem_of_getElem? hValue)),
    Int.toNat_of_nonneg (hShiftedFit moved (List.mem_of_getElem? hMoved))]
  exact Int.modEq_of_dvd ((hBounds query (List.mem_of_getElem? hQuery)).trans hMultiple)

end Codons

/-! ## Runs on codons -/

/-- From the first codon on, the engine makes these decisions, all about rules of the grammar, and
gives this result. -/
structure Grammar.Makes (grammar : Grammar) (engine : Engine) (limit : Nat) (values : List Nat)
    (queries : List (Query RuleCodonsError)) (result : engine.Result) : Prop where
  nonempty : values ≠ []
  asked : ∀ query ∈ queries, query.rule ∈ grammar.rules ∧ query.bound = query.rule.arity
  produces : grammar.Produces engine Codec.indexChooser limit (.shared (.ofValues values nonempty))
    queries result (.shared (Codons.advance^[queries.length] (.ofValues values nonempty)))

namespace Grammar

theorem Drives.makes_of_plays {grammar : Grammar} {engine : Engine} {S : Type}
    {expander : Expander S} {view : S → engine.Result} {start last : S}
    (hDrives : grammar.Drives engine expander view start)
    {queries : List (Query RuleCodonsError)} (hPlays : expander.Plays start queries last)
    {limit : Nat} (hLimit : 1 ≤ limit) (hLength : queries.length ≤ limit)
    (hEnd : queries.length = limit ∨ expander last = none) {values : List Nat}
    (hNonempty : values ≠ [])
    (hAnswers : Codec.indexChooser.Answers (.shared (.ofValues values hNonempty)) queries
      (.shared (Codons.advance^[queries.length] (.ofValues values hNonempty)))) :
    grammar.Makes engine limit values queries (view last) where
  nonempty := hNonempty
  asked := by
    intro query hQuery
    obtain ⟨⟨head, hHead⟩, hBound, -⟩ := hDrives.sound.queries hPlays query hQuery
    exact ⟨List.mem_of_find?_eq_some hHead, hBound⟩
  produces := hDrives.produces_of_plays hPlays hLimit hLength hEnd hAnswers

theorem exists_makes (grammar : Grammar) (engine : Engine) {limit : Nat} (hLimit : 1 ≤ limit)
    {values : List Nat} (hValues : values ≠ []) :
    ∃ queries result, grammar.Makes engine limit values queries result ∧
      ∀ others, others ≠ [] → Codons.Congruent queries values others →
        grammar.Makes engine limit others queries result := by
  obtain ⟨S, expander, view, start, hDrives⟩ := grammar.exists_drives engine
  have hServed : (Index.shared (.ofValues values hValues)).Serves grammar := trivial
  obtain ⟨queries, last, after, hPlays, hAnswers, -, hLength, hEnd⟩ :=
    (Codec.serves_indexChooser grammar).exists_plays hDrives.sound limit start hServed
  have hBounds : ∀ query ∈ queries, 1 ≤ query.bound := by
    intro query hQuery
    obtain ⟨-, hBound, -⟩ := hDrives.sound.queries hPlays query hQuery
    have hArity := query.rule.arity_pos
    omega
  obtain ⟨rfl, -⟩ := (Codons.answers_iff hBounds).mp hAnswers
  refine ⟨queries, view last,
    hDrives.makes_of_plays hPlays hLimit hLength hEnd hValues hAnswers, ?_⟩
  intro others hOthers hCongruent
  exact hDrives.makes_of_plays hPlays hLimit hLength hEnd hOthers
    (hCongruent.answers hBounds hAnswers hOthers)

theorem Makes.of_congruent {grammar : Grammar} {engine : Engine} {limit : Nat} (hLimit : 1 ≤ limit)
    {values others : List Nat} {queries : List (Query RuleCodonsError)} {result : engine.Result}
    (hMakes : grammar.Makes engine limit values queries result) (hOthers : others ≠ [])
    (hCongruent : Codons.Congruent queries values others) :
    grammar.Makes engine limit others queries result := by
  obtain ⟨made, last, hMade, hTransfer⟩ := grammar.exists_makes engine hLimit hMakes.nonempty
  obtain ⟨rfl, rfl⟩ := hMakes.produces.unique hMade.produces
  exact hTransfer others hOthers hCongruent

end Grammar

/-! ## Chromosomes -/

namespace Codec

variable {reader : FieldReader} {grammar : Grammar} {range : RangeInput} {lengths : CountInput}
  {limit : Nat} {codec : Codec}

theorem run_of_makes (hCodec : ofIntegers reader grammar range lengths limit = .ok codec)
    (hLimit : 1 ≤ limit) {chromosome : List Int} (hFit : ∀ value ∈ chromosome, 0 ≤ value)
    {queries : List (Query RuleCodonsError)} {sentence : List Symbol}
    (hMakes : grammar.Makes (.sentence .leftToRight) limit (chromosome.map Int.toNat) queries
      sentence) :
    codec.run (.ofIntegers [chromosome]) = .ok ⟨sentence, queries.length⟩ := by
  obtain ⟨spec, rfl⟩ := eq_of_ofIntegers hCodec
  rcases Codons.ofInts_cases chromosome with ⟨-, hNonempty, hCodons⟩ | ⟨hRefused, -⟩
  · exact run_of_derive rfl (index_integers rfl hCodons) (by dsimp only; omega) hMakes.produces.plain
  · rcases hRefused with rfl | ⟨value, hValue, hNegative⟩
    · exact absurd rfl hMakes.nonempty
    · exact absurd (hFit value hValue) (by omega)

/-- The sentence that a chromosome is decoded to, and chromosomes that are decoded to the same one.
Of the codons only their residues count, and only those that are read. -/
structure ReadsResidues (codec : Codec) (chromosome : List Int)
    (derived : Derived (List Symbol)) : Prop where
  run : codec.run (.ofIntegers [chromosome]) = .ok derived
  decode : codec.decode (.ofIntegers [chromosome]) = .ok derived.result
  repeated : ∀ times, codec.decode (.ofIntegers [(List.replicate (times + 1) chromosome).flatten])
    = .ok derived.result
  shifted : ∀ (common : Int) (others : List Int),
    (∀ rule ∈ codec.grammar.rules, (rule.arity : Int) ∣ common) → (∀ value ∈ others, 0 ≤ value) →
    List.Forall₂ (fun value other => common ∣ other - value) chromosome others →
      codec.decode (.ofIntegers [others]) = .ok derived.result
  appended : derived.expansions ≤ chromosome.length →
    ∀ more : List Int, (∀ value ∈ more, 0 ≤ value) →
      codec.decode (.ofIntegers [chromosome ++ more]) = .ok derived.result

section Makes

variable (hCodec : ofIntegers reader grammar range lengths limit = .ok codec) (hLimit : 1 ≤ limit)
  {chromosome : List Int} {queries : List (Query RuleCodonsError)} {sentence : List Symbol}
  (hMakes : grammar.Makes (.sentence .leftToRight) limit (chromosome.map Int.toNat) queries
    sentence)

include hCodec hLimit hMakes

/-- Chromosomes with congruent codons are decoded alike. -/
theorem decode_of_congruent {others : List Int} (hOthers : others ≠ [])
    (hFit : ∀ value ∈ others, 0 ≤ value)
    (hCongruent : Codons.Congruent queries (chromosome.map Int.toNat) (others.map Int.toNat)) :
    codec.decode (.ofIntegers [others]) = .ok sentence := by
  have hOtherMakes := hMakes.of_congruent hLimit (by simpa using hOthers) hCongruent
  rw [Codec.decode, run_of_makes hCodec hLimit hFit hOtherMakes]
  rfl

theorem readsResidues_of_makes (hFit : ∀ value ∈ chromosome, 0 ≤ value) :
    codec.ReadsResidues chromosome ⟨sentence, queries.length⟩ := by
  have hChromosome : chromosome ≠ [] := by simpa using hMakes.nonempty
  refine ⟨run_of_makes hCodec hLimit hFit hMakes, ?_, ?_, ?_, ?_⟩
  · exact decode_of_congruent hCodec hLimit hMakes hChromosome hFit
      (Codons.congruent_of_turns fun _ _ => rfl)
  · intro times
    refine decode_of_congruent hCodec hLimit hMakes (by simpa using hChromosome) ?_ ?_
    · intro value hValue
      obtain ⟨copy, hCopy, hMember⟩ := List.mem_flatten.mp hValue
      obtain rfl := List.eq_of_mem_replicate hCopy
      exact hFit value hMember
    · rw [List.map_flatten, List.map_replicate]
      exact Codons.congruent_repeated hMakes.nonempty times
  · intro common others hCommon hOthersFit hShift
    have hOthers : others ≠ [] := by
      rintro rfl
      cases hShift
      exact hChromosome rfl
    have hBounds : ∀ query ∈ queries, query.bound ∣ common := by
      obtain ⟨spec, rfl⟩ := eq_of_ofIntegers hCodec
      intro query hQuery
      obtain ⟨hRule, hBound⟩ := hMakes.asked query hQuery
      rw [hBound]
      exact hCommon query.rule hRule
    exact decode_of_congruent hCodec hLimit hMakes hOthers hOthersFit
      (Codons.congruent_shifted hBounds hFit hOthersFit hShift)
  · intro hLength more hMore
    refine decode_of_congruent hCodec hLimit hMakes
      (List.append_ne_nil_of_left_ne_nil hChromosome more)
      (List.forall_mem_append.mpr ⟨hFit, hMore⟩) ?_
    rw [List.map_append]
    exact Codons.congruent_append (by simpa using hLength) _

end Makes

end Codec

namespace Grammar

/-- Each engine makes its decisions and its result from codons, and it makes the same ones from any
other codons that are congruent in each turn modulo the bound that is asked with. So a codec of
integers decodes a chromosome to the same sentence when the chromosome is repeated, when its codons
are shifted by multiples of a common multiple of all numbers of alternatives, and when something is
appended that no decision reads. -/
theorem produce_congruent (grammar : Grammar) {limit : Nat} (hLimit : 1 ≤ limit) :
    (∀ engine values, values ≠ [] →
      ∃ queries result, grammar.Makes engine limit values queries result) ∧
    (∀ engine values queries result, grammar.Makes engine limit values queries result →
      ∀ others, others ≠ [] → Codons.Congruent queries values others →
        grammar.Makes engine limit others queries result) ∧
    ∀ reader range lengths codec, Codec.ofIntegers reader grammar range lengths limit = .ok codec →
      ∀ chromosome : List Int, chromosome ≠ [] → (∀ value ∈ chromosome, 0 ≤ value) →
        ∃ queries sentence,
          grammar.Makes (.sentence .leftToRight) limit (chromosome.map Int.toNat) queries
            sentence ∧
          codec.ReadsResidues chromosome ⟨sentence, queries.length⟩ := by
  refine ⟨?_, ?_, ?_⟩
  · intro engine values hValues
    obtain ⟨queries, result, hMakes, -⟩ := grammar.exists_makes engine hLimit hValues
    exact ⟨queries, result, hMakes⟩
  · intro engine values queries result hMakes others hOthers hCongruent
    exact hMakes.of_congruent hLimit hOthers hCongruent
  · intro reader range lengths codec hCodec chromosome hChromosome hFit
    have hValues : chromosome.map Int.toNat ≠ [] := by simpa using hChromosome
    obtain ⟨queries, sentence, hMakes, -⟩ :=
      grammar.exists_makes (.sentence .leftToRight) hLimit hValues
    exact ⟨queries, sentence, hMakes, Codec.readsResidues_of_makes hCodec hLimit hMakes hFit⟩

/-- Codons of different length and size with which a tree is derived by the same decisions. -/
theorem produce_congruent_tree :
    let x : Symbol := .terminal ⟨"x", by decide⟩
    let y : Symbol := .terminal ⟨"y", by decide⟩
    let a : Symbol := .nonTerminal ⟨"a"⟩
    let pair : Rule := ⟨⟨"s"⟩, [⟨[a, a], by simp⟩], by simp⟩
    let letter : Rule := ⟨⟨"a"⟩, [.single x, .single y], by simp⟩
    let grammar : Grammar := ⟨[pair, letter], by simp⟩
    let tree : DerivationTree :=
      .node (.nonTerminal ⟨"s"⟩) [.node a [.leaf x], .node a [.leaf y]]
    let queries : List (Query RuleCodonsError) :=
      [⟨pair, 1, .ok 0⟩, ⟨letter, 2, .ok 0⟩, ⟨letter, 2, .ok 1⟩]
    grammar.Makes .tree 5 [5, 2] queries tree ∧ Codons.Congruent queries [5, 2] [4, 6, 9, 0] ∧
      grammar.Makes .tree 5 [4, 6, 9, 0] queries tree ∧
      ∃ codec, Codec.ofIntegers .loose grammar (.ends 0 9) (.fixed (.integer 3)) 5 = .ok codec ∧
        codec.ReadsResidues [5, 2, 5] ⟨[x, y], 3⟩ := by
  intro x y a pair letter grammar tree queries
  obtain ⟨-, hTransfer, hCodec⟩ := produce_congruent grammar (by decide : 1 ≤ 5)
  have hMakes : grammar.Makes .tree 5 [5, 2] queries tree := by
    refine ⟨by decide, by simp [queries, grammar, pair, letter, Rule.arity], ?_⟩
    subst x y a pair letter grammar tree queries
    exact ⟨rfl, rfl⟩
  have hCongruent : Codons.Congruent queries [5, 2] [4, 6, 9, 0] := by
    intro turn query codon other hQuery hCodon hOther
    rcases turn with _ | _ | _ | turn
    case succ.succ.succ => cases hQuery
    all_goals
      cases hQuery
      cases hCodon
      cases hOther
      simp [Int.ModEq]
  obtain ⟨made, sentence, hMade, hReads⟩ :=
    hCodec .loose (.ends 0 9) (.fixed (.integer 3)) _ rfl [5, 2, 5] (by decide) (by decide)
  have hSentence : (grammar.produce (.sentence .leftToRight) Codec.indexChooser 5
      (.shared (.ofValues [5, 2, 5] (by decide)))).1 = .ok ⟨[x, y], 3⟩ := by
    subst x y a pair letter grammar
    rfl
  injection (congrArg Prod.fst hMade.produces.plain).symm.trans hSentence with hDerived
  rw [hDerived] at hReads
  exact ⟨hMakes, hCongruent, hTransfer .tree _ _ _ hMakes _ (by decide) hCongruent, _, rfl, hReads⟩

end Grammar

end CodonGrammar
