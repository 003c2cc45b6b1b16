import CodonGrammar.Proofs.Codec.Totality

/-!
# Chromosomes of bits are chromosomes of bytes

Bits are read as bytes, and the bytes give the bits back: written with eight binary digits each, the
least significant first, they are the bits again, up to those at the end that do not fill a byte. So
lists of whole bytes in bits are lists of bytes in another form, and a codec of bits decodes its
chromosome as a codec of integers decodes the bytes (`Codec.decode_bits`).
-/

namespace CodonGrammar

namespace Codons

/-! ## Bytes and their digits -/

theorem byteOf_lt (bits : List Bool) : byteOf bits < 2 ^ bits.length := by
  induction bits with
  | nil => exact Nat.one_pos
  | cons bit rest ih =>
    have hBit := bit.toNat_le
    rw [byteOf, List.length_cons, Nat.pow_succ]
    omega

theorem bitsOf_byteOf (bits : List Bool) : bitsOf bits.length (byteOf bits) = bits := by
  induction bits with
  | nil => rfl
  | cons bit rest ih =>
    have hHalf : (bit.toNat + 2 * byteOf rest) / 2 = byteOf rest := by
      have hBit := bit.toNat_le
      omega
    have hDigit : decide ((bit.toNat + 2 * byteOf rest) % 2 = 1) = bit := by
      cases bit <;> simp
    rw [List.length_cons, byteOf, bitsOf, hHalf, hDigit, ih]

/-- The binary digits of a number are its bits. -/
theorem bitsOf_eq_testBit (count number : Nat) :
    bitsOf count number = (List.range count).map number.testBit := by
  induction count generalizing number with
  | zero => rfl
  | succ count ih =>
    rw [bitsOf, ih, List.range_succ_eq_map, List.map_cons, List.map_map, Nat.testBit_zero]
    congr 1
    refine List.map_congr_left fun place _ => ?_
    exact (Nat.testBit_succ number place).symm

theorem bytesOf_lt (count : Nat) (bits : List Bool) : ∀ byte ∈ bytesOf count bits, byte < 256 := by
  induction count generalizing bits with
  | zero => simp [bytesOf]
  | succ count ih =>
    refine List.forall_mem_cons.mpr ⟨?_, ih _⟩
    calc byteOf (bits.take bitsPerCodon)
      _ < 2 ^ (bits.take bitsPerCodon).length := byteOf_lt _
      _ ≤ 2 ^ bitsPerCodon := Nat.pow_le_pow_right Nat.two_pos (List.length_take_le _ _)

/-- The digits of the bytes are the bits of which they were made. -/
theorem flatMap_bitsOf_bytesOf {count : Nat} {bits : List Bool}
    (h : bitsPerCodon * count ≤ bits.length) :
    (bytesOf count bits).flatMap (bitsOf bitsPerCodon) = bits.take (bitsPerCodon * count) := by
  induction count generalizing bits with
  | zero => rfl
  | succ count ih =>
    rw [Nat.mul_succ] at h
    have hFirst : (bits.take bitsPerCodon).length = bitsPerCodon :=
      List.length_take_of_le (by omega)
    have hDigits := bitsOf_byteOf (bits.take bitsPerCodon)
    rw [hFirst] at hDigits
    rw [bytesOf, List.flatMap_cons, hDigits, ih (by rw [List.length_drop]; omega), Nat.mul_succ,
      Nat.add_comm, List.take_add]

/-- The codons that bits are read as: one for each eight bits, with these as its binary digits. -/
structure Packs (bits : List Bool) (codons : Codons) : Prop where
  made : ofBits bits = .ok codons
  cursor_eq : codons.cursor = 0
  length_eq : codons.values.length = bits.length / 8
  small : ∀ value ∈ codons.values, value ≤ 255
  digits : codons.values.flatMap (fun value => (List.range 8).map value.testBit)
    = bits.take (8 * (bits.length / 8))

theorem ofBits_eq_error {bits : List Bool} (h : bits.length < 8) :
    ofBits bits = .error (.tooFewBits bits.length) :=
  dif_pos (Nat.div_eq_of_lt h)

theorem exists_packs {bits : List Bool} (h : 8 ≤ bits.length) : ∃ codons, Packs bits codons := by
  have hSome : ¬ bits.length / bitsPerCodon = 0 := by
    rw [bitsPerCodon]
    omega
  have hDigits : bitsPerCodon * (bits.length / bitsPerCodon) ≤ bits.length := Nat.mul_div_le _ _
  refine ⟨_, dif_neg hSome, rfl, length_bytesOf _ _, ?_, ?_⟩
  · intro value hValue
    exact Nat.le_of_lt_succ (bytesOf_lt _ _ value hValue)
  · exact funext (bitsOf_eq_testBit 8) ▸ flatMap_bitsOf_bytesOf hDigits

theorem packs_of_ofBits {bits : List Bool} {codons : Codons} (h : ofBits bits = .ok codons) :
    Packs bits codons := by
  by_cases hShort : bits.length < 8
  · cases (ofBits_eq_error hShort).symm.trans h
  · obtain ⟨made, hMade⟩ := exists_packs (Nat.not_lt.mp hShort)
    cases hMade.made.symm.trans h
    exact hMade

/-- Bits in whole bytes are read as given bytes exactly when they are their digits. -/
theorem existsUnique_bits {bytes : List Nat} (hBytes : bytes ≠ [])
    (hSmall : ∀ byte ∈ bytes, byte ≤ 255) :
    ∃! bits : List Bool, 8 ∣ bits.length ∧
      ∃ codons, ofBits bits = .ok codons ∧ codons.values = bytes := by
  refine ⟨bytes.flatMap (bitsOf bitsPerCodon), ⟨?_, ?_⟩, ?_⟩
  · rw [length_flatMap_bitsOf]
    exact Nat.dvd_mul_right bitsPerCodon bytes.length
  · have hLess : ∀ byte ∈ bytes, byte < 256 := fun byte hByte =>
      Nat.lt_succ_of_le (hSmall byte hByte)
    exact ⟨_, ofBits_bitsOf hBytes hLess, rfl⟩
  · rintro bits ⟨hWhole, codons, hCodons, rfl⟩
    have hDigits := (packs_of_ofBits hCodons).digits
    rw [Nat.mul_div_cancel' hWhole, List.take_length] at hDigits
    rw [← hDigits, bitsPerCodon, funext (bitsOf_eq_testBit 8)]

/-! ## Bits at the end -/

theorem bytesOf_append {count : Nat} {front : List Bool} (h : bitsPerCodon * count ≤ front.length)
    (more : List Bool) : bytesOf count (front ++ more) = bytesOf count front := by
  induction count generalizing front with
  | zero => rfl
  | succ count ih =>
    rw [Nat.mul_succ] at h
    have hFirst : bitsPerCodon ≤ front.length := by omega
    rw [bytesOf, bytesOf, List.take_append_of_le_length hFirst,
      List.drop_append_of_le_length hFirst, ih (by rw [List.length_drop]; omega)]

/-- Bits behind whole bytes that do not fill another one make no difference. -/
theorem ofBits_append {front more : List Bool} (hFront : front ≠ []) (hWhole : 8 ∣ front.length)
    (hMore : more.length < 8) : ofBits (front ++ more) = ofBits front := by
  obtain ⟨count, hCount⟩ := hWhole
  have hPositive := List.length_pos_iff.mpr hFront
  have hSame : (front ++ more).length / bitsPerCodon = front.length / bitsPerCodon := by
    rw [List.length_append, bitsPerCodon]
    omega
  have hSome : ¬ front.length / bitsPerCodon = 0 := by
    rw [bitsPerCodon]
    omega
  have hBits : bitsPerCodon * (front.length / bitsPerCodon) ≤ front.length := Nat.mul_div_le _ _
  rw [ofBits, ofBits, dif_neg (hSame ▸ hSome), dif_neg hSome]
  congr 1
  apply ofValues_congr
  rw [hSame, bytesOf_append hBits]

end Codons

namespace Codec

/-! ## Codecs of bits and of bytes -/

theorem index_bits {codec : Codec} (hDecoding : codec.decoding = .bits) {members : List Datum}
    {codons : Codons} (hCodons : Codons.ofBits (members.map Datum.isSet) = .ok codons) :
    (codec.indexSource [.list members]).index codec.grammar = .ok (.shared codons) := by
  have hReader := CodonSource.reader_list members
  rw [hCodons] at hReader
  rw [indexSource, hDecoding]
  simp only [List.headD_cons, IndexSource.index, hReader]
  rfl

/-- What is decoded depends on the index that is made, on the grammar, and on how it is used. -/
theorem decode_of_index {codec : Codec} {genotype : Genotype} {index : Index}
    (hLength : genotype.length = codec.encoding.length)
    (hIndex : (codec.indexSource genotype).index codec.grammar = .ok index) :
    codec.decode genotype
      = match checkLimit codec.limit with
        | .error error => .error (.limit error)
        | .ok limit =>
          match (codec.grammar.derive indexChooser codec.strategy limit index).1 with
          | .error error => .error (.choice error)
          | .ok derived => .ok derived.result := by
  rw [decode, run, if_neg (not_not.mpr hLength), hIndex]
  cases checkLimit codec.limit with
  | error error => rfl
  | ok limit =>
    dsimp only
    cases (codec.grammar.derive indexChooser codec.strategy limit index).1 with
    | error error => rfl
    | ok derived => rfl

section Bits

variable {reader : FieldReader} {grammar : Grammar} {count : Datum} {limit : Int} {codec : Codec}
  (hCodec : ofBits reader grammar count limit = .ok codec)

include hCodec

theorem decode_bits_eq_bytes {range : RangeInput} {lengths : CountInput} {bytesCodec : Codec}
    (hBytes : ofIntegers reader grammar range lengths limit = .ok bytesCodec) {members : List Datum}
    {codons : Codons} (hPacks : codons.Packs (members.map Datum.isSet)) :
    codec.decode [.list members]
      = bytesCodec.decode (.ofIntegers [codons.values.map Nat.cast]) := by
  obtain ⟨spec, rfl⟩ := eq_of_ofBits hCodec
  obtain ⟨bytesSpec, rfl⟩ := eq_of_ofIntegers hBytes
  have hValues : codons.values ≠ [] :=
    List.length_pos_iff.mp (Nat.zero_lt_of_lt codons.cursor_lt)
  have hSame : Codons.ofValues codons.values hValues = codons := by
    obtain ⟨values, cursor, hCursor⟩ := codons
    obtain rfl : cursor = 0 := hPacks.cursor_eq
    rfl
  have hInts := Codons.ofInts_natCast hValues
  rw [hSame] at hInts
  rw [decode_of_index rfl (index_bits rfl hPacks.made),
    decode_of_index rfl (index_integers rfl hInts)]

theorem decode_append {front first second : List Datum} (hFront : front ≠ [])
    (hWhole : 8 ∣ front.length) (hFirst : first.length < 8) (hSecond : second.length < 8) :
    codec.decode [.list (front ++ first)] = codec.decode [.list (front ++ second)] := by
  obtain ⟨spec, rfl⟩ := eq_of_ofBits hCodec
  have hPositive := List.length_pos_iff.mpr hFront
  have hEnough := Nat.le_of_dvd hPositive hWhole
  obtain ⟨codons, hPacks⟩ : ∃ codons, Codons.Packs (front.map Datum.isSet) codons :=
    Codons.exists_packs (by simpa)
  have hMade : ∀ {more : List Datum}, more.length < 8 →
      Codons.ofBits ((front ++ more).map Datum.isSet) = .ok codons := by
    intro more hMore
    rw [List.map_append, Codons.ofBits_append (by simpa) (by simpa) (by simpa), hPacks.made]
  rw [decode_of_index rfl (index_bits rfl (hMade hFirst)),
    decode_of_index rfl (index_bits rfl (hMade hSecond))]

end Bits

theorem exists_decode_bytes {reader : FieldReader} {grammar : Grammar} {range : RangeInput}
    {lengths : CountInput} {limit : Int} {codec : Codec}
    (hCodec : ofIntegers reader grammar range lengths limit = .ok codec) (hLimit : 1 ≤ limit) (codons : Codons) :
    ∃ sentence, codec.decode (.ofIntegers [codons.values.map Nat.cast]) = .ok sentence := by
  have hMade := Made.integers hCodec
  obtain ⟨spec, rfl⟩ := eq_of_ofIntegers hCodec
  have hPositive := Nat.zero_lt_of_lt codons.cursor_lt
  rcases decode_cases hMade.shaped (by exact hLimit) [codons.values.map Nat.cast] with
    ⟨hLength, -⟩ | ⟨⟨chromosome, hMember, hRefused⟩, -⟩ | ⟨-, -, hSentence⟩
  · exact absurd rfl hLength
  · obtain rfl := List.mem_singleton.mp hMember
    rcases hRefused with hEmpty | ⟨value, hValue, hNegative⟩
    · rw [List.map_eq_nil_iff.mp hEmpty] at hPositive
      exact absurd hPositive (Nat.lt_irrefl 0)
    · obtain ⟨codon, -, rfl⟩ := List.mem_map.mp hValue
      exact absurd hNegative (Int.not_lt.mpr (Int.natCast_nonneg codon))
  · exact hSentence

/-- Fewer than eight bits are refused, and all others are read as bytes with these digits. Lists of
whole bytes in bits are read as exactly the lists of bytes that are not empty, each of which has one
such list of bits. So a codec of bits decodes a chromosome to the same sentence as a codec of
integers decodes its bytes, and up to seven values behind the last whole byte do not matter. -/
theorem decode_bits :
    (∀ bits : List Bool, bits.length < 8 →
      Codons.ofBits bits = .error (.tooFewBits bits.length)) ∧
    (∀ bits : List Bool, 8 ≤ bits.length → ∃ codons, Codons.Packs bits codons) ∧
    (∀ bytes : List Nat, bytes ≠ [] → (∀ byte ∈ bytes, byte ≤ 255) →
      ∃! bits : List Bool, 8 ∣ bits.length ∧
        ∃ codons, Codons.ofBits bits = .ok codons ∧ codons.values = bytes) ∧
    ∀ reader grammar count limit codec, ofBits reader grammar count limit = .ok codec →
      (∀ range lengths bytesCodec, ofIntegers reader grammar range lengths limit = .ok bytesCodec →
        ∀ members : List Datum, 8 ≤ members.length →
          ∃ codons, Codons.Packs (members.map Datum.isSet) codons ∧
            codec.decode [.list members]
              = bytesCodec.decode (.ofIntegers [codons.values.map Nat.cast]) ∧
            (1 ≤ limit → ∃ sentence, codec.decode [.list members] = .ok sentence)) ∧
      ∀ front first second : List Datum, front ≠ [] → 8 ∣ front.length →
        first.length < 8 → second.length < 8 →
          codec.decode [.list (front ++ first)] = codec.decode [.list (front ++ second)] := by
  refine ⟨fun _ => Codons.ofBits_eq_error, fun _ => Codons.exists_packs,
    fun _ => Codons.existsUnique_bits, ?_⟩
  intro reader grammar count limit codec hCodec
  refine ⟨?_, fun _ _ _ => decode_append hCodec⟩
  intro range lengths bytesCodec hBytes members hEnough
  obtain ⟨codons, hPacks⟩ : ∃ codons, Codons.Packs (members.map Datum.isSet) codons :=
    Codons.exists_packs (by simpa)
  have hDecode := decode_bits_eq_bytes hCodec hBytes hPacks
  refine ⟨codons, hPacks, hDecode, fun hLimit => ?_⟩
  rw [hDecode]
  exact exists_decode_bytes hBytes hLimit codons

/-- Ten values of which the first eight make one byte, and a codec that reads nothing but it. -/
theorem decode_bits_trailing :
    let x : Symbol := .terminal ⟨"x", by decide⟩
    let y : Symbol := .terminal ⟨"y", by decide⟩
    let grammar : Grammar := ⟨[⟨⟨"s"⟩, [.single x, .single y], by simp⟩], by simp⟩
    let byte : List Datum := [.integer 1, .nothing, .truth true, .text "", .integer 0, .text "0",
      .list [], .truth false]
    let trailing : List Datum := [.truth true, .truth true]
    ∃ codec bytesCodec codons,
      ofBits .loose grammar (.integer 1) 5 = .ok codec ∧
      ofIntegers .loose grammar (.ends 0 256) (.fixed (.integer 1)) 5 = .ok bytesCodec ∧
      Codons.Packs ((byte ++ trailing).map Datum.isSet) codons ∧
      codons.values = [37] ∧
      codec.decode [.list (byte ++ trailing)] = bytesCodec.decode (.ofIntegers [[37]]) ∧
      codec.decode [.list (byte ++ trailing)] = codec.decode [.list (byte ++ [])] := by
  intro x y grammar byte trailing
  obtain ⟨-, -, -, hCodecs⟩ := decode_bits
  have hCodec := (rfl : ofBits .loose grammar (.integer 1) 5 = .ok _)
  have hBytes := (rfl : ofIntegers .loose grammar (.ends 0 256) (.fixed (.integer 1)) 5 = .ok _)
  obtain ⟨hDecode, hTrailing⟩ := hCodecs _ _ _ _ _ hCodec
  obtain ⟨codons, hPacks, hSame, -⟩ := hDecode _ _ _ hBytes (byte ++ trailing) (by decide)
  have hBits : (byte ++ trailing).map Datum.isSet
      = [true, false, true, false, false, true, false, false, true, true] := rfl
  have hValues : codons.values = [37] := by
    have hMade := hPacks.made
    rw [hBits] at hMade
    cases hMade
    rfl
  rw [hValues] at hSame
  exact ⟨_, _, codons, hCodec, hBytes, hPacks, hValues, hSame,
    hTrailing byte _ _ (by simp [byte]) ⟨1, rfl⟩ (by decide) (by decide)⟩

end Codec

end CodonGrammar
