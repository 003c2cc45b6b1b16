import CodonGrammar.Proofs.Tree.StoreLayout

/-!
# Trees and their data

A tree can be read back from its data (`Tree.ofData_toData`). Any data describes a tree exactly if
each of its records is in order when it is looked at alone, and otherwise the first faulty record
says what is wrong, in the order in which a record comes before its children
(`LinkedTree.ofData_eq_error_iff_first`). What is read is written down again with all fields in
place and without the entries under other names (`Tree.toData_of_ofData`).
-/

namespace CodonGrammar

/-- The error in the place of a value. -/
def errorOf {ε α : Type} : Except ε α → Option ε
  | .error error => some error
  | .ok _ => none

/-! ## One record -/

/-- The fields of a record that are looked at without its children. -/
structure DataHead where
  kind : Option Value
  value : Option String

namespace DataHead

/-- The two types of symbols. -/
def KnownType (kind : Value) : Prop := kind = .text "nonterminal" ∨ kind = .text "terminal"

/-- A record is fine if it has a known type and a value, and the value of a terminal has no
apostrophe. -/
inductive Fine : DataHead → Prop where
  | nonTerminal (name : String) : Fine ⟨some (.text "nonterminal"), some name⟩
  | terminal {text : String} : Text.apostrophe ∉ text.toList →
      Fine ⟨some (.text "terminal"), some text⟩

/-- What is wrong with a record that is not fine. -/
inductive Faulty : DataHead → TreeDataError → Prop where
  | missingType (value : Option String) : Faulty ⟨none, value⟩ .missingType
  | unknownType {kind : Value} (value : Option String) : ¬ KnownType kind →
      Faulty ⟨some kind, value⟩ (.unknownType kind)
  | missingValue {kind : Value} : KnownType kind → Faulty ⟨some kind, none⟩ .missingValue
  | quote {text : String} : Text.apostrophe ∈ text.toList →
      Faulty ⟨some (.text "terminal"), some text⟩ (.symbol (.quoteInTerminal text))

/-- The symbol of a record. -/
def symbol (head : DataHead) : Except TreeDataError Symbol := Symbol.ofData head.kind head.value

end DataHead

theorem Terminal.ofText_eq_error {text : String} (hQuote : Text.apostrophe ∈ text.toList) :
    Terminal.ofText text = .error (.quoteInTerminal text) := by
  rw [ofText, Terminal.ofText?_eq_none_iff.mpr hQuote]

theorem Terminal.exists_ofText {text : String} (hFree : Text.apostrophe ∉ text.toList) :
    ∃ symbol, Terminal.ofText text = .ok symbol ∧ symbol.text = text := by
  refine ⟨⟨text, hFree⟩, ?_, rfl⟩
  rw [ofText, Terminal.ofText?, dif_pos hFree]

namespace DataHead

variable {head : DataHead} {error : TreeDataError}

theorem Faulty.symbol_eq (hFaulty : head.Faulty error) : head.symbol = .error error := by
  cases hFaulty with
  | missingType value => rfl
  | @unknownType kind value hUnknown =>
    obtain ⟨hNonTerminal, hTerminal⟩ := not_or.mp hUnknown
    cases kind with
    | text word =>
      have hFirst : word ≠ "nonterminal" := fun hWord => hNonTerminal (congrArg _ hWord)
      have hSecond : word ≠ "terminal" := fun hWord => hTerminal (congrArg _ hWord)
      simp only [symbol, Symbol.ofData, if_neg hFirst, if_neg hSecond]
    | _ => rfl
  | missingValue hKnown =>
    rcases hKnown with rfl | rfl
    · rfl
    · rfl
  | quote hQuote =>
    rw [symbol, Symbol.ofData, if_neg (by decide), if_pos rfl]
    simp only [Terminal.ofText_eq_error hQuote]

/-- The symbol of a record that is fine has the fields of the record. -/
theorem Fine.exists_symbol (hFine : head.Fine) :
    ∃ symbol, head.symbol = .ok symbol ∧
      head = ⟨some (.text symbol.typeWord), some symbol.value⟩ := by
  cases hFine with
  | nonTerminal name => exact ⟨.nonTerminal ⟨name⟩, rfl, rfl⟩
  | terminal hFree =>
    obtain ⟨terminal, hTerminal, rfl⟩ := Terminal.exists_ofText hFree
    refine ⟨.terminal terminal, ?_, rfl⟩
    rw [symbol, Symbol.ofData, if_neg (by decide), if_pos rfl]
    simp only [hTerminal]

theorem fine_or_faulty (head : DataHead) : head.Fine ∨ ∃ error, head.Faulty error := by
  obtain ⟨kind, value⟩ := head
  cases kind with
  | none => exact .inr ⟨_, .missingType value⟩
  | some kind =>
    by_cases hKnown : KnownType kind
    · cases value with
      | none => exact .inr ⟨_, .missingValue hKnown⟩
      | some text =>
        rcases hKnown with rfl | rfl
        · exact .inl (.nonTerminal text)
        · by_cases hQuote : Text.apostrophe ∈ text.toList
          · exact .inr ⟨_, .quote hQuote⟩
          · exact .inl (.terminal hQuote)
    · exact .inr ⟨_, .unknownType value hKnown⟩

/-- The fault of a record, if it has one. -/
def fault? (head : DataHead) : Option TreeDataError := errorOf head.symbol

theorem fault?_eq_none_iff : head.fault? = none ↔ head.Fine := by
  rcases head.fine_or_faulty with hFine | ⟨error, hFaulty⟩
  · obtain ⟨symbol, hSymbol, -⟩ := hFine.exists_symbol
    rw [fault?, hSymbol]
    exact iff_of_true rfl hFine
  · rw [fault?, hFaulty.symbol_eq, errorOf]
    refine iff_of_false (Option.some_ne_none error) fun hFine => ?_
    obtain ⟨symbol, hSymbol, -⟩ := hFine.exists_symbol
    cases hSymbol.symm.trans hFaulty.symbol_eq

theorem fault?_eq_some_iff : head.fault? = some error ↔ head.Faulty error := by
  refine ⟨fun hFault => ?_, fun hFaulty => by rw [fault?, hFaulty.symbol_eq, errorOf]⟩
  rcases head.fine_or_faulty with hFine | ⟨other, hFaulty⟩
  · cases (fault?_eq_none_iff.mpr hFine).symm.trans hFault
  · rw [fault?, hFaulty.symbol_eq, errorOf] at hFault
    exact Option.some.inj hFault ▸ hFaulty

/-- A symbol that was made of a record has the fields of the record. -/
theorem eq_of_symbol (head : DataHead) {symbol : Symbol} (hSymbol : head.symbol = .ok symbol) :
    head = ⟨some (.text symbol.typeWord), some symbol.value⟩ := by
  rcases head.fine_or_faulty with hFine | ⟨error, hFaulty⟩
  · obtain ⟨found, hFound, hHead⟩ := hFine.exists_symbol
    cases hSymbol.symm.trans hFound
    exact hHead
  · cases hSymbol.symm.trans hFaulty.symbol_eq

theorem symbol_typeWord (symbol : Symbol) :
    DataHead.symbol ⟨some (.text symbol.typeWord), some symbol.value⟩ = .ok symbol := by
  cases symbol with
  | nonTerminal symbol => rfl
  | terminal symbol =>
    obtain ⟨found, hFound, hText⟩ := Terminal.exists_ofText symbol.quoteFree
    simp only [DataHead.symbol, Symbol.typeWord, Symbol.value, Symbol.ofData, hFound,
      Terminal.ext hText]
    rfl

end DataHead

/-! ## All records of data -/

namespace OpenData

variable {ω : Type}

mutual

/-- The heads of all records, a record before its children. -/
def heads : OpenData ω → List DataHead
  | record kind value none _ => [⟨kind, value⟩]
  | record kind value (some list) _ => ⟨kind, value⟩ :: headsAll list

def headsAll : List (OpenData ω) → List DataHead
  | [] => []
  | data :: rest => heads data ++ headsAll rest

end

mutual

/-- The data with a list of children in every record and without other entries. -/
def filled : OpenData ω → TreeData
  | record kind value none _ => .record kind value (some [])
  | record kind value (some list) _ => .record kind value (some (filledAll list))

def filledAll : List (OpenData ω) → List TreeData
  | [] => []
  | data :: rest => filled data :: filledAll rest

end

end OpenData

namespace Tree

variable {ω : Type}

mutual

/-- Reading fails with the first fault among the records. -/
theorem errorOf_ofData : ∀ data : OpenData ω,
    errorOf (ofData data.known) = data.heads.findSome? DataHead.fault?
  | .record kind value none _ => by
    rw [OpenData.known, ofData, OpenData.heads, List.findSome?_singleton, DataHead.fault?,
      DataHead.symbol]
    cases Symbol.ofData kind value <;> rfl
  | .record kind value (some list) _ => by
    have hList := errorOf_ofDataAll list
    rw [OpenData.known, ofData, OpenData.heads, List.findSome?_cons, DataHead.fault?,
      DataHead.symbol]
    cases Symbol.ofData kind value with
    | error error => rfl
    | ok symbol =>
      dsimp only
      rw [← hList]
      cases ofDataAll (OpenData.knownAll list) <;> rfl

theorem errorOf_ofDataAll : ∀ list : List (OpenData ω),
    errorOf (ofDataAll (OpenData.knownAll list))
      = (OpenData.headsAll list).findSome? DataHead.fault?
  | [] => rfl
  | data :: rest => by
    have hData := errorOf_ofData data
    have hRest := errorOf_ofDataAll rest
    rw [OpenData.knownAll, ofDataAll, OpenData.headsAll, List.findSome?_append, ← hData, ← hRest]
    cases ofData data.known with
    | error error => rfl
    | ok tree => cases ofDataAll (OpenData.knownAll rest) <;> rfl

end

mutual

/-- The data of a tree that was read has all fields of the records that were read. -/
theorem toData_of_ofData : ∀ (data : OpenData ω) {tree : DerivationTree},
    ofData data.known = .ok tree → tree.toData = data.filled
  | .record kind value none others, tree => by
    intro hRead
    rw [OpenData.known, ofData] at hRead
    cases hSymbol : Symbol.ofData kind value with
    | error error => rw [hSymbol] at hRead; cases hRead
    | ok symbol =>
      rw [hSymbol] at hRead
      cases hRead
      cases DataHead.eq_of_symbol ⟨kind, value⟩ hSymbol
      rfl
  | .record kind value (some list) others, tree => by
    intro hRead
    rw [OpenData.known, ofData] at hRead
    cases hSymbol : Symbol.ofData kind value with
    | error error => rw [hSymbol] at hRead; cases hRead
    | ok symbol =>
      rw [hSymbol] at hRead
      dsimp only at hRead
      cases hList : ofDataAll (OpenData.knownAll list) with
      | error error => rw [hList] at hRead; cases hRead
      | ok trees =>
        rw [hList] at hRead
        cases hRead
        cases DataHead.eq_of_symbol ⟨kind, value⟩ hSymbol
        rw [toData, toDataAll_of_ofDataAll list hList, OpenData.filled]

theorem toDataAll_of_ofDataAll : ∀ (list : List (OpenData ω)) {trees : List DerivationTree},
    ofDataAll (OpenData.knownAll list) = .ok trees → toDataAll trees = OpenData.filledAll list
  | [], trees => by
    intro hRead
    cases hRead
    rfl
  | data :: rest, trees => by
    intro hRead
    rw [OpenData.knownAll, ofDataAll] at hRead
    cases hData : ofData data.known with
    | error error => rw [hData] at hRead; cases hRead
    | ok tree =>
      cases hRest : ofDataAll (OpenData.knownAll rest) with
      | error error => rw [hData, hRest] at hRead; cases hRead
      | ok others =>
        rw [hData, hRest] at hRead
        cases hRead
        rw [toDataAll, toData_of_ofData data hData, toDataAll_of_ofDataAll rest hRest,
          OpenData.filledAll]

end

mutual

/-- A tree can be read back from its data. -/
theorem ofData_toData : ∀ tree : DerivationTree, ofData tree.toData = .ok tree
  | .node symbol children => by
    have hSymbol := DataHead.symbol_typeWord symbol
    rw [DataHead.symbol] at hSymbol
    rw [toData, ofData, hSymbol]
    simp only [ofDataAll_toDataAll children]

theorem ofDataAll_toDataAll : ∀ trees : List DerivationTree,
    ofDataAll (toDataAll trees) = .ok trees
  | [] => rfl
  | tree :: rest => by
    rw [toDataAll, ofDataAll, ofData_toData tree]
    simp only [ofDataAll_toDataAll rest]

end

end Tree

namespace LinkedTree

/-- Reading a linked tree fails only where reading a tree without links fails. -/
theorem exists_ofData {data : TreeData} {tree : DerivationTree}
    (hTree : Tree.ofData data = .ok tree) :
    ∃ linked, ofData data = .ok linked ∧ linked.unlinked = tree := by
  cases hRead : ofData data with
  | error error => cases hTree.symm.trans (ofData_eq_error_iff.mp hRead)
  | ok linked => exact ⟨linked, rfl, Except.ok.inj ((unlinked_of_ofData hRead).symm.trans hTree)⟩

variable {ω : Type} {data : OpenData ω}

theorem errorOf_ofData (data : OpenData ω) :
    errorOf (ofData data.known) = data.heads.findSome? DataHead.fault? := by
  rw [← Tree.errorOf_ofData]
  cases hRead : ofData data.known with
  | error error => rw [ofData_eq_error_iff.mp hRead]; rfl
  | ok linked => rw [unlinked_of_ofData hRead]; rfl

theorem exists_ofData_iff :
    (∃ linked, ofData data.known = .ok linked) ↔ ∀ head ∈ data.heads, head.Fine := by
  have hError := errorOf_ofData data
  have hFine : (∀ head ∈ data.heads, head.Fine) ↔ data.heads.findSome? DataHead.fault? = none := by
    simp only [List.findSome?_eq_none_iff, DataHead.fault?_eq_none_iff]
  rw [hFine, ← hError]
  cases ofData data.known with
  | error error => simp [errorOf]
  | ok linked => simp [errorOf]

/-- Reading fails with what is wrong with the first faulty record. -/
theorem ofData_eq_error_iff_first {error : TreeDataError} :
    ofData data.known = .error error ↔ ∃ before head after,
      data.heads = before ++ head :: after ∧ (∀ earlier ∈ before, earlier.Fine) ∧
        head.Faulty error := by
  have hError := errorOf_ofData data
  have hFault : ofData data.known = .error error ↔
      data.heads.findSome? DataHead.fault? = some error := by
    rw [← hError]
    cases ofData data.known with
    | error other => simp [errorOf]
    | ok linked => simp [errorOf]
  rw [hFault, List.findSome?_eq_some_iff]
  simp only [DataHead.fault?_eq_none_iff, DataHead.fault?_eq_some_iff, and_comm]

/-- A tree is read back from its data with its links. Other data is read exactly if all of its
records are fine, what is read has the data with all fields in place, and the error is what is
wrong with the first faulty record. -/
theorem ofData_known_iff :
    (∀ tree : DerivationTree, ∃ linked, ofData tree.toData = .ok linked ∧
      linked.unlinked = tree ∧ linked.store.parentOf? 0 = none ∧
      ∀ child parent, linked.store.parentOf? child = some parent ↔
        child ∈ linked.store.childrenOf parent) ∧
    ∀ (ω : Type) (data : OpenData ω),
      ((∃ linked, ofData data.known = .ok linked) ↔ ∀ head ∈ data.heads, head.Fine) ∧
      (∀ linked, ofData data.known = .ok linked → linked.toData = data.filled) ∧
      ∀ error, ofData data.known = .error error ↔ ∃ before head after,
        data.heads = before ++ head :: after ∧ (∀ earlier ∈ before, earlier.Fine) ∧
          head.Faulty error := by
  refine ⟨fun tree => ?_, fun ω data => ⟨exists_ofData_iff, fun linked hRead => ?_,
    fun error => ofData_eq_error_iff_first⟩⟩
  · obtain ⟨linked, hRead, hTree⟩ := exists_ofData (Tree.ofData_toData tree)
    obtain ⟨symbol, hGrown⟩ := grownFrom_of_ofData hRead
    have hLinked := hGrown.consistent (.single symbol)
    exact ⟨linked, hRead, hTree, parentOf?_root linked, fun _ _ => hLinked.parent_iff⟩
  · exact Tree.toData_of_ofData data (unlinked_of_ofData hRead)

/-- Data with entries left out and entries under other names. -/
def partlyFilled : OpenData Nat :=
  .record (some (.text "nonterminal")) (some "s") (some [
    .record (some (.text "terminal")) (some "x") (some [
      .record (some (.text "nonterminal")) (some "it's") none [("width", 2)]]) [],
    .record (some (.text "terminal")) (some "") none []]) [("line", 1), ("column", 7)]

/-- Data with several faults, of which the last one stands at the highest level. -/
def faulty : OpenData Nat :=
  .record (some (.text "nonterminal")) (some "s") (some [
    .record (some (.text "terminal")) (some "x") (some [
      .record (some (.text "terminal")) none (some [.record none none none []]) []]) [],
    .record (some (.integer 3)) (some "y") none []]) []

/-- What is left out is filled in, and the first fault is reported. -/
theorem ofData_known_iff_partlyFilled :
    (∃ linked, ofData partlyFilled.known = .ok linked ∧ linked.toData = partlyFilled.filled) ∧
      ofData faulty.known = .error .missingValue := by
  obtain ⟨hReads, hFilled, -⟩ := ofData_known_iff.2 Nat partlyFilled
  obtain ⟨-, -, hFaults⟩ := ofData_known_iff.2 Nat faulty
  constructor
  · obtain ⟨linked, hRead⟩ := hReads.mpr fun head hHead => by
      simp only [partlyFilled, OpenData.heads, OpenData.headsAll, List.append_nil,
        List.cons_append, List.nil_append, List.mem_cons, List.not_mem_nil, or_false] at hHead
      rcases hHead with rfl | rfl | rfl | rfl
      · exact .nonTerminal "s"
      · exact .terminal (by decide)
      · exact .nonTerminal "it's"
      · exact .terminal (by decide)
    exact ⟨linked, hRead, hFilled linked hRead⟩
  · refine (hFaults .missingValue).mpr ⟨[⟨some (.text "nonterminal"), some "s"⟩,
      ⟨some (.text "terminal"), some "x"⟩], ⟨some (.text "terminal"), none⟩, _, rfl, ?_,
      .missingValue (.inr rfl)⟩
    intro earlier hEarlier
    simp only [List.mem_cons, List.not_mem_nil, or_false] at hEarlier
    rcases hEarlier with rfl | rfl
    · exact .nonTerminal "s"
    · exact .terminal (by decide)

end LinkedTree

end CodonGrammar
