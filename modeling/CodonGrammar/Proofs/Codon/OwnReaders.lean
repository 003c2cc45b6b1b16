import CodonGrammar.Codon.RuleCodons

/-!
# The reader of a rule

Of the readers that a grammar has for its rules, each head owns the first one with this head
(`RuleCodons.readerOf?`). A reading for a head depends on the reader it owns alone, and moves no
other reader that a head owns. What the readers of later rules with the same head hold is therefore
never seen.
-/

namespace CodonGrammar

/-- The place of the first rule with a head. -/
def Grammar.placeOf (grammar : Grammar) (head : NonTerminal) : Nat :=
  grammar.rules.findIdx (·.head = head)

theorem Grammar.getElem?_placeOf (grammar : Grammar) (head : NonTerminal) :
    grammar.rules[grammar.placeOf head]? = grammar.ruleFor? head := by
  rw [placeOf, ruleFor?, List.find?_eq_getElem?_findIdx]

namespace RuleCodons

/-- The first of the readers with the given head. -/
def firstOf? (readers : List (NonTerminal × Codons)) (head : NonTerminal) : Option Codons :=
  (readers.find? (·.1 = head)).map Prod.snd

/-- The reader that a head owns, if a rule has this head. -/
def readerOf? (codons : RuleCodons) (head : NonTerminal) : Option Codons :=
  firstOf? codons.readers head

theorem firstOf?_cons (owner : NonTerminal) (reader : Codons)
    (rest : List (NonTerminal × Codons)) (head : NonTerminal) :
    firstOf? ((owner, reader) :: rest) head
      = if owner = head then some reader else firstOf? rest head := by
  by_cases hOwner : owner = head <;> simp [firstOf?, hOwner]

theorem firstOf?_eq_getElem? {heads : List NonTerminal} {readers : List Codons}
    (hLength : readers.length = heads.length) (head : NonTerminal) :
    firstOf? (heads.zip readers) head = readers[heads.findIdx (· = head)]? := by
  induction heads generalizing readers with
  | nil =>
    obtain rfl := List.length_eq_zero_iff.mp hLength
    rfl
  | cons owner heads ih =>
    cases readers with
    | nil => cases hLength
    | cons reader readers =>
      rw [List.zip_cons_cons, firstOf?_cons, ih (Nat.succ.inj hLength), List.findIdx_cons]
      by_cases hOwner : owner = head <;> simp [hOwner]

theorem nextFrom_own (owner : NonTerminal) (reader : Codons) (rest : List (NonTerminal × Codons))
    (bound : Int) :
    nextFrom owner bound ((owner, reader) :: rest)
      = ((reader.next bound).1.mapError .bound, (owner, (reader.next bound).2) :: rest) := by
  rw [nextFrom, if_pos rfl]
  cases reader.next bound with
  | mk answer moved => cases answer <;> rfl

theorem nextFrom_other {owner head : NonTerminal} (h : owner ≠ head) (reader : Codons)
    (rest : List (NonTerminal × Codons)) (bound : Int) :
    nextFrom head bound ((owner, reader) :: rest)
      = ((nextFrom head bound rest).1, (owner, reader) :: (nextFrom head bound rest).2) := by
  rw [nextFrom, if_neg h]

theorem nextFrom_answer (head : NonTerminal) (bound : Int)
    (readers : List (NonTerminal × Codons)) :
    (nextFrom head bound readers).1
      = match firstOf? readers head with
        | none => .error (.noCodons head)
        | some reader => (reader.next bound).1.mapError .bound := by
  induction readers with
  | nil => rfl
  | cons first rest ih =>
    obtain ⟨owner, reader⟩ := first
    by_cases hOwner : owner = head
    · subst hOwner
      rw [nextFrom_own, firstOf?_cons, if_pos rfl]
    · rw [nextFrom_other hOwner, firstOf?_cons, if_neg hOwner]
      exact ih

theorem firstOf?_nextFrom (head other : NonTerminal) (bound : Int)
    (readers : List (NonTerminal × Codons)) :
    firstOf? (nextFrom head bound readers).2 other
      = if other = head then (firstOf? readers head).map fun reader => (reader.next bound).2
        else firstOf? readers other := by
  induction readers with
  | nil => simp [nextFrom, firstOf?]
  | cons first rest ih =>
    obtain ⟨owner, reader⟩ := first
    by_cases hOwner : owner = head
    · subst hOwner
      rw [nextFrom_own]
      by_cases hOther : other = owner
      · simp [firstOf?_cons, hOther]
      · simp [firstOf?_cons, hOther, Ne.symm hOther]
    · rw [nextFrom_other hOwner, firstOf?_cons, ih, firstOf?_cons, firstOf?_cons, if_neg hOwner]
      by_cases hOther : other = head
      · have hApart : owner ≠ other := fun hSame => hOwner (hSame.trans hOther)
        rw [if_neg hApart, if_pos hOther, if_pos hOther]
      · rw [if_neg hOther, if_neg hOther]

theorem next_answer (codons : RuleCodons) (head : NonTerminal) (bound : Int) :
    (codons.next head bound).1
      = match codons.readerOf? head with
        | none => .error (.noCodons head)
        | some reader => (reader.next bound).1.mapError .bound :=
  nextFrom_answer head bound codons.readers

theorem readerOf?_next (codons : RuleCodons) (head other : NonTerminal) (bound : Int) :
    (codons.next head bound).2.readerOf? other
      = if other = head then (codons.readerOf? head).map fun reader => (reader.next bound).2
        else codons.readerOf? other :=
  firstOf?_nextFrom head other bound codons.readers

/-- There is one reader for each rule, in the order of the rules. -/
theorem eq_of_of_eq_ok {grammar : Grammar} {readers : List Codons} {codons : RuleCodons}
    (h : RuleCodons.of grammar readers = .ok codons) :
    readers.length = grammar.rules.length ∧
      codons = ⟨(grammar.rules.map Rule.head).zip readers⟩ := by
  rw [RuleCodons.of] at h
  split at h
  · rename_i hLength
    cases h
    exact ⟨hLength, rfl⟩
  · cases h

/-- The readers of the rules of a grammar: each head owns the one at the place of its first rule. -/
theorem readerOf?_of {grammar : Grammar} {readers : List Codons} {codons : RuleCodons}
    (h : RuleCodons.of grammar readers = .ok codons) (head : NonTerminal) :
    codons.readerOf? head = readers[grammar.placeOf head]? := by
  obtain ⟨hLength, rfl⟩ := eq_of_of_eq_ok h
  have hHeads : readers.length = (grammar.rules.map Rule.head).length := by
    rw [hLength, List.length_map]
  rw [readerOf?, firstOf?_eq_getElem? hHeads, List.findIdx_map]
  rfl

end RuleCodons

end CodonGrammar
