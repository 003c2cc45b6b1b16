import CodonGrammar.Proofs.Codon.OwnReaders

/-!
# Calls for different rules

A list of calls for codons of rules may go back and forth between the rules. What the calls for one
head are answered is what the reader that the head owns answers to their bounds when it is left to
itself, and that reader ends where it would end alone (`RuleCodons.calls_independent`). Readers of
later rules with the same head stay where they are, and so do all readers when a call fails. Readers
are values, so no two rules ever share one.

Of a call only its own reader is changed (`RuleCodons.readers_next`), and no call changes which
reader a head owns. Both carry over from one call to a list of calls by induction.
-/

namespace CodonGrammar

/-- A call for a codon of the rule with a head, modulo a bound. -/
structure Call where
  head : NonTerminal
  bound : Int

/-- The bounds of the calls for a head, in the order of the calls. -/
def boundsFor (head : NonTerminal) (calls : List Call) : List Int :=
  (calls.filter (·.head = head)).map Call.bound

theorem boundsFor_cons (head : NonTerminal) (call : Call) (rest : List Call) :
    boundsFor head (call :: rest)
      = if call.head = head then call.bound :: boundsFor head rest else boundsFor head rest := by
  by_cases hHead : call.head = head <;> simp [boundsFor, hHead]

namespace Codons

/-- A reader after it has been read with some bounds. -/
def after (codons : Codons) (bounds : List Int) : Codons :=
  bounds.foldl (fun reader bound => (reader.next bound).2) codons

/-- What a reader answers to some bounds, one after the other. -/
def answersTo : Codons → List Int → List (Except BoundError Nat)
  | _, [] => []
  | codons, bound :: rest => (codons.next bound).1 :: answersTo (codons.next bound).2 rest

/-- A reading that is refused moves nothing. -/
theorem next_of_error {codons : Codons} {bound : Int} {error : BoundError}
    (h : (codons.next bound).1 = .error error) : (codons.next bound).2 = codons := by
  unfold next at h ⊢
  split
  · rfl
  · rename_i hPositive
    rw [if_neg hPositive] at h
    cases h

theorem error_mapError_next_iff {ε : Type} (codons : Codons) (bound : Int)
    (wrap : BoundError → ε) :
    (∃ error, (codons.next bound).1.mapError wrap = .error error) ↔ bound < 1 := by
  unfold next
  split
  · rename_i hBound
    exact iff_of_true ⟨_, rfl⟩ hBound
  · rename_i hPositive
    refine iff_of_false ?_ hPositive
    rintro ⟨error, hError⟩
    cases hError

end Codons

namespace RuleCodons

/-- The readers after some calls. -/
def after (codons : RuleCodons) (calls : List Call) : RuleCodons :=
  calls.foldl (fun readers call => (readers.next call.head call.bound).2) codons

/-- The answers to some calls, one after the other. -/
def answersTo : RuleCodons → List Call → List (Except RuleCodonsError Nat)
  | _, [] => []
  | codons, call :: rest =>
    (codons.next call.head call.bound).1 :: answersTo (codons.next call.head call.bound).2 rest

/-- The answers to the calls for a head, among the answers to all calls. -/
def answersFor (codons : RuleCodons) (head : NonTerminal) (calls : List Call) :
    List (Except RuleCodonsError Nat) :=
  ((calls.zip (codons.answersTo calls)).filter (·.1.head = head)).map Prod.snd

/-- The place of the reader that a head owns. -/
def ownPlace (codons : RuleCodons) (head : NonTerminal) : Nat :=
  codons.readers.findIdx (·.1 = head)

/-! ## One call -/

/-- A call changes nothing but the reader that its head owns. -/
theorem readers_next (codons : RuleCodons) (head : NonTerminal) (bound : Int) :
    (codons.next head bound).2.readers
      = codons.readers.modify (codons.ownPlace head)
          fun entry => (entry.1, (entry.2.next bound).2) := by
  obtain ⟨readers⟩ := codons
  show (nextFrom head bound readers).2 = readers.modify (readers.findIdx (·.1 = head)) _
  induction readers with
  | nil => rfl
  | cons entry rest ih =>
    obtain ⟨owner, reader⟩ := entry
    rw [List.findIdx_cons]
    by_cases hOwner : owner = head
    · subst hOwner
      simp [nextFrom_own]
    · simp [nextFrom_other hOwner, hOwner, ih]

theorem ownPlace_next (codons : RuleCodons) (head other : NonTerminal) (bound : Int) :
    (codons.next head bound).2.ownPlace other = codons.ownPlace other := by
  obtain ⟨readers⟩ := codons
  show (nextFrom head bound readers).2.findIdx (·.1 = other) = readers.findIdx (·.1 = other)
  induction readers with
  | nil => rfl
  | cons entry rest ih =>
    obtain ⟨owner, reader⟩ := entry
    by_cases hOwner : owner = head
    · subst hOwner
      rw [nextFrom_own, List.findIdx_cons, List.findIdx_cons]
    · rw [nextFrom_other hOwner, List.findIdx_cons, List.findIdx_cons, ih]

theorem head_of_ownPlace {codons : RuleCodons} {head : NonTerminal}
    {entry : NonTerminal × Codons} (h : codons.readers[codons.ownPlace head]? = some entry) :
    entry.1 = head := by
  obtain ⟨hPlace, rfl⟩ := List.getElem?_eq_some_iff.mp h
  exact of_decide_eq_true (List.findIdx_getElem (w := hPlace))

/-- A call that fails changes nothing at all. -/
theorem next_of_error {codons : RuleCodons} {head : NonTerminal} {bound : Int}
    {error : RuleCodonsError} (h : (codons.next head bound).1 = .error error) :
    (codons.next head bound).2 = codons := by
  obtain ⟨readers⟩ := codons
  show RuleCodons.mk (nextFrom head bound readers).2 = RuleCodons.mk readers
  replace h : (nextFrom head bound readers).1 = .error error := h
  congr 1
  induction readers with
  | nil => rfl
  | cons entry rest ih =>
    obtain ⟨owner, reader⟩ := entry
    by_cases hOwner : owner = head
    · subst hOwner
      rw [nextFrom_own] at h ⊢
      cases hAnswer : (reader.next bound).1 with
      | ok value =>
        rw [hAnswer] at h
        cases h
      | error refusal => rw [Codons.next_of_error hAnswer]
    · rw [nextFrom_other hOwner] at h ⊢
      rw [ih h]

/-! ## Many calls -/

theorem length_answersTo (codons : RuleCodons) (calls : List Call) :
    (codons.answersTo calls).length = calls.length := by
  induction calls generalizing codons with
  | nil => rfl
  | cons call rest ih => simp [answersTo, ih]

theorem answersFor_cons (codons : RuleCodons) (head : NonTerminal) (call : Call)
    (rest : List Call) :
    codons.answersFor head (call :: rest)
      = if call.head = head then
          (codons.next head call.bound).1
            :: (codons.next head call.bound).2.answersFor head rest
        else (codons.next call.head call.bound).2.answersFor head rest := by
  by_cases hHead : call.head = head
  · subst hHead
    simp [answersFor, answersTo]
  · simp [answersFor, answersTo, hHead]

/-- A head that owns a reader gets from it what it answers alone. The induction is on the calls: one
for another head leaves the reader as it is. -/
theorem answersFor_own (calls : List Call) {codons : RuleCodons} {head : NonTerminal}
    {reader : Codons} (hReader : codons.readerOf? head = some reader) :
    codons.answersFor head calls
      = (reader.answersTo (boundsFor head calls)).map (Except.mapError .bound) := by
  induction calls generalizing codons reader with
  | nil => rfl
  | cons call rest ih =>
    have hNext := codons.readerOf?_next call.head head call.bound
    rw [answersFor_cons, boundsFor_cons]
    by_cases hHead : call.head = head
    · rw [if_pos hHead.symm, hHead, hReader] at hNext
      rw [if_pos hHead, if_pos hHead, Codons.answersTo, List.map_cons, ih hNext,
        codons.next_answer, hReader]
    · rw [if_neg (Ne.symm hHead), hReader] at hNext
      rw [if_neg hHead, if_neg hHead, ih hNext]

/-- Calls for a head that owns no reader all fail. -/
theorem answersFor_unknown (calls : List Call) {codons : RuleCodons} {head : NonTerminal}
    (hNone : codons.readerOf? head = none) :
    codons.answersFor head calls = (boundsFor head calls).map fun _ => .error (.noCodons head) := by
  induction calls generalizing codons with
  | nil => rfl
  | cons call rest ih =>
    have hNext := codons.readerOf?_next call.head head call.bound
    rw [answersFor_cons, boundsFor_cons]
    by_cases hHead : call.head = head
    · rw [if_pos hHead.symm, hHead, hNone] at hNext
      rw [if_pos hHead, if_pos hHead, List.map_cons, ih hNext, codons.next_answer, hNone]
    · rw [if_neg (Ne.symm hHead), hNone] at hNext
      rw [if_neg hHead, if_neg hHead, ih hNext]

/-- After some calls a reader has been read with the bounds of the calls for its head if the head
owns it, and not at all if another one stands before it. -/
theorem getElem?_after (codons : RuleCodons) (calls : List Call) (place : Nat) :
    (codons.after calls).readers[place]?
      = codons.readers[place]?.map fun entry => (entry.1,
          if codons.ownPlace entry.1 = place then entry.2.after (boundsFor entry.1 calls)
          else entry.2) := by
  induction calls generalizing codons with
  | nil =>
    cases hEntry : codons.readers[place]? with
    | none => simpa [after] using hEntry
    | some entry => simp [after, hEntry, Codons.after, boundsFor]
  | cons call rest ih =>
    have hAfter : codons.after (call :: rest)
        = (codons.next call.head call.bound).2.after rest := rfl
    simp only [hAfter, ih, ownPlace_next, readers_next, List.getElem?_modify]
    cases hEntry : codons.readers[place]? with
    | none => simp
    | some entry =>
      by_cases hCalled : codons.ownPlace call.head = place
      · have hHead : entry.1 = call.head := by
          subst hCalled
          exact head_of_ownPlace hEntry
        simp [hCalled, hHead, boundsFor_cons, Codons.after]
      · by_cases hOwn : codons.ownPlace entry.1 = place
        · have hHead : call.head ≠ entry.1 := by
            intro hSame
            rw [hSame] at hCalled
            exact hCalled hOwn
          simp [hCalled, hOwn, boundsFor_cons, hHead]
        · simp [hCalled, hOwn]

/-- The readers that heads own after some calls. -/
theorem readerOf?_after (codons : RuleCodons) (calls : List Call) (head : NonTerminal) :
    (codons.after calls).readerOf? head
      = (codons.readerOf? head).map fun reader => reader.after (boundsFor head calls) := by
  induction calls generalizing codons with
  | nil => simp [after, boundsFor, Codons.after]
  | cons call rest ih =>
    have hAfter : codons.after (call :: rest)
        = (codons.next call.head call.bound).2.after rest := rfl
    rw [hAfter, ih, codons.readerOf?_next, boundsFor_cons]
    by_cases hHead : call.head = head
    · subst hHead
      rw [if_pos rfl, if_pos rfl, Option.map_map]
      rfl
    · rw [if_neg (Ne.symm hHead), if_neg hHead]

/-- Calls with the same bounds for each head have the same answers for each head, and move the
readers alike. -/
theorem answersFor_congr {first second : List Call}
    (hSame : ∀ head, boundsFor head first = boundsFor head second) (codons : RuleCodons) :
    (∀ head, codons.answersFor head first = codons.answersFor head second) ∧
      codons.after first = codons.after second := by
  constructor
  · intro head
    cases hReader : codons.readerOf? head with
    | none => rw [answersFor_unknown _ hReader, answersFor_unknown _ hReader, hSame]
    | some reader => rw [answersFor_own _ hReader, answersFor_own _ hReader, hSame]
  · have hReaders : (codons.after first).readers = (codons.after second).readers := by
      refine List.ext_getElem? fun place => ?_
      simp only [getElem?_after, hSame]
    cases hFirst : codons.after first
    cases hSecond : codons.after second
    simpa [hFirst, hSecond] using hReaders

/-! ## The readers of a grammar -/

theorem ownPlace_of {grammar : Grammar} {readers : List Codons} {codons : RuleCodons}
    (h : RuleCodons.of grammar readers = .ok codons) (head : NonTerminal) :
    codons.ownPlace head = grammar.placeOf head := by
  obtain ⟨hLength, rfl⟩ := eq_of_of_eq_ok h
  have hHeads : ((grammar.rules.map Rule.head).zip readers).map Prod.fst
      = grammar.rules.map Rule.head :=
    List.map_fst_zip (by simp [hLength])
  have hPlace := List.findIdx_map ((grammar.rules.map Rule.head).zip readers) Prod.fst
    fun other => decide (other = head)
  rw [hHeads, List.findIdx_map] at hPlace
  exact hPlace.symm

theorem readers_of {grammar : Grammar} {readers : List Codons} {codons : RuleCodons}
    (h : RuleCodons.of grammar readers = .ok codons) {place : Nat} {rule : Rule} {reader : Codons}
    (hRule : grammar.rules[place]? = some rule) (hReader : readers[place]? = some reader) :
    codons.readers[place]? = some (rule.head, reader) := by
  obtain ⟨-, rfl⟩ := eq_of_of_eq_ok h
  simp [List.getElem?_zip_eq_some, hRule, hReader]

/-- What some calls do to the readers of a grammar. The calls for a head with a rule are answered
by the reader at the place of the first rule with this head as if there were no other calls, and
the others all fail. No other reader is moved, and none by a call that fails. -/
structure ServesApart (codons : RuleCodons) (grammar : Grammar) (readers : List Codons)
    (calls : List Call) : Prop where
  answered : (codons.answersTo calls).length = calls.length
  alone : ∀ head reader, readers[grammar.placeOf head]? = some reader →
    codons.answersFor head calls
      = (reader.answersTo (boundsFor head calls)).map (Except.mapError .bound)
  unknown : ∀ head, grammar.ruleFor? head = none →
    codons.answersFor head calls = (boundsFor head calls).map fun _ => .error (.noCodons head)
  moved : ∀ head reader, readers[grammar.placeOf head]? = some reader →
    (codons.after calls).readers[grammar.placeOf head]?
      = some (head, reader.after (boundsFor head calls))
  unmoved : ∀ place rule reader, grammar.rules[place]? = some rule →
    readers[place]? = some reader → grammar.placeOf rule.head ≠ place →
    (codons.after calls).readers[place]? = some (rule.head, reader)
  fails_iff : ∀ earlier call later, calls = earlier ++ call :: later →
    ((∃ error, ((codons.after earlier).next call.head call.bound).1 = .error error) ↔
      grammar.ruleFor? call.head = none ∨ call.bound < 1)
  failed : ∀ earlier call later, calls = earlier ++ call :: later →
    ∀ error, ((codons.after earlier).next call.head call.bound).1 = .error error →
      codons.after (earlier ++ [call]) = codons.after earlier

section Grammar

variable {grammar : Grammar} {readers : List Codons} {codons : RuleCodons}
  (hCodons : RuleCodons.of grammar readers = .ok codons)

include hCodons

/-- A head owns a reader exactly when there is a rule for it. -/
theorem readerOf?_eq_none_iff {head : NonTerminal} :
    codons.readerOf? head = none ↔ grammar.ruleFor? head = none := by
  rw [readerOf?_of hCodons, ← grammar.getElem?_placeOf, List.getElem?_eq_none_iff,
    List.getElem?_eq_none_iff, (eq_of_of_eq_ok hCodons).1]

theorem error_next_iff (calls : List Call) (head : NonTerminal) (bound : Int) :
    (∃ error, ((codons.after calls).next head bound).1 = .error error) ↔
      grammar.ruleFor? head = none ∨ bound < 1 := by
  rw [next_answer, readerOf?_after, ← readerOf?_eq_none_iff hCodons]
  cases codons.readerOf? head with
  | none => simp
  | some reader =>
    rw [Option.map_some]
    simpa using Codons.error_mapError_next_iff _ bound RuleCodonsError.bound

theorem servesApart (calls : List Call) : codons.ServesApart grammar readers calls where
  answered := codons.length_answersTo calls
  alone := by
    intro head reader hReader
    exact answersFor_own calls ((readerOf?_of hCodons head).trans hReader)
  unknown := by
    intro head hNone
    exact answersFor_unknown calls ((readerOf?_eq_none_iff hCodons).mpr hNone)
  moved := by
    intro head reader hReader
    have hPlace := (List.getElem?_eq_some_iff.mp hReader).1
    rw [(eq_of_of_eq_ok hCodons).1] at hPlace
    obtain ⟨rule, hRule⟩ : ∃ rule, grammar.rules[grammar.placeOf head]? = some rule :=
      ⟨_, List.getElem?_eq_getElem hPlace⟩
    have hEntry := readers_of hCodons hRule hReader
    have hHead : rule.head = head := by
      rw [← ownPlace_of hCodons] at hEntry
      exact head_of_ownPlace hEntry
    rw [hHead] at hEntry
    rw [getElem?_after, hEntry, Option.map_some, ownPlace_of hCodons, if_pos rfl]
  unmoved := by
    intro place rule reader hRule hReader hShadowed
    rw [getElem?_after, readers_of hCodons hRule hReader, Option.map_some, ownPlace_of hCodons,
      if_neg hShadowed]
  fails_iff := by
    intro earlier call later _
    exact error_next_iff hCodons earlier call.head call.bound
  failed := by
    intro earlier call later _ error hError
    rw [after, List.foldl_append]
    exact next_of_error hError

end Grammar

/-- The readers of the rules of a grammar, one for each rule, serve all calls as if those for each
head were alone. So it does not matter how the calls for different heads are mixed: with the same
bounds for each head in the same order, the answers for each head and the last cursors are the
same. -/
theorem calls_independent {grammar : Grammar} {readers : List Codons}
    (hCount : readers.length = grammar.rules.length) :
    ∃ codons, RuleCodons.of grammar readers = .ok codons ∧
      (∀ calls, codons.ServesApart grammar readers calls) ∧
      ∀ first second, (∀ head, boundsFor head first = boundsFor head second) →
        (∀ head, codons.answersFor head first = codons.answersFor head second) ∧
          (codons.after first).cursors = (codons.after second).cursors := by
  have hCodons : RuleCodons.of grammar readers
      = .ok ⟨(grammar.rules.map Rule.head).zip readers⟩ := if_pos hCount
  refine ⟨_, hCodons, servesApart hCodons, ?_⟩
  intro first second hSame
  obtain ⟨hAnswers, hAfter⟩ := answersFor_congr hSame _
  exact ⟨hAnswers, congrArg cursors hAfter⟩

/-- Two mixtures of calls for two rules, a head without a rule, and a bound of zero. The third rule
is behind another one with its head, and its reader stays at the beginning. -/
theorem calls_independent_shadowed :
    let a : NonTerminal := ⟨"a"⟩
    let b : NonTerminal := ⟨"b"⟩
    let c : NonTerminal := ⟨"c"⟩
    let body : Expression := .single (.nonTerminal a)
    let grammar : Grammar := ⟨[⟨a, [body], by simp⟩, ⟨b, [body], by simp⟩, ⟨a, [body], by simp⟩],
      by simp⟩
    let readers : List Codons :=
      [.ofValues [3, 9, 5] (by simp), .ofValues [7] (by simp), .ofValues [8, 2] (by simp)]
    let calls : List Call := [⟨a, 2⟩, ⟨b, 3⟩, ⟨c, 4⟩, ⟨a, 0⟩, ⟨a, 10⟩, ⟨b, 5⟩]
    let sorted : List Call := [⟨a, 2⟩, ⟨a, 0⟩, ⟨a, 10⟩, ⟨b, 3⟩, ⟨b, 5⟩, ⟨c, 4⟩]
    readers.length = grammar.rules.length ∧
      ∃ codons, RuleCodons.of grammar readers = .ok codons ∧
        codons.answersFor a calls = [.ok 1, .error (.bound ⟨0⟩), .ok 9] ∧
        codons.answersFor c calls = [.error (.noCodons c)] ∧
        (codons.after calls).cursors = [2, 0, 0] ∧
        codons.answersFor a sorted = codons.answersFor a calls ∧
        (codons.after sorted).cursors = (codons.after calls).cursors := by
  intro a b c body grammar readers calls sorted
  have hCount : readers.length = grammar.rules.length := rfl
  obtain ⟨codons, hCodons, hApart, hMixed⟩ := calls_independent hCount
  have hSame : ∀ head, boundsFor head sorted = boundsFor head calls := by
    intro head
    by_cases hA : a = head
    · subst hA
      rfl
    · by_cases hB : b = head
      · subst hB
        rfl
      · simp [boundsFor_cons, sorted, calls, hA, hB]
  obtain ⟨hAnswers, hCursors⟩ := hMixed sorted calls hSame
  have hBounds : boundsFor a calls = [2, 0, 10] := by decide
  have hFirst : codons.answersFor a calls = [.ok 1, .error (.bound ⟨0⟩), .ok 9] := by
    rw [(hApart calls).alone a _ rfl, hBounds]
    rfl
  refine ⟨hCount, codons, hCodons, hFirst, (hApart calls).unknown c rfl, ?_, hAnswers a, hCursors⟩
  cases hCodons
  rfl

end RuleCodons

end CodonGrammar
