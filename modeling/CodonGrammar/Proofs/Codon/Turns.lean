import CodonGrammar.Codec.Basic
import CodonGrammar.Proofs.Derivation.Expander
import Mathlib.Logic.Function.Iterate

/-!
# Codons in turn

A reader answers one query after another. In each turn it takes the codon that is so many places
behind the first one, counted around, modulo the bound of the query (`Codons.answers_iff`). So the
answers that a derivation gets are known from the codons and from the bounds alone.
-/

namespace CodonGrammar

namespace Codons

/-- After some readings the cursor is so many places further, counted around. -/
theorem iterate_advance (codons : Codons) (count : Nat) :
    (advance^[count] codons).values = codons.values ∧
      (advance^[count] codons).cursor = (codons.cursor + count) % codons.values.length := by
  induction count with
  | zero => exact ⟨rfl, (Nat.mod_eq_of_lt codons.cursor_lt).symm⟩
  | succ count ih =>
    obtain ⟨hValues, hCursor⟩ := ih
    have hNext : (advance (advance^[count] codons)).cursor
        = ((advance^[count] codons).cursor + 1) % (advance^[count] codons).values.length := rfl
    rw [Function.iterate_succ_apply', hNext, hCursor, hValues, Nat.mod_add_mod, Nat.add_assoc]
    exact ⟨hValues, rfl⟩

theorem getElem?_iterate_advance (codons : Codons) (count : Nat) :
    codons.values[(codons.cursor + count) % codons.values.length]?
      = some (advance^[count] codons).current := by
  obtain ⟨hValues, hCursor⟩ := codons.iterate_advance count
  rw [← hCursor, ← hValues, current, List.get_eq_getElem]
  exact List.getElem?_eq_getElem _

/-- The codon of a turn, for a reader that begins with the first one. -/
theorem getElem?_turn {values : List Nat} (hNonempty : values ≠ []) (turn : Nat) :
    values[turn % values.length]? = some (advance^[turn] (ofValues values hNonempty)).current := by
  have hTurn := (ofValues values hNonempty).getElem?_iterate_advance turn
  simpa only [ofValues, Nat.zero_add] using hTurn

/-- The integer that the codon of a turn is made of. -/
theorem exists_value {chromosome : List Int} (hNonempty : chromosome.map Int.toNat ≠ [])
    (count : Nat) :
    ∃ value, chromosome[count % chromosome.length]? = some value ∧
      (advance^[count] (ofValues (chromosome.map Int.toNat) hNonempty)).current = value.toNat := by
  have hCurrent := getElem?_turn hNonempty count
  rw [List.length_map, List.getElem?_map] at hCurrent
  obtain ⟨value, hValue, hNumber⟩ := Option.map_eq_some_iff.mp hCurrent
  exact ⟨value, hValue, hNumber.symm⟩

/-- After as many turns as there are codons, a reader is at its beginning again. -/
theorem iterate_advance_length {values : List Nat} (hNonempty : values ≠ []) :
    advance^[values.length] (ofValues values hNonempty) = ofValues values hNonempty := by
  obtain ⟨hValues, hCursor⟩ := (ofValues values hNonempty).iterate_advance values.length
  have hZero : (0 + values.length) % values.length = 0 := by simp
  have hStart := hCursor.trans hZero
  cases hReader : advance^[values.length] (ofValues values hNonempty) with
  | mk others cursor hLess =>
    rw [hReader] at hValues hStart
    cases hValues
    cases hStart
    rfl

theorem next_eq (codons : Codons) {bound : Int} (h : 1 ≤ bound) :
    codons.next bound = (.ok (codons.current % bound.toNat), codons.advance) := by
  rw [next, if_neg (by omega)]

end Codons

/-- Codons for all rules answer the codon at the cursor modulo the bound. -/
theorem Codec.indexChooser_shared (rule : Rule) {bound : Int} (hBound : 1 ≤ bound)
    (codons : Codons) :
    indexChooser rule bound (.shared codons)
      = (.ok ((codons.current : Int) % bound), .shared codons.advance) := by
  have hValue : ((codons.current % bound.toNat : Nat) : Int) = (codons.current : Int) % bound := by
    rw [Int.natCast_emod, Int.toNat_of_nonneg (by omega)]
  rw [indexChooser, Index.next, codons.next_eq hBound, ← hValue]

/-- The answers of codons to some queries are their codons in turn, modulo the bounds. -/
theorem Codons.answers_iff {codons : Codons} {queries : List (Query RuleCodonsError)}
    {last : Index} (hBounds : ∀ query ∈ queries, 1 ≤ query.bound) :
    Codec.indexChooser.Answers (.shared codons) queries last ↔
      last = .shared (advance^[queries.length] codons) ∧
        ∀ (turn : Nat) (query : Query RuleCodonsError), queries[turn]? = some query →
          query.answer = .ok (((advance^[turn] codons).current : Int) % query.bound) := by
  induction queries generalizing codons with
  | nil =>
    constructor
    · intro hAnswers
      cases hAnswers
      exact ⟨rfl, by simp⟩
    · rintro ⟨rfl, -⟩
      exact .nil _
  | cons query rest ih =>
    obtain ⟨hBound, hRest⟩ := List.forall_mem_cons.mp hBounds
    have hFirst := Codec.indexChooser_shared query.rule hBound codons
    rw [List.length_cons, Function.iterate_succ_apply]
    constructor
    · intro hAnswers
      cases hAnswers with
      | cons hAnswer hOthers =>
        obtain ⟨hValue, rfl⟩ := Prod.mk.inj (hFirst.symm.trans hAnswer)
        obtain ⟨hLast, hTurns⟩ := (ih hRest).mp hOthers
        refine ⟨hLast, ?_⟩
        intro turn other hOther
        cases turn with
        | zero =>
          cases hOther
          exact hValue.symm
        | succ turn => exact hTurns turn other hOther
    · rintro ⟨rfl, hTurns⟩
      have hAnswer : query.answer = .ok ((codons.current : Int) % query.bound) :=
        hTurns 0 query rfl
      rw [← hAnswer] at hFirst
      refine .cons hFirst ((ih hRest).mpr ⟨rfl, ?_⟩)
      intro turn other hOther
      exact hTurns (turn + 1) other hOther

end CodonGrammar
