import CodonGrammar.Proofs.Derivation.Serving

/-!
# A higher limit

A derivation with a higher limit begins like the one with the lower limit and goes on where that one
was cut off (`Grammar.produce_continues`). It asks the same queries first, and then more of them,
which continue the result of the lower limit: the sentence by further steps, and the tree only at its
leaves. If nothing was left to expand, the higher limit changes nothing.

This holds of every run of a sound expander, because the situation in which the lower limit ends
determines all that comes after it. In which part of a pass this happens is seen in the situation
alone.
-/

namespace CodonGrammar

variable {σ ε : Type}

namespace Grammar

/-- The result with a higher limit continues the result with a lower one, from the same state on:
the queries of the lower limit come first, and the other queries lead from the one result to the
other. A finished result stays as it is. -/
theorem produce_continues (grammar : Grammar) (engine : Engine) {chooser : Chooser σ ε}
    {kept : σ → Prop} (hServes : chooser.Serves grammar kept) {low high : Nat} (hLow : 1 ≤ low)
    (hHigh : low ≤ high) (state : σ) (hKept : kept state) :
    ∃ (result continued : engine.Result) (queries more : List (Query ε)) (reached last : σ),
      grammar.Produces engine chooser low state queries result reached ∧
      grammar.Produces engine chooser high state (queries ++ more) continued last ∧
      grammar.Continues more engine result continued ∧
      (grammar.Finished (engine.read result) →
        more = [] ∧ continued = result ∧ last = reached) := by
  obtain ⟨S, expander, view, start, hDrives⟩ := grammar.exists_drives engine
  obtain ⟨queries, middle, reached, hPlays, hAnswers, hReached, hLength, hEnd⟩ :=
    hServes.exists_plays hDrives.sound low start hKept
  obtain ⟨more, situation, last, hMore, hMoreAnswers, -, hMoreLength, hMoreEnd⟩ :=
    hServes.exists_plays hDrives.sound (high - queries.length) middle hReached
  have hAllLength : (queries ++ more).length ≤ high := by
    rw [List.length_append]
    omega
  have hAllEnd : (queries ++ more).length = high ∨ expander situation = none := by
    refine hMoreEnd.imp_left fun hSpent => ?_
    rw [List.length_append]
    omega
  refine ⟨view middle, view situation, queries, more, reached, last,
    hDrives.produces_of_plays hPlays hLow hLength hEnd hAnswers,
    hDrives.produces_of_plays (hPlays.append hMore) (Nat.le_trans hLow hHigh) hAllLength hAllEnd
      (hAnswers.append hMoreAnswers),
    hDrives.continues hMore, ?_⟩
  intro hFinished
  obtain ⟨rfl, rfl⟩ := hMore.of_stopped (hDrives.sound.stops_of_finished hFinished)
  cases hMoreAnswers
  exact ⟨rfl, rfl, rfl⟩

/-- A tree that is cut off twice, and grows in between. -/
theorem produce_continues_tree :
    let x : Symbol := .terminal ⟨"x", by decide⟩
    let a : Symbol := .nonTerminal ⟨"a"⟩
    let s : Symbol := .nonTerminal ⟨"s"⟩
    let grammar : Grammar := ⟨[
      ⟨⟨"s"⟩, [⟨[a, a], by simp⟩], by simp⟩, ⟨⟨"a"⟩, [⟨[a, x], by simp⟩], by simp⟩], by simp⟩
    let first : Chooser Nat Empty := fun _ _ count => (.ok 0, count + 1)
    let tree : DerivationTree := .node s [.node a [.leaf a, .leaf x], .leaf a]
    let grown : DerivationTree := .node s [.node a [.node a [.leaf a, .leaf x], .leaf x], .leaf a]
    first.Serves grammar (fun _ => True) ∧
      grammar.produce .tree first 2 0 = (.ok ⟨tree, 2⟩, 2) ∧
      grammar.produce .tree first 3 0 = (.ok ⟨grown, 3⟩, 3) ∧
      ∃ queries more : List (Query Empty), queries.length = 2 ∧ more.length = 1 ∧
        grammar.Continues more .tree tree grown := by
  intro x a s grammar first tree grown
  have hRange : first.InRange := fun rule _ => ⟨0, rfl, by omega, Int.ofNat_lt.mpr rule.arity_pos⟩
  have hServes := hRange.serves grammar
  have hTree : grammar.produce .tree first 2 0 = (.ok ⟨tree, 2⟩, 2) := by cbv
  have hGrown : grammar.produce .tree first 3 0 = (.ok ⟨grown, 3⟩, 3) := by cbv
  obtain ⟨result, continued, queries, more, reached, last, hLow, hHigh, hContinues, -⟩ :=
    produce_continues grammar .tree hServes (by decide : 1 ≤ 2) (by decide : 2 ≤ 3) 0 trivial
  injection hLow.plain.symm.trans hTree with hResult
  injection hHigh.plain.symm.trans hGrown with hContinued
  injection hResult with hResult
  injection hContinued with hContinued
  injection hResult with hResult hQueries
  injection hContinued with hContinued hMore
  rw [List.length_append] at hMore
  rw [hResult, hContinued] at hContinues
  exact ⟨hServes, hTree, hGrown, queries, more, hQueries, by omega, hContinues⟩

end Grammar

end CodonGrammar
