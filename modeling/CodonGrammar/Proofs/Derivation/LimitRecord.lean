import CodonGrammar.Proofs.Derivation.Serving

/-!
# The log record about the limit

After a derivation an engine compares the number of expansions with the limit, and it does not look
at what is left to expand. So the record says that all expansions allowed have been made
(`Grammar.limit_recorded`). Every derivation that the limit cuts off has the record, but so does one
that is finished by its last expansion, although no limit above would change it
(`Grammar.limit_recorded_of_finished`).
-/

namespace CodonGrammar

variable {σ ε : Type}

namespace Engine

/-- The log records about what an engine has derived. -/
def records : (engine : Engine) → (derived : Derived engine.Result) → (limit : Nat) →
    List Log.Record
  | sentence _, derived, limit => derived.sentenceRecords limit
  | tree, derived, limit => derived.treeRecords limit

/-- The record that a limit stopped the engine. -/
def limitRecord (engine : Engine) (limit : Nat) : Log.Record where
  level := .debug
  logger := "cfgevo.generators"
  message := match engine with
    | sentence _ => "Derivation stopped at the expansion limit (" ++ limit.repr ++ ")"
    | tree => "Derivation tree stopped at the expansion limit (" ++ limit.repr ++ ")"

theorem records_eq (engine : Engine) (derived : Derived engine.Result) (limit : Nat) :
    engine.records derived limit
      = if limit ≤ derived.expansions then [engine.limitRecord limit] else [] := by
  cases engine <;> rfl

variable {engine : Engine} {derived : Derived engine.Result} {limit : Nat}

theorem records_eq_limitRecord_iff :
    engine.records derived limit = [engine.limitRecord limit] ↔ limit ≤ derived.expansions := by
  rw [records_eq]
  split <;> simp [*]

theorem records_eq_nil_iff :
    engine.records derived limit = [] ↔ derived.expansions < limit := by
  rw [records_eq]
  split
  · simp only [List.cons_ne_nil, false_iff]
    omega
  · simp only [true_iff]
    omega

end Engine

/-- A chooser that always answers zero never leaves the range, as every rule has an alternative. -/
theorem Chooser.inRange_of_first {chooser : Chooser σ ε}
    (hFirst : ∀ rule bound state, (chooser rule bound state).1 = .ok 0) : chooser.InRange :=
  fun rule _ => ⟨0, hFirst _ _ _, Int.le_refl 0, Int.natCast_pos.mpr rule.arity_pos⟩

namespace Grammar

/-- A chooser that stays in range always leads to a result, and the record about the limit is there
exactly when as many queries have been asked as the limit allows. It is there if something is left
to expand. If nothing is, a greater limit leads to the same result by the same queries, and then
there is no record. -/
theorem limit_recorded (grammar : Grammar) (engine : Engine) {chooser : Chooser σ ε}
    (hRange : chooser.InRange) {limit : Nat} (hLimit : 1 ≤ limit) (state : σ) :
    ∃ (queries : List (Query ε)) (result : engine.Result) (last : σ),
      grammar.Produces engine chooser limit state queries result last ∧
      (engine.records ⟨result, queries.length⟩ limit = [engine.limitRecord limit]
        ↔ queries.length = limit) ∧
      (engine.records ⟨result, queries.length⟩ limit = [] ↔ queries.length < limit) ∧
      (¬ grammar.Finished (engine.read result) →
        engine.records ⟨result, queries.length⟩ limit = [engine.limitRecord limit]) ∧
      (grammar.Finished (engine.read result) → ∀ greater, limit < greater →
        grammar.Produces engine chooser greater state queries result last ∧
        engine.records ⟨result, queries.length⟩ greater = []) := by
  obtain ⟨S, expander, view, start, hDrives⟩ := grammar.exists_drives engine
  obtain ⟨queries, reached, last, hPlays, hAnswers, -, hLength, hEnd⟩ :=
    (hRange.serves grammar).exists_plays hDrives.sound limit start
      (trivial : (fun _ => True) state)
  have hRecord : engine.records ⟨view reached, queries.length⟩ limit = [engine.limitRecord limit]
      ↔ queries.length = limit := by
    rw [Engine.records_eq_limitRecord_iff]
    exact ⟨Nat.le_antisymm hLength, fun hSpent => Nat.le_of_eq hSpent.symm⟩
  refine ⟨queries, view reached, last,
    hDrives.produces_of_plays hPlays hLimit hLength hEnd hAnswers, hRecord,
    Engine.records_eq_nil_iff, ?_, ?_⟩
  · intro hUnfinished
    rcases hEnd with hSpent | hStops
    · exact hRecord.mpr hSpent
    · exact absurd (hDrives.sound.finished hStops) hUnfinished
  · intro hFinished greater hGreater
    -- The engine stops by itself, so the limit does not matter.
    have hStops := hDrives.sound.stops_of_finished hFinished
    have hLess : queries.length < greater := by omega
    have hSame : grammar.Produces engine chooser greater state queries (view reached) last :=
      hDrives.produces_of_plays hPlays (by omega) (Nat.le_of_lt hLess) (.inr hStops) hAnswers
    exact ⟨hSame, Engine.records_eq_nil_iff.mpr hLess⟩

/-- A recursion that the limit cuts off after its second expansion. -/
theorem limit_recorded_cut :
    let s : Symbol := .nonTerminal ⟨"s"⟩
    let x : Symbol := .terminal ⟨"x", by decide⟩
    let grammar : Grammar := ⟨[⟨⟨"s"⟩, [⟨[x, s], by simp⟩], by simp⟩], by simp⟩
    let engine : Engine := .sentence .leftMost
    let first : Chooser Nat Empty := fun _ _ count => (.ok 0, count + 1)
    first.InRange ∧ grammar.produce engine first 2 0 = (.ok ⟨[x, x, s], 2⟩, 2) ∧
      engine.records ⟨[x, x, s], 2⟩ 2 = [engine.limitRecord 2] := by
  intro s x grammar engine first
  have hRange : first.InRange := Chooser.inRange_of_first fun _ _ _ => rfl
  obtain ⟨queries, result, last, hProduces, -, -, hUnfinished, -⟩ :=
    limit_recorded grammar engine hRange (by decide : 1 ≤ 2) 0
  have hResult : grammar.produce engine first 2 0 = (.ok ⟨[x, x, s], 2⟩, 2) := rfl
  obtain ⟨hDerived, -⟩ := Prod.mk.inj (hProduces.plain.symm.trans hResult)
  obtain ⟨rfl, hLength⟩ := Derived.mk.inj (Except.ok.inj hDerived)
  rw [hLength] at hUnfinished
  exact ⟨hRange, hResult, hUnfinished (by decide)⟩

/-- With a single expansion that finishes the sentence, and no more than that allowed, each engine
has the record. -/
theorem limit_recorded_of_finished :
    let x : Symbol := .terminal ⟨"x", by decide⟩
    let grammar : Grammar := ⟨[⟨⟨"s"⟩, [.single x], by simp⟩], by simp⟩
    let first : Chooser Nat Empty := fun _ _ count => (.ok 0, count + 1)
    first.InRange ∧ ∀ engine : Engine, ∃ result : engine.Result,
      grammar.produce engine first 1 0 = (.ok ⟨result, 1⟩, 1) ∧
      grammar.Finished (engine.read result) ∧
      engine.records ⟨result, 1⟩ 1 = [engine.limitRecord 1] := by
  intro x grammar first
  refine ⟨Chooser.inRange_of_first fun _ _ _ => rfl, ?_⟩
  intro engine
  have hFinished : grammar.Finished [x] := by decide
  cases engine with
  | sentence strategy => cases strategy <;> exact ⟨[x], rfl, hFinished, rfl⟩
  | tree =>
    refine ⟨.node (.nonTerminal ⟨"s"⟩) [.leaf x], rfl, ?_, rfl⟩
    rwa [Engine.read, Tree.sentence, Tree.fringe_eq_leafLabels]

end Grammar

end CodonGrammar
