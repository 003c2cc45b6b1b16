import CodonGrammar.Proofs.Derivation.Queries
import CodonGrammar.Proofs.Tree.Fringe

/-!
# Trees and left-most sentences

A tree grows at the first of its leaves that has a rule, and that is the first symbol with a rule in
the sentence of the tree. So each step of a tree is the left-most step of its sentence, with the
same question to the chooser (`growTree_sentence`), and the two ways to derive agree on everything
that can be observed (`deriveTree_agrees_leftMost`).
-/

namespace CodonGrammar

/-- A derived tree read as a sentence, from the left to the right. -/
def Derived.read (tree : Derived DerivationTree) : Derived (List Symbol) :=
  ⟨tree.result.sentence, tree.expansions⟩

namespace Grammar

variable (grammar : Grammar)

/-- The first symbol with a rule lies in the first part of a sentence, or else in the second. -/
theorem splitAtExpandable_append (first second : List Symbol) :
    grammar.splitAtExpandable (first ++ second) =
      match grammar.splitAtExpandable first with
      | some (before, rule, after) => some (before, rule, after ++ second)
      | none => (grammar.splitAtExpandable second).map fun (before, rule, after) =>
          (first ++ before, rule, after) := by
  induction first with
  | nil => simp [splitAtExpandable]
  | cons symbol first ih =>
    rw [List.cons_append, splitAtExpandable, splitAtExpandable]
    cases grammar.expansionOf? symbol with
    | some rule => rfl
    | none =>
      simp only [ih]
      cases grammar.splitAtExpandable first with
      | some split => rfl
      | none => simp [Function.comp_def]

end Grammar

namespace Tree

theorem sentence_leaf (symbol : Symbol) : (leaf symbol).sentence = [symbol] := by
  rw [sentence, fringe_eq_leafLabels]
  rfl

variable (grammar : Grammar)

mutual

theorem firstRule?_eq : ∀ tree : DerivationTree,
    tree.firstRule? grammar
      = (grammar.splitAtExpandable tree.leafLabels).map fun split => split.2.1
  | node symbol [] => by
    simp only [firstRule?, leafLabels, Grammar.splitAtExpandable]
    cases grammar.expansionOf? symbol <;> rfl
  | node _ (first :: rest) => firstRuleOf?_eq (first :: rest)

theorem firstRuleOf?_eq : ∀ trees : List DerivationTree,
    firstRuleOf? grammar trees
      = (grammar.splitAtExpandable (leafLabelsAll trees)).map fun split => split.2.1
  | [] => rfl
  | tree :: rest => by
    rw [firstRuleOf?, leafLabelsAll, firstRule?_eq tree, firstRuleOf?_eq rest,
      Grammar.splitAtExpandable_append]
    cases grammar.splitAtExpandable tree.leafLabels with
    | some split => rfl
    | none => simp [Function.comp_def]

end

variable {symbols : List Symbol}

theorem ne_nil_of_expandIn? {trees children : List DerivationTree}
    (h : expandIn? grammar symbols trees = some children) : children ≠ [] := by
  cases trees with
  | nil => cases h
  | cons tree rest =>
    rw [expandIn?] at h
    split at h
    · cases h
      exact List.cons_ne_nil _ _
    · split at h
      · cases h
        exact List.cons_ne_nil _ _
      · cases h

mutual

/-- A tree can be expanded when its sentence has a symbol with a rule, and then the given symbols
take the place of this symbol. -/
theorem expand?_leafLabels (hSymbols : symbols ≠ []) : ∀ tree : DerivationTree,
    (tree.expand? grammar symbols).map leafLabels
      = (grammar.splitAtExpandable tree.leafLabels).map
          fun (before, _, after) => before ++ symbols ++ after
  | node symbol [] => by
    simp only [expand?, leafLabels, Grammar.splitAtExpandable]
    cases grammar.expansionOf? symbol with
    | none => rfl
    | some rule =>
      have hLeaves : symbols.map leaf ≠ [] := by simpa using hSymbols
      simp [leafLabels_node hLeaves, leafLabelsAll_leaf]
  | node symbol (first :: rest) => by
    have hChildren := expandIn?_leafLabels hSymbols (first :: rest)
    rw [leafLabels, ← hChildren, expand?]
    cases hExpand : expandIn? grammar symbols (first :: rest) with
    | none => rfl
    | some children =>
      have hNonempty := ne_nil_of_expandIn? grammar hExpand
      simp [leafLabels_node hNonempty]

theorem expandIn?_leafLabels (hSymbols : symbols ≠ []) : ∀ trees : List DerivationTree,
    (expandIn? grammar symbols trees).map leafLabelsAll
      = (grammar.splitAtExpandable (leafLabelsAll trees)).map
          fun (before, _, after) => before ++ symbols ++ after
  | [] => rfl
  | tree :: rest => by
    have hTree := expand?_leafLabels hSymbols tree
    have hRest := expandIn?_leafLabels hSymbols rest
    rw [leafLabelsAll, Grammar.splitAtExpandable_append, expandIn?]
    cases hSplit : grammar.splitAtExpandable tree.leafLabels with
    | some split =>
      rw [hSplit] at hTree
      obtain ⟨expanded, hExpand, hLabels⟩ := Option.map_eq_some_iff.mp hTree
      simp [hExpand, leafLabelsAll, hLabels]
    | none =>
      rw [hSplit] at hTree
      have hExpand := Option.map_eq_none_iff.mp hTree
      cases hSplitRest : grammar.splitAtExpandable (leafLabelsAll rest) with
      | none =>
        rw [hSplitRest] at hRest
        have hNone := Option.map_eq_none_iff.mp hRest
        simp [hExpand, hNone]
      | some split =>
        rw [hSplitRest] at hRest
        obtain ⟨expanded, hSome, hLabels⟩ := Option.map_eq_some_iff.mp hRest
        simp [hExpand, hSome, leafLabelsAll, hLabels]

end

theorem sentence_expand (hSymbols : symbols ≠ []) {tree : DerivationTree}
    {before after : List Symbol} {rule : Rule}
    (h : grammar.splitAtExpandable tree.sentence = some (before, rule, after)) :
    (tree.expand grammar symbols).sentence = before ++ symbols ++ after := by
  have hExpand := expand?_leafLabels grammar hSymbols tree
  rw [sentence, fringe_eq_leafLabels] at h ⊢
  rw [h] at hExpand
  obtain ⟨expanded, hSome, hLabels⟩ := Option.map_eq_some_iff.mp hExpand
  rw [expand, hSome]
  exact hLabels

end Tree

namespace Grammar

variable {σ ε : Type} (grammar : Grammar) (chooser : Chooser σ ε)

/-- Growing a tree and then reading its sentence is expanding its sentence. -/
theorem growTree_sentence (budget : Nat) (tree : DerivationTree) (state : σ) :
    ((grammar.growTree chooser budget tree state).andThen fun grown state =>
        (.ok (grown.1.sentence, grown.2), state))
      = grammar.expandFirst chooser budget tree.sentence state := by
  induction budget generalizing tree state with
  | zero => rfl
  | succ budget ih =>
    have hRule := tree.firstRule?_eq grammar
    rw [← tree.fringe_eq_leafLabels] at hRule
    rw [growTree, expandFirst, hRule, Tree.sentence]
    cases hSplit : grammar.splitAtExpandable tree.fringe with
    | none => rfl
    | some split =>
      obtain ⟨before, rule, after⟩ := split
      simp only [Option.map_some, Answer.andThen_assoc, ih]
      congr 1
      funext alternative next
      rw [Tree.sentence_expand grammar alternative.nonempty hSplit]

/-- The start symbol alone is expanded by the first rule. -/
theorem expandFirst_start (budget : Nat) (state : σ) :
    grammar.expandFirst chooser (budget + 1) [.nonTerminal grammar.start] state
      = (grammar.firstRule.choose chooser state).andThen fun alternative state =>
          grammar.expandFirst chooser budget alternative.symbols state := by
  have hRule : grammar.expansionOf? (.nonTerminal grammar.start) = some grammar.firstRule :=
    grammar.ruleFor?_start
  simp [expandFirst, splitAtExpandable, hRule]

theorem deriveTree_sentence {limit : Nat} (hLimit : 1 ≤ limit) (state : σ) :
    ((grammar.deriveTree chooser limit state).andThen fun tree state => (.ok tree.read, state))
      = grammar.derive chooser .leftMost limit state := by
  obtain ⟨budget, rfl⟩ := Nat.exists_eq_add_of_le' hLimit
  have hGrow := grammar.growTree_sentence chooser (budget + 1)
    (Tree.leaf (.nonTerminal grammar.start)) state
  rw [Tree.sentence_leaf, expandFirst_start] at hGrow
  calc ((grammar.deriveTree chooser (budget + 1) state).andThen fun tree state =>
        (.ok tree.read, state))
      = ((grammar.growTree chooser (budget + 1) (Tree.leaf (.nonTerminal grammar.start))
          state).andThen fun grown state => (.ok (grown.1.sentence, grown.2), state)).andThen
            fun made state => (.ok ⟨made.1, budget + 1 - made.2⟩, state) := by
        rw [deriveTree, Answer.andThen_assoc, Answer.andThen_assoc]
        rfl
    _ = ((grammar.firstRule.choose chooser state).andThen fun alternative state =>
          grammar.expandFirst chooser budget alternative.symbols state).andThen
            fun made state => (.ok ⟨made.1, budget + 1 - made.2⟩, state) := by
        rw [hGrow]
    _ = grammar.derive chooser .leftMost (budget + 1) state := by
        rw [Answer.andThen_assoc]
        rfl

/-- With the same chooser, a tree and a left-most sentence are one derivation. Both ask the same
queries and leave the same state, they fail with the same error, and if they succeed, the leaves of
the tree are the sentence. Keeping the queries changes nothing else. -/
theorem deriveTree_agrees_leftMost {limit : Nat} (hLimit : 1 ≤ limit) (state : σ) :
    ∃ (outcome : Except (ChoiceError ε) (Derived DerivationTree)) (last : σ)
      (queries : List (Query ε)),
      grammar.deriveTree chooser limit state = (outcome, last) ∧
      grammar.derive chooser .leftMost limit state = (outcome.map Derived.read, last) ∧
      grammar.deriveTree chooser.traced limit (state, []) = (outcome, (last, queries)) ∧
      grammar.derive chooser.traced .leftMost limit (state, [])
        = (outcome.map Derived.read, (last, queries)) := by
  cases hTree : grammar.deriveTree chooser.traced limit (state, []) with
  | mk outcome reached =>
    have hSentence := grammar.deriveTree_sentence chooser.traced hLimit (state, [])
    rw [hTree, Answer.andThen_map] at hSentence
    have hPlainTree := grammar.untraced_deriveTree chooser limit (state, [])
    rw [hTree] at hPlainTree
    have hPlainSentence := grammar.untraced_derive chooser limit (state, [])
    rw [← hSentence] at hPlainSentence
    exact ⟨outcome, reached.1, reached.2, hPlainTree.symm, hPlainSentence.symm, rfl,
      hSentence.symm⟩

/-- A derivation that the limit cuts off, and one in which the chooser leaves the range. -/
theorem deriveTree_agrees_counting :
    let grammar : Grammar := ⟨[
      ⟨⟨"s"⟩, [⟨[.nonTerminal ⟨"a"⟩, .nonTerminal ⟨"u"⟩], by simp⟩], by simp⟩,
      ⟨⟨"a"⟩, [.single (.terminal ⟨"x", by decide⟩),
        ⟨[.nonTerminal ⟨"a"⟩, .terminal ⟨"y", by decide⟩], by simp⟩], by simp⟩], by simp⟩
    let counting : Chooser Nat Empty := fun _ _ place => (.ok place, place + 1)
    (∃ tree, grammar.deriveTree counting 2 0 = (.ok tree, 2) ∧ tree.result.sentence
      = [.nonTerminal ⟨"a"⟩, .terminal ⟨"y", by decide⟩, .nonTerminal ⟨"u"⟩]) ∧
      ∃ rule, grammar.deriveTree counting 3 0 = (.error (.outside 2 rule), 3) := by
  intro grammar counting
  obtain ⟨cut, last, -, hTree, hSentence, -, -⟩ :=
    deriveTree_agrees_leftMost grammar counting (by decide : 1 ≤ 2) 0
  obtain ⟨failed, lastFailed, -, hTreeFails, hSentenceFails, -, -⟩ :=
    deriveTree_agrees_leftMost grammar counting (by decide : 1 ≤ 3) 0
  constructor
  · cases cut with
    | error error => cases hSentence
    | ok tree =>
      injection hSentence with hRead hLast
      injection hRead with hRead
      refine ⟨tree, ?_, (congrArg Derived.result hRead).symm⟩
      rw [hTree, ← hLast]
  · cases failed with
    | ok tree => cases hSentenceFails
    | error error =>
      injection hSentenceFails with hError hLast
      injection hError with hError
      rw [hTreeFails, ← hError, ← hLast]
      exact ⟨_, rfl⟩

end Grammar

end CodonGrammar
