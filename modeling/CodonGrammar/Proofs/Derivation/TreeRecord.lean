import CodonGrammar.Proofs.Codec.Coverage
import CodonGrammar.Proofs.Codec.Specification
import CodonGrammar.Proofs.Derivation.Serving
import CodonGrammar.Proofs.Tree.Nodes
import CodonGrammar.Proofs.Tree.Places
import Mathlib.Algebra.GroupWithZero.Nat

/-!
# A tree records its derivation

The nodes of a derived tree that have children, in the order of the walk, are the queries of the
derivation in the order in which they were asked (`Grammar.deriveTree_records`). A tree that was cut
off at the limit has its open leaves behind all of them. So the answers can be read off the tree, and
the same answers, as codons, make the same tree again.

The leaf that a step expands is the first one that has a rule. Up to there the walk meets no open
leaf, and from there on it meets leaves only: this is the invariant (`Grammar.Grown`). The step turns
the leaf into the last node with children and puts new leaves behind it.
-/

namespace CodonGrammar

variable {σ ε : Type}

/-! ## One step -/

/-- A node that could be expanded: a leaf whose symbol has a rule. -/
def Grammar.Waits (grammar : Grammar) (shape : Symbol × List Symbol) : Prop :=
  shape.2 = [] ∧ grammar.expansionOf? shape.1 ≠ none

namespace Tree

variable (grammar : Grammar)

mutual

theorem shapes_of_firstRule?_eq_none : ∀ {tree : DerivationTree},
    tree.firstRule? grammar = none →
      (∀ shape ∈ tree.shapes, ¬ grammar.Waits shape) ∧
        ∀ symbols, tree.expand? grammar symbols = none
  | node symbol [] => by
    intro h
    rw [firstRule?] at h
    refine ⟨?_, fun symbols => by simp only [expand?, h]⟩
    rintro shape hShape ⟨-, hRule⟩
    obtain rfl := List.mem_singleton.mp hShape
    exact hRule h
  | node symbol (first :: rest) => by
    intro h
    rw [firstRule?] at h
    obtain ⟨hShapes, hExpand⟩ := shapesAll_of_firstRuleOf?_eq_none h
    refine ⟨?_, fun symbols => by simp only [expand?, hExpand]⟩
    rw [shapes, List.forall_mem_cons]
    refine ⟨?_, hShapes⟩
    rintro ⟨hLeaf, -⟩
    cases hLeaf

theorem shapesAll_of_firstRuleOf?_eq_none : ∀ {trees : List DerivationTree},
    firstRuleOf? grammar trees = none →
      (∀ shape ∈ shapesAll trees, ¬ grammar.Waits shape) ∧
        ∀ symbols, expandIn? grammar symbols trees = none
  | [] => fun _ => ⟨by simp [shapesAll], fun _ => rfl⟩
  | tree :: rest => by
    intro h
    rw [firstRuleOf?] at h
    split at h
    · cases h
    · rename_i hTree
      obtain ⟨hShapes, hExpand⟩ := shapes_of_firstRule?_eq_none hTree
      obtain ⟨hOthers, hExpandIn⟩ := shapesAll_of_firstRuleOf?_eq_none h
      refine ⟨List.forall_mem_append.mpr ⟨hShapes, hOthers⟩, ?_⟩
      intro symbols
      simp only [expandIn?, hExpand, hExpandIn]

end

mutual

/-- The first open leaf stands behind nodes that do not wait, and new children of it stand right
behind it. All other nodes keep their shapes. -/
theorem shapes_of_firstRule?_eq_some : ∀ {tree : DerivationTree} {rule : Rule},
    tree.firstRule? grammar = some rule →
      ∃ front symbol back, tree.shapes = front ++ leafShape symbol :: back ∧
        grammar.expansionOf? symbol = some rule ∧ (∀ shape ∈ front, ¬ grammar.Waits shape) ∧
        ∀ symbols, ∃ grown, tree.expand? grammar symbols = some grown ∧ grown.label = tree.label ∧
          grown.shapes = front ++ (symbol, symbols) :: (symbols.map leafShape ++ back)
  | node symbol [], rule => by
    intro h
    rw [firstRule?] at h
    refine ⟨[], symbol, [], rfl, h, by simp, ?_⟩
    intro symbols
    refine ⟨node symbol (symbols.map leaf), by simp only [expand?, h], rfl, ?_⟩
    simp [shapes, shape, shapesAll_leaf, label, children, leaf, Function.comp_def]
  | node symbol (first :: rest), rule => by
    intro h
    rw [firstRule?] at h
    obtain ⟨front, found, back, hShapes, hRule, hFront, hGrow⟩ :=
      shapesAll_of_firstRuleOf?_eq_some h
    refine ⟨shape (node symbol (first :: rest)) :: front, found, back, ?_, hRule, ?_, ?_⟩
    · rw [shapes, hShapes, List.cons_append]
    · refine List.forall_mem_cons.mpr ⟨?_, hFront⟩
      rintro ⟨hLeaf, -⟩
      cases hLeaf
    · intro symbols
      obtain ⟨grown, hExpand, hLabels, hGrown⟩ := hGrow symbols
      have hShape : shape (node symbol grown) = shape (node symbol (first :: rest)) :=
        congrArg (Prod.mk symbol) hLabels
      refine ⟨node symbol grown, by simp only [expand?, hExpand], rfl, ?_⟩
      rw [shapes, hShape, hGrown, List.cons_append]

theorem shapesAll_of_firstRuleOf?_eq_some : ∀ {trees : List DerivationTree} {rule : Rule},
    firstRuleOf? grammar trees = some rule →
      ∃ front symbol back, shapesAll trees = front ++ leafShape symbol :: back ∧
        grammar.expansionOf? symbol = some rule ∧ (∀ shape ∈ front, ¬ grammar.Waits shape) ∧
        ∀ symbols, ∃ grown, expandIn? grammar symbols trees = some grown ∧
          grown.map label = trees.map label ∧
          shapesAll grown = front ++ (symbol, symbols) :: (symbols.map leafShape ++ back)
  | [], rule => by
    intro h
    cases h
  | tree :: rest, rule => by
    intro h
    rw [firstRuleOf?] at h
    split at h
    · rename_i found hTree
      cases h
      obtain ⟨front, symbol, back, hShapes, hRule, hFront, hGrow⟩ :=
        shapes_of_firstRule?_eq_some hTree
      refine ⟨front, symbol, back ++ shapesAll rest, ?_, hRule, hFront, ?_⟩
      · rw [shapesAll, hShapes, List.append_assoc, List.cons_append]
      · intro symbols
        obtain ⟨grown, hExpand, hLabel, hGrown⟩ := hGrow symbols
        refine ⟨grown :: rest, by simp only [expandIn?, hExpand], ?_, ?_⟩
        · rw [List.map_cons, List.map_cons, hLabel]
        · rw [shapesAll, hGrown]
          simp only [List.append_assoc, List.cons_append]
    · rename_i hTree
      obtain ⟨hDone, hNone⟩ := shapes_of_firstRule?_eq_none grammar hTree
      obtain ⟨front, symbol, back, hShapes, hRule, hFront, hGrow⟩ :=
        shapesAll_of_firstRuleOf?_eq_some h
      refine ⟨tree.shapes ++ front, symbol, back, ?_, hRule, ?_, ?_⟩
      · rw [shapesAll, hShapes, List.append_assoc]
      · exact List.forall_mem_append.mpr ⟨hDone, hFront⟩
      · intro symbols
        obtain ⟨grown, hExpand, hLabels, hGrown⟩ := hGrow symbols
        refine ⟨tree :: grown, by simp only [expandIn?, hNone, hExpand], ?_, ?_⟩
        · rw [List.map_cons, List.map_cons, hLabels]
        · rw [shapesAll, hGrown, List.append_assoc]

end

end Tree

/-! ## A derivation -/

/-- The length of the alternative that a query is answered with. -/
def Query.width (query : Query ε) : Nat :=
  match query.chosen with
  | .ok alternative => alternative.symbols.length
  | .error _ => 0

namespace Grammar

/-- The node was expanded by the query: its symbol has the rule that was asked for, and its children
are the alternative in the place that was answered. -/
structure Records (grammar : Grammar) (node : Symbol × List Symbol) (query : Query ε) : Prop where
  head : ∃ head, node.1 = .nonTerminal head ∧ grammar.ruleFor? head = some query.rule
  bound_eq : query.bound = query.rule.arity
  choice : ∃ choice alternative, query.answer = .ok choice ∧
    query.rule.alternativeAt? choice = some alternative ∧ node.2 = alternative.symbols

/-- The tree that the queries have made so far. -/
structure Grown (grammar : Grammar) (queries : List (Query ε)) (tree : DerivationTree) : Prop where
  label_eq : tree.label = .nonTerminal grammar.start
  split : ∃ front back, tree.shapes = front ++ back ∧
    (∀ shape ∈ front, ¬ grammar.Waits shape) ∧ ∀ shape ∈ back, shape.2 = []
  records : List.Forall₂ grammar.Records (Tree.innerShapes tree.shapes) queries
  length_eq : tree.shapes.length = 1 + (queries.map Query.width).sum

variable {grammar : Grammar} {queries others : List (Query ε)} {tree last : DerivationTree}

theorem grown_start (grammar : Grammar) :
    grammar.Grown ([] : List (Query ε)) (.leaf (.nonTerminal grammar.start)) where
  label_eq := rfl
  split := ⟨[], _, rfl, by simp, List.forall_mem_singleton.mpr rfl⟩
  records := .nil
  length_eq := rfl

/-- Behind the first open leaf there are leaves only. -/
theorem Grown.leaves_behind (h : grammar.Grown queries tree) {front back : List (Symbol × List Symbol)}
    {symbol : Symbol} {rule : Rule} (hShapes : tree.shapes = front ++ Tree.leafShape symbol :: back)
    (hRule : grammar.expansionOf? symbol = some rule) : ∀ shape ∈ back, shape.2 = [] := by
  obtain ⟨done, left, hSplit, hDone, hLeft⟩ := h.split
  rw [hSplit] at hShapes
  rcases Tree.append_eq_append_cons hShapes with ⟨rest, rfl, -⟩ | ⟨rest, -, rfl⟩
  · exact absurd ⟨rfl, by simp [hRule]⟩ (hDone (Tree.leafShape symbol) (by simp))
  · intro shape hShape
    exact hLeft shape (by simp [hShape])

/-- A step makes the first open leaf the last node with children. -/
theorem Grown.step (h : grammar.Grown queries tree) {query : Query ε} {alternative : Expression}
    (hRule : tree.firstRule? grammar = some query.rule) (hBound : query.bound = query.rule.arity)
    (hChosen : query.chosen = .ok alternative) :
    grammar.Grown (queries ++ [query]) (tree.expand grammar alternative.symbols) := by
  obtain ⟨front, symbol, back, hShapes, hFound, hFront, hGrow⟩ :=
    Tree.shapes_of_firstRule?_eq_some grammar hRule
  obtain ⟨grown, hExpand, hLabel, hGrown⟩ := hGrow alternative.symbols
  have hTree : tree.expand grammar alternative.symbols = grown := by
    rw [Tree.expand, hExpand, Option.getD_some]
  have hBack := h.leaves_behind hShapes hFound
  have hBehind : ∀ shape ∈ alternative.symbols.map Tree.leafShape ++ back, shape.2 = [] :=
    List.forall_mem_append.mpr ⟨by simp, hBack⟩
  have hRecords := h.records
  have hLength := h.length_eq
  rw [hTree]
  rw [hShapes] at hRecords hLength
  refine ⟨hLabel.trans h.label_eq, ⟨front ++ [(symbol, alternative.symbols)],
    alternative.symbols.map Tree.leafShape ++ back, ?_, ?_, hBehind⟩, ?_, ?_⟩
  · rw [hGrown, List.append_assoc, List.singleton_append]
  · refine List.forall_mem_append.mpr ⟨hFront, List.forall_mem_singleton.mpr ?_⟩
    rintro ⟨hLeaf, -⟩
    exact alternative.nonempty hLeaf
  · rw [Tree.innerShapes_leaf hBack] at hRecords
    rw [hGrown, Tree.innerShapes_last alternative.nonempty hBehind]
    obtain ⟨choice, hAnswer, hPlace⟩ := Query.chosen_eq_ok_iff.mp hChosen
    have hNew : grammar.Records (symbol, alternative.symbols) query :=
      ⟨exists_ruleFor? hFound, hBound, choice, alternative, hAnswer, hPlace, rfl⟩
    exact List.rel_append hRecords (.cons hNew .nil)
  · have hWidth : query.width = alternative.symbols.length := by simp only [Query.width, hChosen]
    rw [List.length_append, List.length_cons] at hLength
    rw [hGrown, List.map_append, List.sum_append, List.map_singleton, List.sum_singleton, hWidth]
    simp only [List.length_append, List.length_cons, List.length_map]
    omega

/-- More queries go on with what the queries before them have made. -/
theorem Grown.run (h : grammar.Grown queries tree)
    (hPlays : grammar.treeExpander.Plays tree others last) :
    grammar.Grown (queries ++ others) last := by
  induction hPlays generalizing queries with
  | nil => rwa [List.append_nil]
  | cons hNext hBound hChosen _ ih =>
    obtain ⟨rule, hRule, hStep⟩ := Option.map_eq_some_iff.mp hNext
    cases hStep
    have hRest := ih (h.step hRule hBound hChosen)
    rwa [List.append_assoc] at hRest

/-! ## A finished run -/

/-- What a tree that is derived with a limit says about the queries of its derivation. -/
structure TreeRecord (grammar : Grammar) (limit : Nat) (queries : List (Query ε))
    (tree : DerivationTree) : Prop where
  root : tree.label = .nonTerminal grammar.start
  valid : ∀ node ∈ tree.nodes, node.children ≠ [] →
    ∃ head rule alternative, node.label = .nonTerminal head ∧ grammar.ruleFor? head = some rule ∧
      alternative ∈ rule.alternatives ∧ node.children.map Tree.label = alternative.symbols
  records : List.Forall₂ (fun node query => grammar.Records node.shape query) tree.inner queries
  size_eq : tree.size = 1 + (queries.map Query.width).sum
  cut : ∀ before leaf after, tree.nodes = before ++ leaf :: after → grammar.Waits leaf.shape →
    tree.inner.length = limit ∧ ∀ node ∈ after, node.children = []

theorem Grown.forall₂_inner (h : grammar.Grown queries tree) :
    List.Forall₂ (fun node query => grammar.Records node.shape query) tree.inner queries := by
  rw [← List.forall₂_map_left_iff, Tree.map_shape_inner]
  exact h.records

theorem Records.exists_alternative {node : Symbol × List Symbol} {query : Query ε}
    (h : grammar.Records node query) :
    ∃ head rule alternative, node.1 = .nonTerminal head ∧ grammar.ruleFor? head = some rule ∧
      alternative ∈ rule.alternatives ∧ node.2 = alternative.symbols := by
  obtain ⟨head, hLabel, hHead⟩ := h.head
  obtain ⟨choice, alternative, -, hPlace, hSymbols⟩ := h.choice
  rw [Rule.alternativeAt?] at hPlace
  split at hPlace
  · cases hPlace
  · exact ⟨head, query.rule, alternative, hLabel, hHead, List.mem_of_getElem? hPlace, hSymbols⟩

theorem Grown.treeRecord (h : grammar.Grown queries tree) {limit : Nat}
    (hEnd : queries.length = limit ∨ grammar.treeExpander tree = none) :
    grammar.TreeRecord limit queries tree where
  root := h.label_eq
  valid := by
    intro node hNode hChildren
    have hInner : node ∈ tree.inner :=
      List.mem_filter.mpr ⟨hNode, by simpa [Tree.isLeaf] using hChildren⟩
    obtain ⟨place, hPlace⟩ := List.mem_iff_getElem?.mp hInner
    obtain ⟨query, -, hRecords⟩ := getElem?_of_forall₂ h.forall₂_inner hPlace
    exact hRecords.exists_alternative
  records := h.forall₂_inner
  size_eq := tree.size_eq_length_shapes.trans h.length_eq
  cut := by
    rintro before leaf after hNodes ⟨hLeaf, hOpen⟩
    have hShapes := tree.map_shape_nodes
    rw [hNodes, List.map_append, List.map_cons] at hShapes
    have hLeafShape : leaf.shape = Tree.leafShape leaf.label := Prod.ext rfl hLeaf
    rw [hLeafShape] at hShapes
    obtain ⟨rule, hRule⟩ := Option.ne_none_iff_exists'.mp hOpen
    constructor
    · rcases hEnd with hSpent | hStops
      · rw [h.forall₂_inner.length_eq, hSpent]
      · -- A finished tree has no open leaf.
        have hNone := Tree.shapes_of_firstRule?_eq_none grammar (Option.map_eq_none_iff.mp hStops)
        have hWaits : grammar.Waits (Tree.leafShape leaf.label) := ⟨rfl, hOpen⟩
        exact absurd hWaits (hNone.1 _ (by simp [← hShapes]))
    · intro node hNode
      have hBehind := h.leaves_behind hShapes.symm hRule node.shape (List.mem_map_of_mem hNode)
      exact List.map_eq_nil_iff.mp hBehind

end Grammar

/-! ## Replaying a derivation -/

/-- The query with the place of its alternative as the answer. -/
def Query.replayed (query : Query ε) : Query RuleCodonsError :=
  ⟨query.rule, query.bound, .ok (query.place : Int)⟩

theorem Query.chosen_replayed {query : Query ε} (hBound : query.bound = query.rule.arity)
    {alternative : Expression} (hChosen : query.chosen = .ok alternative) :
    query.replayed.chosen = .ok alternative := by
  obtain ⟨choice, hAnswer, hPlace⟩ := chosen_eq_ok_iff.mp hChosen
  have hRange := (inRange_iff hBound).mpr ⟨alternative, hChosen⟩
  cases hRange.answer_eq.1.symm.trans hAnswer
  exact chosen_eq_ok_iff.mpr ⟨_, rfl, hPlace⟩

theorem Expander.Plays.replayed {S : Type} {expander : Expander S} {situation last : S}
    {queries : List (Query ε)} (h : expander.Plays situation queries last) :
    expander.Plays situation (queries.map Query.replayed) last := by
  induction h with
  | nil => exact .nil _
  | cons hNext hBound hChosen _ ih =>
    exact .cons hNext hBound (Query.chosen_replayed hBound hChosen) ih

namespace Grammar

/-- The places that were answered, read as codons, lead to the same result. -/
theorem Drives.produce_replayed {engine : Engine} {S : Type} {expander : Expander S}
    {view : S → engine.Result} {start last : S} {grammar : Grammar}
    (hDrives : grammar.Drives engine expander view start) {queries : List (Query ε)}
    (hPlays : expander.Plays start queries last) {limit : Nat} (hLimit : 1 ≤ limit)
    (hLength : queries.length ≤ limit) (hEnd : queries.length = limit ∨ expander last = none)
    (hNonempty : queries.map Query.place ≠ []) :
    grammar.produce engine Codec.indexChooser limit (.shared (.ofValues _ hNonempty))
      = (.ok ⟨view last, queries.length⟩, .shared (.ofValues _ hNonempty)) := by
  have hReplays := hPlays.replayed
  have hRange : ∀ query ∈ queries.map Query.replayed, query.InRange := by
    intro query hQuery
    exact (hDrives.sound.queries hReplays query hQuery).2.2
  have hPlaces : (queries.map Query.replayed).map Query.place = queries.map Query.place := by
    rw [List.map_map]
    rfl
  rw [← List.length_map Query.replayed] at hLength hEnd ⊢
  exact hDrives.produce_of_plays hReplays hLimit hLength hEnd
    (Codons.answers_ofValues hRange hPlaces hNonempty)

/-- A derived tree records its derivation: its nodes with children are the queries in their order,
and a tree that was cut off at the limit has its open leaves behind them. Codons with the answers
that were given derive the tree again. -/
theorem deriveTree_records (grammar : Grammar) {chooser : Chooser σ ε} {kept : σ → Prop}
    (hServes : chooser.Serves grammar kept) {limit : Nat} (hLimit : 1 ≤ limit) (state : σ)
    (hKept : kept state) :
    ∃ (tree : DerivationTree) (queries : List (Query ε)) (last : σ) (values : List Nat)
      (hNonempty : values ≠ []),
      grammar.Produces .tree chooser limit state queries tree last ∧
      grammar.TreeRecord limit queries tree ∧
      queries.map Query.answer = values.map (fun value => .ok (value : Int)) ∧
      grammar.deriveTree Codec.indexChooser limit (.shared (.ofValues values hNonempty))
        = (.ok ⟨tree, queries.length⟩, .shared (.ofValues values hNonempty)) := by
  have hDrives := grammar.drives_tree
  obtain ⟨queries, tree, last, hPlays, hAnswers, -, hLength, hEnd⟩ :=
    hServes.exists_plays hDrives.sound limit (.leaf (.nonTerminal grammar.start)) hKept
  have hNonempty := hDrives.sound.queries_ne_nil hDrives.start_eq hPlays hLimit hEnd
  have hValues : queries.map Query.place ≠ [] := by simpa using hNonempty
  refine ⟨tree, queries, last, queries.map Query.place, hValues,
    hDrives.produces_of_plays hPlays hLimit hLength hEnd hAnswers, ?_, ?_,
    hDrives.produce_replayed hPlays hLimit hLength hEnd hValues⟩
  · have hGrown := (grown_start grammar).run hPlays
    rw [List.nil_append] at hGrown
    exact hGrown.treeRecord hEnd
  · rw [List.map_map]
    refine List.map_congr_left fun query hQuery => ?_
    exact (hDrives.sound.queries hPlays query hQuery).2.2.answer_eq.1

/-- A tree with an open leaf, derived by a chooser that counts. -/
theorem deriveTree_records_cut :
    let x : Symbol := .terminal ⟨"x", by decide⟩
    let a : Symbol := .nonTerminal ⟨"a"⟩
    let s : Symbol := .nonTerminal ⟨"s"⟩
    let grammar : Grammar := ⟨[
      ⟨⟨"s"⟩, [⟨[a, a], by simp⟩], by simp⟩,
      ⟨⟨"a"⟩, [.single x, ⟨[a, x], by simp⟩], by simp⟩], by simp⟩
    let counting : Chooser Nat Empty := fun _ bound count => (.ok (count % bound), count + 1)
    let tree : DerivationTree := .node s [.node a [.node a [.leaf x], .leaf x], .leaf a]
    counting.Serves grammar (fun _ => True) ∧
      grammar.deriveTree counting 3 0 = (.ok ⟨tree, 3⟩, 3) ∧
      ∃ (queries : List (Query Empty)) (values : List Nat) (hNonempty : values ≠ []),
        grammar.TreeRecord 3 queries tree ∧
        queries.map Query.answer = values.map (fun value => .ok (value : Int)) ∧
        grammar.deriveTree Codec.indexChooser 3 (.shared (.ofValues values hNonempty))
          = (.ok ⟨tree, queries.length⟩, .shared (.ofValues values hNonempty)) := by
  intro x a s grammar counting tree
  have hRange : counting.InRange := by
    intro rule count
    have hArity := rule.arity_pos
    exact ⟨_, rfl, Int.emod_nonneg _ (by omega), Int.emod_lt_of_pos _ (by omega)⟩
  have hServes := hRange.serves grammar
  have hTree : grammar.deriveTree counting 3 0 = (.ok ⟨tree, 3⟩, 3) := by
    subst x a s grammar counting tree
    rfl
  obtain ⟨made, queries, last, values, hNonempty, hMade, hRecord, hValues, hReplayed⟩ :=
    deriveTree_records grammar hServes (by decide : 1 ≤ 3) 0 trivial
  injection hMade.plain.symm.trans hTree with hResult
  injection hResult with hResult
  injection hResult with hResult
  rw [hResult] at hRecord hReplayed
  exact ⟨hServes, hTree, queries, values, hNonempty, hRecord, hValues, hReplayed⟩

end Grammar

end CodonGrammar
