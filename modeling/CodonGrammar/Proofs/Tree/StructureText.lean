import CodonGrammar.Proofs.Bnf.TokenReading
import CodonGrammar.Proofs.Tree.Nodes

/-!
# The structure of a tree in writing

The structure of a tree is written with one line for each node, and a terminal may break a line or
look like lines of its own. Still the text determines the tree, as long as its non-terminals have
names that can stand between angle brackets (`structureText_eq_iff`).

The text is taken apart from its beginning. A line starts with the blanks of its level, up to the
hyphen. The first character of a symbol says where it ends: at the closing bracket, at the closing
apostrophe, or at the end of the line (`Spelled.unique`). So the text gives the levels and symbols
of the nodes in the order of the walk, its entries, and these give the tree: behind a node stand its
children, up to the next node that is not deeper than the node itself (`entries_append_inj`).
-/

namespace CodonGrammar

open Text (apostrophe isBlank)

namespace Tree

variable {α : Type}

/-! ## Levels and labels -/

mutual

/-- The level and the label of each node, in the order of the walk. -/
def entries (level : Nat) : Tree α → List (Nat × α)
  | node label children => (level, label) :: entriesAll (level + 1) children

/-- The entries of all trees of a list, whose roots have the same level. -/
def entriesAll (level : Nat) : List (Tree α) → List (Nat × α)
  | [] => []
  | tree :: rest => entries level tree ++ entriesAll level rest

end

theorem entriesAll_eq_flatMap (level : Nat) (trees : List (Tree α)) :
    entriesAll level trees = trees.flatMap (entries level) := by
  induction trees with
  | nil => rfl
  | cons tree rest ih => rw [entriesAll, ih, List.flatMap_cons]

/-- What a walk visits are the entries of the trees on its stack, from the top to the bottom. -/
theorem map_label_walkFrom (stack : List (Nat × Tree α)) :
    (walkFrom stack).map (Prod.map id label)
      = stack.flatMap fun (level, tree) => tree.entries level := by
  fun_induction walkFrom stack with
  | case1 => rfl
  | case2 level tree rest ih =>
    obtain ⟨name, children⟩ := tree
    rw [List.flatMap_append, childrenAt, List.flatMap_map] at ih
    simp only [List.map_cons, childrenAt, ih, List.flatMap_cons, entries, entriesAll_eq_flatMap]
    rfl

theorem map_label_walk (tree : Tree α) : tree.walk.map (Prod.map id label) = tree.entries 0 := by
  rw [walk, map_label_walkFrom]
  simp

theorem map_label_nodes (tree : Tree α) : tree.nodes.map label = (tree.entries 0).map Prod.snd := by
  rw [← map_label_walk, nodes, List.map_map, List.map_map]
  rfl

/-- The entries are at an end, or they go on with a node that is not deeper than the level. -/
def EndsAt (level : Nat) (entries : List (Nat × α)) : Prop :=
  ∀ entry, entries.head? = some entry → entry.1 ≤ level

theorem EndsAt.deeper {level : Nat} {entries : List (Nat × α)} (h : EndsAt level entries) :
    EndsAt (level + 1) entries :=
  fun entry hHead => Nat.le_succ_of_le (h entry hHead)

theorem endsAt_entriesAll (level : Nat) (trees : List (Tree α)) {rest : List (Nat × α)}
    (hRest : EndsAt level rest) : EndsAt level (entriesAll level trees ++ rest) := by
  cases trees with
  | nil => exact hRest
  | cons tree others =>
    obtain ⟨label, children⟩ := tree
    intro entry hHead
    rw [entriesAll, entries] at hHead
    cases hHead
    exact Nat.le_refl level

/-- A list of trees has entries that are deeper than what ends at their level. -/
theorem not_endsAt_entriesAll (level : Nat) (tree : Tree α) (trees : List (Tree α))
    (others : List (Nat × α)) :
    ¬ EndsAt level (entriesAll (level + 1) (tree :: trees) ++ others) := by
  obtain ⟨label, children⟩ := tree
  intro hEnds
  have hLess := hEnds (level + 1, label) rfl
  exact Nat.not_succ_le_self level hLess

mutual

/-- A tree is found from its entries, and so is where they end. -/
theorem entries_append_inj : ∀ (level : Nat) (first second : Tree α) {rest others : List (Nat × α)},
    EndsAt level rest → EndsAt level others →
    entries level first ++ rest = entries level second ++ others → first = second ∧ rest = others
  | level, node label children, node other siblings, rest, others => by
    intro hRest hOthers h
    rw [entries, entries, List.cons_append, List.cons_append] at h
    obtain ⟨hLabel, hBelow⟩ := List.cons.inj h
    obtain ⟨rfl, rfl⟩ := entriesAll_append_inj level children siblings hRest hOthers hBelow
    cases hLabel
    exact ⟨rfl, rfl⟩

/-- The trees below a node are found from their entries, and so is where they end. -/
theorem entriesAll_append_inj : ∀ (level : Nat) (first second : List (Tree α))
    {rest others : List (Nat × α)}, EndsAt level rest → EndsAt level others →
    entriesAll (level + 1) first ++ rest = entriesAll (level + 1) second ++ others →
    first = second ∧ rest = others
  | _, [], [], _, _ => fun _ _ h => ⟨rfl, h⟩
  | level, [], tree :: siblings, rest, others => by
    intro hRest _ h
    rw [entriesAll, List.nil_append] at h
    exact absurd (h ▸ hRest) (not_endsAt_entriesAll level tree siblings others)
  | level, tree :: siblings, [], rest, others => by
    intro _ hOthers h
    rw [entriesAll, List.nil_append] at h
    exact absurd (h ▸ hOthers) (not_endsAt_entriesAll level tree siblings rest)
  | level, tree :: siblings, other :: cousins, rest, others => by
    intro hRest hOthers h
    rw [entriesAll, entriesAll, List.append_assoc, List.append_assoc] at h
    obtain ⟨rfl, hBehind⟩ := entries_append_inj (level + 1) tree other
      (endsAt_entriesAll (level + 1) siblings hRest.deeper)
      (endsAt_entriesAll (level + 1) cousins hOthers.deeper) h
    obtain ⟨rfl, rfl⟩ := entriesAll_append_inj level siblings cousins hRest hOthers hBehind
    exact ⟨rfl, rfl⟩

end

theorem entries_injective (level : Nat) {first second : Tree α}
    (h : entries level first = entries level second) : first = second := by
  have hEnds : EndsAt level ([] : List (Nat × α)) := by
    intro entry hHead
    cases hHead
  exact (entries_append_inj level first second hEnds hEnds (congrArg (· ++ []) h)).1

end Tree

/-! ## Lines -/

/-- Up to a character that is in neither, two texts are the same. -/
theorem append_stop_inj {stop : Char} {first second rest others : List Char}
    (hFirst : stop ∉ first) (hSecond : stop ∉ second)
    (h : first ++ stop :: rest = second ++ stop :: others) : first = second ∧ rest = others := by
  induction first generalizing second with
  | nil =>
    cases second with
    | nil => exact ⟨rfl, (List.cons.inj h).2⟩
    | cons c second => exact absurd (List.cons.inj h).1 (List.ne_of_not_mem_cons hSecond)
  | cons c first ih =>
    cases second with
    | nil => exact absurd (List.cons.inj h).1.symm (List.ne_of_not_mem_cons hFirst)
    | cons d second =>
      obtain ⟨rfl, hTail⟩ := List.cons.inj h
      obtain ⟨rfl, hRest⟩ :=
        ih (List.not_mem_of_not_mem_cons hFirst) (List.not_mem_of_not_mem_cons hSecond) hTail
      exact ⟨rfl, hRest⟩

namespace Symbol

/-- The three ways in which symbols are written, each of which has an end of its own before the end
of a line. -/
inductive Spelled : Symbol → List Char → Prop where
  | bracketed {symbol : NonTerminal} : '>' ∉ symbol.name.toList →
      Spelled (.nonTerminal symbol) ('<' :: (symbol.name.toList ++ ['>']))
  | quoted {symbol : Terminal} : apostrophe ∉ symbol.text.toList →
      Spelled (.terminal symbol) (apostrophe :: (symbol.text.toList ++ [apostrophe]))
  | bare {symbol : Terminal} {c : Char} {rest : List Char} : symbol.text.toList = c :: rest →
      c ≠ '<' → c ≠ apostrophe → '\n' ∉ c :: rest → Spelled (.terminal symbol) (c :: rest)

/-- A symbol is found from its written form, and so is where its line ends. -/
theorem Spelled.unique {symbol other : Symbol} {text chars : List Char}
    (hText : symbol.Spelled text) (hChars : other.Spelled chars) {rest others : List Char}
    (h : text ++ '\n' :: rest = chars ++ '\n' :: others) : symbol = other ∧ rest = others := by
  -- The first character decides between the three ways.
  cases hText with
  | bracketed hFree =>
    cases hChars with
    | bracketed hOther =>
      simp only [List.cons_append, List.append_assoc, List.nil_append] at h
      obtain ⟨hName, hRest⟩ := append_stop_inj hFree hOther (List.cons.inj h).2
      refine ⟨?_, (List.cons.inj hRest).2⟩
      exact congrArg (fun name => nonTerminal ⟨name⟩) (String.toList_inj.mp hName)
    | quoted => exact absurd (List.cons.inj h).1 (by decide)
    | bare _ hBracket => exact absurd (List.cons.inj h).1.symm hBracket
  | quoted hFree =>
    cases hChars with
    | bracketed => exact absurd (List.cons.inj h).1 (by decide)
    | quoted hOther =>
      simp only [List.cons_append, List.append_assoc, List.nil_append] at h
      obtain ⟨hValue, hRest⟩ := append_stop_inj hFree hOther (List.cons.inj h).2
      exact ⟨congrArg _ (Terminal.ext (String.toList_inj.mp hValue)), (List.cons.inj hRest).2⟩
    | bare _ _ hQuote => exact absurd (List.cons.inj h).1.symm hQuote
  | bare hValue hBracket hQuote hLine =>
    cases hChars with
    | bracketed => exact absurd (List.cons.inj h).1 hBracket
    | quoted => exact absurd (List.cons.inj h).1 hQuote
    | bare hOther _ _ hOtherLine =>
      obtain ⟨hSame, hRest⟩ := append_stop_inj hLine hOtherLine h
      rw [← hValue, ← hOther] at hSame
      exact ⟨congrArg _ (Terminal.ext (String.toList_inj.mp hSame)), hRest⟩

theorem spelled_written {symbol : Symbol}
    (hName : ∀ name, symbol = .nonTerminal name → Bnf.IsName name.name) :
    symbol.Spelled symbol.written.toList := by
  cases symbol with
  | nonTerminal symbol =>
    have hFree : '>' ∉ symbol.name.toList := by
      intro hMem
      exact absurd ((hName symbol rfl).forall_mem '>' hMem) (by decide)
    have hWritten : symbol.written.toList = '<' :: (symbol.name.toList ++ ['>']) := by
      simp [NonTerminal.written]
    rw [written, hWritten]
    exact .bracketed hFree
  | terminal symbol =>
    rw [written]
    cases hQuotes : Bnf.needsQuotes symbol.text.toList with
    | true =>
      have hWritten : symbol.written.toList
          = apostrophe :: (symbol.text.toList ++ [apostrophe]) := by
        simp [Terminal.written, hQuotes]
      rw [hWritten]
      exact .quoted symbol.quoteFree
    | false =>
      have hWritten : symbol.written.toList = symbol.text.toList := by
        simp [Terminal.written, hQuotes]
      obtain ⟨hNonempty, -, hBare⟩ := Bnf.isBare_of_needsQuotes hQuotes
      obtain ⟨c, rest, hText⟩ := List.exists_cons_of_ne_nil hNonempty
      rw [hWritten, hText]
      rw [hText] at hBare
      obtain ⟨hForces, hQuote⟩ := hBare c List.mem_cons_self
      refine .bare hText ?_ hQuote ?_
      · rintro rfl
        exact absurd hForces (by decide)
      · intro hMem
        exact absurd (hBare '\n' hMem).1 (by decide)

end Symbol

/-- The line of a node, with its end. -/
def lineOf (entry : Nat × Symbol) : List Char :=
  List.replicate (2 * entry.1) ' ' ++ '-' :: ' ' :: (entry.2.written.toList ++ ['\n'])

/-- An entry is found from its line, and so is what stands behind the line. -/
theorem lineOf_append_inj {entry other : Nat × Symbol}
    (hEntry : entry.2.Spelled entry.2.written.toList)
    (hOther : other.2.Spelled other.2.written.toList) {rest others : List Char}
    (h : lineOf entry ++ rest = lineOf other ++ others) : entry = other ∧ rest = others := by
  simp only [lineOf, List.append_assoc, List.cons_append, List.nil_append] at h
  have hBlank : ∀ count : Nat, '-' ∉ List.replicate count ' ' := by
    intro count hMem
    exact absurd (List.eq_of_mem_replicate hMem) (by decide)
  obtain ⟨hIndent, hSymbol⟩ := append_stop_inj (hBlank _) (hBlank _) h
  have hLevel : 2 * entry.1 = 2 * other.1 := by
    simpa using congrArg List.length hIndent
  obtain ⟨hSame, hRest⟩ := hEntry.unique hOther (List.cons.inj hSymbol).2
  exact ⟨Prod.ext (by omega) hSame, hRest⟩

/-- Entries are found from their lines. -/
theorem flatMap_lineOf_inj {first second : List (Nat × Symbol)}
    (hFirst : ∀ entry ∈ first, entry.2.Spelled entry.2.written.toList)
    (hSecond : ∀ entry ∈ second, entry.2.Spelled entry.2.written.toList)
    (h : first.flatMap lineOf = second.flatMap lineOf) : first = second := by
  have hSome : ∀ (entry : Nat × Symbol) (rest : List Char), lineOf entry ++ rest ≠ [] := by
    simp [lineOf]
  induction first generalizing second with
  | nil =>
    cases second with
    | nil => rfl
    | cons other others => exact absurd h.symm (hSome other _)
  | cons entry rest ih =>
    cases second with
    | nil => exact absurd h (hSome entry _)
    | cons other others =>
      obtain ⟨hEntry, hRest⟩ := List.forall_mem_cons.mp hFirst
      obtain ⟨hOther, hOthers⟩ := List.forall_mem_cons.mp hSecond
      rw [List.flatMap_cons, List.flatMap_cons] at h
      obtain ⟨rfl, hTail⟩ := lineOf_append_inj hEntry hOther h
      rw [ih hRest hOthers hTail]

/-! ## The whole text -/

namespace Tree

/-- Every line of a text made of lines has its end. -/
theorem intercalate_lineBreak {lines : List String} (hLines : lines ≠ []) :
    (String.intercalate "\n" lines ++ "\n").toList
      = lines.flatMap fun line => line.toList ++ ['\n'] := by
  induction lines with
  | nil => exact absurd rfl hLines
  | cons line rest ih =>
    cases rest with
    | nil => simp
    | cons next others =>
      have hRest := ih (List.cons_ne_nil next others)
      rw [String.toList_append] at hRest
      rw [String.intercalate_cons_cons, List.flatMap_cons, ← hRest]
      simp

/-- The loop for the lines has a line for each node of the walk. -/
theorem linesFrom_eq_map (text : α → String) (stack : List (Nat × Tree α)) :
    linesFrom text stack = (walkFrom stack).map fun (level, visited) =>
      line level (text visited.label) := by
  fun_induction walkFrom stack with
  | case1 => rw [linesFrom, List.map_nil]
  | case2 level tree rest ih => rw [linesFrom, ih, List.map_cons]

theorem structureText_toList (tree : DerivationTree) :
    tree.structureText.toList = (tree.entries 0).flatMap lineOf := by
  have hLines : tree.lines Symbol.written ≠ [] := by
    simp [lines, linesFrom]
  rw [structureText, block, intercalate_lineBreak hLines, lines, linesFrom_eq_map, ← walk,
    ← map_label_walk, List.flatMap_map, List.flatMap_map]
  congr 1
  funext entry
  simp [lineOf, line]

/-! ## Trees with the same text -/

/-- All non-terminals of the tree have names that can stand between angle brackets. -/
def HasNames (tree : DerivationTree) : Prop :=
  ∀ visited ∈ tree.nodes, ∀ symbol, visited.label = .nonTerminal symbol → Bnf.IsName symbol.name

theorem HasNames.spelled {tree : DerivationTree} (h : tree.HasNames) :
    ∀ entry ∈ tree.entries 0, entry.2.Spelled entry.2.written.toList := by
  intro entry hEntry
  have hMem : entry.2 ∈ (tree.entries 0).map Prod.snd := List.mem_map_of_mem hEntry
  rw [← map_label_nodes] at hMem
  obtain ⟨visited, hVisited, hLabel⟩ := List.mem_map.mp hMem
  rw [← hLabel]
  exact Symbol.spelled_written (h visited hVisited)

/-- Trees with proper names are written alike only if they are the same tree: they have the same
shape and the same symbols. -/
theorem structureText_eq_iff {first second : DerivationTree} (hFirst : first.HasNames)
    (hSecond : second.HasNames) : first.structureText = second.structureText ↔ first = second := by
  constructor
  · intro hText
    have hChars := congrArg String.toList hText
    rw [structureText_toList, structureText_toList] at hChars
    exact entries_injective 0 (flatMap_lineOf_inj hFirst.spelled hSecond.spelled hChars)
  · rintro rfl
    rfl

/-- A terminal that looks like the end of its own line and a line of another node. -/
theorem structureText_eq_iff_forged :
    let a : Symbol := .nonTerminal ⟨"a 1"⟩
    let forged : DerivationTree := .node a [.leaf (.terminal ⟨"x\n  - y", by decide⟩)]
    let plain : DerivationTree :=
      .node a [.leaf (.terminal ⟨"x", by decide⟩), .leaf (.terminal ⟨"y", by decide⟩)]
    forged.HasNames ∧ plain.HasNames ∧ forged.structureText ≠ plain.structureText ∧
      forged.structureText = "- <a 1>\n  - \x27x\n  - y\x27\n" := by
  intro a forged plain
  have hName : Bnf.IsName "a 1" := ⟨'a', [' ', '1'], rfl, by decide, List.all_eq_true.mp rfl⟩
  have hForged : forged.HasNames := by
    simp [HasNames, forged, nodes, walk, walkFrom, childrenAt, children, label, leaf, a, hName]
  have hPlain : plain.HasNames := by
    simp [HasNames, plain, nodes, walk, walkFrom, childrenAt, children, label, leaf, a, hName]
  refine ⟨hForged, hPlain, ?_, ?_⟩
  · intro hText
    have hSame := (structureText_eq_iff hForged hPlain).mp hText
    simp [forged, plain] at hSame
  · rw [← String.toList_inj, structureText_toList]
    decide

end Tree

end CodonGrammar
