import CodonGrammar.Display.Table
import CodonGrammar.Proofs.Text.Splitting
import Mathlib.Algebra.GroupWithZero.Nat
import Mathlib.Data.List.Forall2
import Mathlib.Data.List.GetD
import Mathlib.Data.List.TakeWhile

/-!
# The layout of tables

The widths of the columns are found row by row, and a row that is longer than all before it adds
columns (`getD_foldl_widen`). In the end each column is as wide as the longest text in it, its title
included (`columnWidths_eq`). So the cells of one column start at the same place in every line
(`prefix_drop_layout`).

The lines of a table are its titles, the dashes, and its rows, as long as the rows come to any text
(`table_lines`). If the only row has nothing to show, its line is missing
(`table_lines_of_blank_row`).
-/

namespace CodonGrammar.Display

open Text (isBlank splitAtEach trimEnd)

/-! ## Widths -/

/-- The length of the text of a row in a column, or zero if the row ends before it. -/
def cellLength (column : Nat) (row : List String) : Nat := (row.map String.length).getD column 0

/-- The number of columns of rows. -/
def columnCount (rows : List (List String)) : Nat := (rows.map List.length).foldl max 0

/-- The length of the longest text in a column. -/
def columnWidth (rows : List (List String)) (column : Nat) : Nat :=
  (rows.map (cellLength column)).foldl max 0

/-- The lengths of the longest texts of all columns. -/
def longest (rows : List (List String)) : List Nat :=
  (List.range (columnCount rows)).map (columnWidth rows)

theorem length_widen (widths : List Nat) (cells : List String) :
    (widen widths cells).length = max widths.length cells.length := by
  fun_induction widen widths cells with
  | case1 => simp
  | case2 cell cells ih => simpa using ih
  | case3 width widths cell cells ih => simp [ih, Nat.succ_max_succ]

theorem getD_widen (widths : List Nat) (cells : List String) (column : Nat) :
    (widen widths cells).getD column 0 = max (widths.getD column 0) (cellLength column cells) := by
  fun_induction widen widths cells generalizing column with
  | case1 => simp [cellLength]
  | case2 cell cells ih =>
    cases column with
    | zero => simp [cellLength]
    | succ column => simpa [cellLength] using ih column
  | case3 width widths cell cells ih =>
    cases column with
    | zero => simp [cellLength]
    | succ column => simpa [cellLength] using ih column

theorem length_foldl_widen (rows : List (List String)) (widths : List Nat) :
    (rows.foldl widen widths).length = (rows.map List.length).foldl max widths.length := by
  induction rows generalizing widths with
  | nil => rfl
  | cons row rest ih => rw [List.foldl_cons, ih, length_widen, List.map_cons, List.foldl_cons]

theorem getD_foldl_widen (rows : List (List String)) (widths : List Nat) (column : Nat) :
    (rows.foldl widen widths).getD column 0
      = (rows.map (cellLength column)).foldl max (widths.getD column 0) := by
  induction rows generalizing widths with
  | nil => rfl
  | cons row rest ih => rw [List.foldl_cons, ih, getD_widen, List.map_cons, List.foldl_cons]

theorem columnWidths_eq (titles : List String) (rows : List (List String)) :
    columnWidths titles rows = longest (titles :: rows) := by
  have hLength : (columnWidths titles rows).length = columnCount (titles :: rows) := by
    rw [columnWidths, length_foldl_widen, columnCount, List.map_cons, List.foldl_cons,
      List.length_map, Nat.zero_max]
  have hWidth : ∀ column, (columnWidths titles rows).getD column 0
      = columnWidth (titles :: rows) column := by
    intro column
    rw [columnWidths, getD_foldl_widen, columnWidth, List.map_cons, List.foldl_cons, Nat.zero_max]
    rfl
  refine List.ext_getElem (by simp [hLength, longest]) fun column hColumn _ => ?_
  rw [← List.getD_eq_getElem _ 0 hColumn, hWidth]
  simp [longest]

theorem le_foldl_max (lengths : List Nat) (least : Nat) :
    least ≤ lengths.foldl max least ∧ ∀ length ∈ lengths, length ≤ lengths.foldl max least := by
  induction lengths generalizing least with
  | nil => simp
  | cons length rest ih =>
    obtain ⟨hLeast, hRest⟩ := ih (max least length)
    rw [List.foldl_cons]
    refine ⟨by omega, List.forall_mem_cons.mpr ⟨by omega, hRest⟩⟩

section Rows

variable {rows : List (List String)} {cells : List String}

theorem length_le_columnCount (hCells : cells ∈ rows) : cells.length ≤ columnCount rows :=
  (le_foldl_max _ 0).2 _ (List.mem_map_of_mem hCells)

theorem length_le_columnWidth (hCells : cells ∈ rows) {column : Nat} {text : String}
    (hText : cells[column]? = some text) : text.length ≤ columnWidth rows column := by
  have hLength : cellLength column cells = text.length := by
    simp [cellLength, hText]
  rw [← hLength]
  exact (le_foldl_max _ 0).2 _ (List.mem_map_of_mem hCells)

end Rows

/-! ## Lines -/

/-- The text of a cell with blanks up to the width of its column. -/
def paddedCell (rows : List (List String)) (column : Nat) (text : String) : List Char :=
  text.toList ++ List.replicate (columnWidth rows column - text.length) ' '

/-- What stands between two cells of a line. -/
def cellGap : List Char := [' ', '|', ' ']

/-- The cells of a row among the given rows, each with its padding. -/
def layout (rows : List (List String)) (cells : List String) : List Char :=
  cellGap.intercalate (cells.mapIdx (paddedCell rows))

/-- The place at which a column starts, behind all columns before it and the gaps. -/
def columnStart (rows : List (List String)) (column : Nat) : Nat :=
  ((List.range column).map fun earlier => columnWidth rows earlier + 3).sum

theorem drop_intercalate (gap : List Char) (parts : List (List Char)) {place : Nat}
    (hPlace : place < parts.length) :
    (gap.intercalate parts).drop (((parts.take place).map fun part => part.length + gap.length).sum)
      = gap.intercalate (parts.drop place) := by
  induction parts generalizing place with
  | nil => cases hPlace
  | cons part rest ih =>
    cases place with
    | zero => rfl
    | succ place =>
      obtain ⟨next, others, rfl⟩ : ∃ next others, rest = next :: others := by
        cases rest with
        | nil => exact absurd (Nat.lt_of_succ_lt_succ hPlace) (Nat.not_lt_zero _)
        | cons next others => exact ⟨next, others, rfl⟩
      rw [List.take_succ_cons, List.map_cons, List.sum_cons, List.drop_succ_cons,
        List.intercalate_cons_cons, ← ih (Nat.lt_of_succ_lt_succ hPlace), ← List.drop_drop,
        ← List.length_append, List.drop_left]

theorem prefix_intercalate (gap part : List Char) (rest : List (List Char)) :
    part <+: gap.intercalate (part :: rest) := by
  cases rest with
  | nil => exact ⟨[], by rw [List.append_nil, List.intercalate_singleton]⟩
  | cons next others =>
    rw [List.intercalate_cons_cons, List.append_assoc]
    exact List.prefix_append _ _

section Rows

variable {rows : List (List String)} {cells : List String}

theorem length_paddedCell (hCells : cells ∈ rows) {column : Nat} {text : String}
    (hText : cells[column]? = some text) :
    (paddedCell rows column text).length = columnWidth rows column := by
  have hLength := length_le_columnWidth hCells hText
  rw [paddedCell, List.length_append, List.length_replicate, String.length_toList]
  omega

/-- The cells before a column take up the place before its start. -/
theorem sum_take_mapIdx (hCells : cells ∈ rows) {column : Nat} (hColumn : column ≤ cells.length) :
    (((cells.mapIdx (paddedCell rows)).take column).map
      fun part => part.length + cellGap.length).sum = columnStart rows column := by
  rw [columnStart]
  congr 1
  refine List.ext_getElem (by simp [hColumn]) fun earlier hEarlier _ => ?_
  simp only [List.length_map, List.length_take, List.length_mapIdx] at hEarlier
  have hText : cells[earlier]? = some cells[earlier] := List.getElem?_eq_getElem (by omega)
  simp [length_paddedCell hCells hText, cellGap]

theorem prefix_drop_layout (hCells : cells ∈ rows) {column : Nat} {text : String}
    (hText : cells[column]? = some text) :
    text.toList <+: (layout rows cells).drop (columnStart rows column) := by
  obtain ⟨hColumn, hCell⟩ := List.getElem?_eq_some_iff.mp hText
  have hPlace : column < (cells.mapIdx (paddedCell rows)).length := by simpa using hColumn
  have hHere : (cells.mapIdx (paddedCell rows))[column] = paddedCell rows column text := by
    simp [hCell]
  rw [layout, ← sum_take_mapIdx hCells (Nat.le_of_lt hColumn), drop_intercalate _ _ hPlace,
    List.drop_eq_getElem_cons hPlace, hHere]
  exact (List.prefix_append _ _).trans (prefix_intercalate _ _ _)

theorem layoutText_eq (hCells : cells ∈ rows) :
    (layoutText (longest rows) cells).toList = layout rows cells := by
  have hLength := length_le_columnCount hCells
  rw [layoutText, String.toList_intercalate, layout]
  congr 1
  refine List.ext_getElem (by simp [hLength, longest]) fun column hColumn _ => ?_
  simp [longest, pad, paddedCell]

end Rows

/-- The line of a row: its cells with their padding, but without the blanks at the end. -/
def lineOf (rows : List (List String)) (cells : List String) : List Char :=
  trimEnd isBlank (layout rows cells)

/-- What a line of a row is like: the blanks at the end are missing and nothing else is, and each
cell starts at the start of its column. -/
structure IsLine (rows : List (List String)) (cells : List String) (line : List Char) : Prop where
  trimmed : ∃ blanks, layout rows cells = line ++ blanks ∧ ∀ c ∈ blanks, isBlank c = true
  last_visible : ∀ c, line.getLast? = some c → isBlank c = false
  starts : ∀ column text, cells[column]? = some text →
    text.toList <+: (layout rows cells).drop (columnStart rows column)

theorem getLast?_trimEnd (text : List Char) {c : Char}
    (hLast : (trimEnd isBlank text).getLast? = some c) : isBlank c = false := by
  have hStops := List.head?_dropWhile_not isBlank text.reverse
  rw [trimEnd, List.getLast?_reverse] at hLast
  rw [hLast] at hStops
  simpa using hStops

/-- A text of blanks is trimmed to nothing, and no other text is. -/
theorem trimEnd_eq_nil_iff {text : List Char} :
    trimEnd isBlank text = [] ↔ ∀ c ∈ text, isBlank c = true := by
  rw [trimEnd, List.reverse_eq_nil_iff, List.dropWhile_eq_nil_iff]
  simp

section Rows

variable {rows : List (List String)} {cells : List String}

theorem toList_rowText (hCells : cells ∈ rows) :
    (rowText (longest rows) cells).toList = lineOf rows cells := by
  rw [rowText, String.toList_ofList, layoutText_eq hCells, lineOf]

theorem isLine_lineOf (hCells : cells ∈ rows) : IsLine rows cells (lineOf rows cells) where
  trimmed := by
    refine ⟨_, (Text.trimEnd_append isBlank (layout rows cells)).symm, fun c hMem => ?_⟩
    exact List.all_eq_true.mp List.all_takeWhile c (List.mem_reverse.mp hMem)
  last_visible _ := getLast?_trimEnd _
  starts _ _ := prefix_drop_layout hCells

end Rows

/-! ## Lines without line breaks -/

theorem lineBreak_not_mem_layout {rows : List (List String)} {cells : List String}
    (hFree : ∀ text ∈ cells, '\n' ∉ text.toList) : '\n' ∉ layout rows cells := by
  intro hMem
  obtain hGap | ⟨part, hPart, hInner⟩ := Text.mem_intercalate hMem
  · exact absurd hGap (by decide)
  · obtain ⟨column, hColumn, rfl⟩ := List.mem_mapIdx.mp hPart
    rw [paddedCell, List.mem_append] at hInner
    rcases hInner with hText | hBlank
    · exact hFree _ (List.getElem_mem hColumn) hText
    · exact absurd (List.eq_of_mem_replicate hBlank) (by decide)

theorem IsLine.lineBreak_not_mem {rows : List (List String)} {cells : List String}
    {line : List Char} (h : IsLine rows cells line)
    (hFree : ∀ text ∈ cells, '\n' ∉ text.toList) : '\n' ∉ line := by
  obtain ⟨blanks, hLayout, -⟩ := h.trimmed
  intro hMem
  exact lineBreak_not_mem_layout hFree (hLayout ▸ List.mem_append_left blanks hMem)

/-- The dashes of all columns, each as many as the column is wide. -/
def dashes (rows : List (List String)) : List Char :=
  ['-', '+', '-'].intercalate
    ((List.range (columnCount rows)).map fun column => List.replicate (columnWidth rows column) '-')

theorem toList_separatorText (rows : List (List String)) :
    (separatorText (longest rows)).toList = dashes rows := by
  rw [separatorText, String.toList_intercalate, dashes, longest, List.map_map, List.map_map]
  congr 1
  refine List.map_congr_left fun column _ => ?_
  simp

theorem lineBreak_not_mem_dashes (rows : List (List String)) : '\n' ∉ dashes rows := by
  intro hMem
  obtain hGap | ⟨part, hPart, hInner⟩ := Text.mem_intercalate hMem
  · exact absurd hGap (by decide)
  · obtain ⟨column, -, rfl⟩ := List.mem_map.mp hPart
    exact absurd (List.eq_of_mem_replicate hInner) (by decide)

/-! ## Rows with nothing to show -/

/-- Whether there is a single row, with at most one cell, and with nothing but blanks in it. -/
def onlyBlank : List (List String) → Bool
  | [cells] => decide (cells.length ≤ 1) && cells.all (·.toList.all isBlank)
  | _ => false

theorem layout_blank_iff {rows : List (List String)} {cells : List String} :
    (∀ c ∈ layout rows cells, isBlank c = true) ↔
      cells.length ≤ 1 ∧ ∀ text ∈ cells, ∀ c ∈ text.toList, isBlank c = true := by
  have hSpace : isBlank ' ' = true := by decide
  match cells with
  | [] => simp [layout]
  | [text] =>
    simp only [layout, List.mapIdx_cons, List.mapIdx_nil, List.intercalate_singleton, paddedCell,
      List.forall_mem_append]
    simp only [List.mem_replicate, and_imp, List.length_singleton, List.mem_singleton, forall_eq]
    constructor
    · exact fun h => ⟨Nat.le_refl 1, h.1⟩
    · rintro ⟨-, h⟩
      exact ⟨h, fun c _ hEq => hEq ▸ hSpace⟩
  | first :: second :: rest =>
    have hBar : '|' ∈ layout rows (first :: second :: rest) := by
      rw [layout, List.mapIdx_cons, List.mapIdx_cons, List.intercalate_cons_cons]
      simp [cellGap]
    constructor
    · intro h
      exact absurd (h '|' hBar) (by decide)
    · rintro ⟨hLength, -⟩
      exact absurd hLength (by simp)

/-- Texts with line breaks between them are no text at all if there are none, or if the only one is
empty. -/
theorem intercalate_eq_nil_iff {parts : List (List Char)} :
    ['\n'].intercalate parts = [] ↔ parts = [] ∨ parts = [[]] := by
  match parts with
  | [] => simp
  | [part] => simp
  | part :: next :: others => simp [List.intercalate_cons_cons]

theorem onlyBlank_iff {all rows : List (List String)} :
    onlyBlank rows = true ↔ rows.map (lineOf all) = [[]] := by
  match rows with
  | [] => simp [onlyBlank]
  | [cells] =>
    rw [List.map_singleton, List.singleton_inj, lineOf, trimEnd_eq_nil_iff, layout_blank_iff]
    simp [onlyBlank]
  | first :: second :: rest => simp [onlyBlank]

/-! ## The whole table -/

/-- What stands below the dashes, if there is anything at all. -/
theorem toList_body {all rows : List (List String)} (hRows : ∀ cells ∈ rows, cells ∈ all) :
    (String.intercalate "\n" (rows.map (rowText (longest all)))).toList
      = ['\n'].intercalate (rows.map (lineOf all)) := by
  have hLines : (rows.map (rowText (longest all))).map String.toList = rows.map (lineOf all) := by
    rw [List.map_map]
    exact List.map_congr_left fun cells hCells => toList_rowText (hRows cells hCells)
  rw [String.toList_intercalate, hLines]
  rfl

theorem toList_textTable (titles : List String) (rows : List (List String)) :
    (textTable .plain titles rows).toList
      = ['\n'].intercalate (lineOf (titles :: rows) titles :: dashes (titles :: rows) ::
          if onlyBlank rows then [] else rows.map (lineOf (titles :: rows))) := by
  have hHead : (rowText (longest (titles :: rows)) titles).toList = lineOf (titles :: rows) titles :=
    toList_rowText List.mem_cons_self
  have hBody := toList_body fun cells (hCells : cells ∈ rows) => List.mem_cons_of_mem titles hCells
  rw [textTable, columnWidths_eq]
  simp only [Style.apply_plain]
  generalize String.intercalate "\n" (rows.map (rowText (longest (titles :: rows)))) = body
    at hBody ⊢
  by_cases hEmpty : body.isEmpty = true
  · rw [if_pos hEmpty]
    rw [String.isEmpty_iff, ← String.toList_inj, hBody] at hEmpty
    have hShown : (if onlyBlank rows then [] else rows.map (lineOf (titles :: rows))) = [] := by
      rcases intercalate_eq_nil_iff.mp hEmpty with hNone | hOne
      · rw [hNone, ite_self]
      · rw [if_pos (onlyBlank_iff.mpr hOne)]
    rw [hShown, String.toList_append, String.toList_append, hHead, toList_separatorText]
    simp
  · rw [if_neg hEmpty]
    rw [String.isEmpty_iff, ← String.toList_inj, hBody] at hEmpty
    have hNot : ¬ onlyBlank rows = true := fun hBlank =>
      hEmpty (intercalate_eq_nil_iff.mpr (.inr (onlyBlank_iff.mp hBlank)))
    have hLines : rows.map (lineOf (titles :: rows)) ≠ [] := fun hNone =>
      hEmpty (intercalate_eq_nil_iff.mpr (.inl hNone))
    obtain ⟨first, rest, hFirst⟩ := List.exists_cons_of_ne_nil hLines
    rw [if_neg hNot, hFirst, List.intercalate_cons_cons, List.intercalate_cons_cons, ← hFirst,
      ← hBody]
    simp only [String.toList_append, hHead, toList_separatorText]
    simp

/-- A table has a line for its titles, one with dashes, and one for each row, but for a single row
that has nothing to show. In each line the cells start where their columns do. -/
theorem table_lines {titles : List String} {rows : List (List Value)}
    (hTitles : ∀ title ∈ titles, '\n' ∉ title.toList)
    (hRows : ∀ row ∈ rows, ∀ value ∈ row, '\n' ∉ value.cell.toList) :
    let texts := rows.map fun row => row.map Value.cell
    ∃ head lines,
      splitAtEach '\n' (table .plain titles rows).toList
        = head :: dashes (titles :: texts) :: (if onlyBlank texts then [] else lines) ∧
      IsLine (titles :: texts) titles head ∧
      List.Forall₂ (IsLine (titles :: texts)) texts lines ∧
      (splitAtEach '\n' (table .plain titles rows).toList).length
        = 2 + if onlyBlank texts then 0 else rows.length := by
  intro texts
  have hTexts : ∀ cells ∈ texts, ∀ text ∈ cells, '\n' ∉ text.toList := by
    intro cells hCells text hText
    obtain ⟨row, hRow, rfl⟩ := List.mem_map.mp hCells
    obtain ⟨value, hValue, rfl⟩ := List.mem_map.mp hText
    exact hRows row hRow value hValue
  have hLine : ∀ cells ∈ titles :: texts, IsLine (titles :: texts) cells
      (lineOf (titles :: texts) cells) := fun cells => isLine_lineOf
  have hFree : ∀ cells ∈ titles :: texts, '\n' ∉ lineOf (titles :: texts) cells := by
    intro cells hCells
    refine (hLine cells hCells).lineBreak_not_mem ?_
    rcases List.mem_cons.mp hCells with rfl | hRow
    · exact hTitles
    · exact hTexts cells hRow
  have hSplit : splitAtEach '\n' (table .plain titles rows).toList
      = lineOf (titles :: texts) titles :: dashes (titles :: texts) ::
        if onlyBlank texts then [] else texts.map (lineOf (titles :: texts)) := by
    rw [table, toList_textTable, Text.splitAtEach_intercalate (List.cons_ne_nil _ _)]
    refine List.forall_mem_cons.mpr ⟨hFree titles List.mem_cons_self,
      List.forall_mem_cons.mpr ⟨lineBreak_not_mem_dashes _, ?_⟩⟩
    split
    · exact List.forall_mem_nil _
    · intro part hPart
      obtain ⟨cells, hCells, rfl⟩ := List.mem_map.mp hPart
      exact hFree cells (List.mem_cons_of_mem titles hCells)
  refine ⟨_, texts.map (lineOf (titles :: texts)), hSplit, hLine titles List.mem_cons_self, ?_, ?_⟩
  · rw [List.forall₂_map_right_iff, List.forall₂_same]
    exact fun cells hCells => hLine cells (List.mem_cons_of_mem titles hCells)
  · rw [hSplit]
    split
    · rfl
    · simp only [List.length_cons, List.length_map, texts]
      omega

/-- A row that is longer than the titles, and one that is shorter. -/
theorem table_lines_ragged :
    let titles := ["#", "Rule"]
    let rows : List (List Value) := [[.integer 10, .text "<s>", .truth true], [.nothing]]
    (∀ title ∈ titles, '\n' ∉ title.toList) ∧
      (∀ row ∈ rows, ∀ value ∈ row, '\n' ∉ value.cell.toList) ∧
      (splitAtEach '\n' (table .plain titles rows).toList).length = 4 ∧
      ∃ head lines, splitAtEach '\n' (table .plain titles rows).toList
        = head :: "---+------+-----".toList :: lines := by
  intro titles rows
  have hTitles : ∀ title ∈ titles, '\n' ∉ title.toList := by decide
  have hRows : ∀ row ∈ rows, ∀ value ∈ row, '\n' ∉ value.cell.toList := by decide
  obtain ⟨head, lines, hSplit, -, -, hLength⟩ := table_lines hTitles hRows
  exact ⟨hTitles, hRows, hLength, head, lines, hSplit⟩

/-- A single row with nothing in its cell has no line, although two such rows have one each. So the
number of lines does not always tell the number of rows. -/
theorem table_lines_of_blank_row :
    splitAtEach '\n' (table .plain ["a"] [[.nothing]]).toList = [['a'], ['-']] ∧
      splitAtEach '\n' (table .plain ["a"] [[.nothing], [.nothing]]).toList
        = [['a'], ['-'], [], []] ∧
      ¬ ∀ (titles : List String) (rows : List (List Value)),
        (∀ title ∈ titles, '\n' ∉ title.toList) →
        (∀ row ∈ rows, ∀ value ∈ row, '\n' ∉ value.cell.toList) →
        (splitAtEach '\n' (table .plain titles rows).toList).length = 2 + rows.length := by
  have hLines : splitAtEach '\n' (table .plain ["a"] [[.nothing]]).toList = [['a'], ['-']] := by
    decide
  refine ⟨hLines, by decide, fun hAll => ?_⟩
  have hThree := hAll ["a"] [[.nothing]] (by decide) (by decide)
  rw [hLines] at hThree
  cases hThree

end CodonGrammar.Display
