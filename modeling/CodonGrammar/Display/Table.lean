import CodonGrammar.Display.Style
import CodonGrammar.Value

/-!
# Tables

A table has titles, a line of dashes, and rows of cells. Each column is as wide as its widest text.
A row may have fewer cells than there are titles, and then it ends early, or more, and then the
columns that it adds have no title. No line has blanks at its end.
-/

namespace CodonGrammar.Display

open Text (isBlank)

/-- The widths of columns with room for the cells of one more row. -/
def widen : List Nat → List String → List Nat
  | widths, [] => widths
  | [], cell :: cells => cell.length :: widen [] cells
  | width :: widths, cell :: cells => max width cell.length :: widen widths cells

def columnWidths (titles : List String) (rows : List (List String)) : List Nat :=
  rows.foldl widen (titles.map String.length)

/-- The text with blanks behind it up to a width. -/
def pad (width : Nat) (text : String) : String :=
  text ++ String.ofList (List.replicate (width - text.length) ' ')

def layoutText (widths : List Nat) (cells : List String) : String :=
  String.intercalate " | " (List.zipWith pad widths cells)

def rowText (widths : List Nat) (cells : List String) : String :=
  String.ofList (Text.trimEnd isBlank (layoutText widths cells).toList)

def separatorText (widths : List Nat) : String :=
  String.intercalate "-+-" (widths.map fun width => String.ofList (List.replicate width '-'))

/-- A table with a text in every cell. Nothing follows the dashes if the rows come to no text at
all, be it that there are none or that the only one is empty. -/
def textTable (style : Style) (titles : List String) (rows : List (List String)) : String :=
  let widths := columnWidths titles rows
  let head := rowText widths titles ++ "\n" ++ style.apply (some .dim) (separatorText widths)
  let body := String.intercalate "\n" (rows.map (rowText widths))
  if body.isEmpty then head else head ++ "\n" ++ body

def table (style : Style) (titles : List String) (rows : List (List Value)) : String :=
  textTable style titles (rows.map fun row => row.map Value.cell)

end CodonGrammar.Display
