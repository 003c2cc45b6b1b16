import CodonGrammar.Display.Style
import CodonGrammar.Text.LineBreak

/-!
# Highlighted source

The names of a grammar source in colour. Everything else is written as it is, but the source is
first brought into one form: without a byte order mark, with line feeds only, and with one of them
at the end and none at the beginning.

A name stands between angle brackets and has at least one character; all of its characters are of
the printable ASCII range without the brackets themselves.
-/

namespace CodonGrammar.Display

def isHighlighted (c : Char) : Bool :=
  (' ' ≤ c && c ≤ ';') || c == '=' || ('?' ≤ c && c ≤ '~')

def nameStart : List Char := "\x1b[04m\x1b[32m".toList

def nameEnd : List Char := "\x1b[39;49;00m".toList

def highlightNames : List Char → List Char
  | [] => []
  | '<' :: rest =>
    match rest.takeWhile isHighlighted, rest.dropWhile isHighlighted with
    | c :: name, '>' :: _ =>
      '<' :: nameStart ++ c :: name ++ nameEnd ++ highlightNames (rest.dropWhile isHighlighted)
    | _, _ => '<' :: highlightNames rest
  | c :: rest => c :: highlightNames rest
termination_by text => text.length
decreasing_by
  · have := (List.dropWhile_sublist (p := isHighlighted) (l := rest)).length_le
    simp only [List.length_cons]
    omega
  · simp
  · simp

def tidySource (source : List Char) : List Char :=
  let unmarked := match source with
    | '\ufeff' :: rest => rest
    | _ => source
  Text.trim (· == '\n') (Text.unifyBreaks unmarked) ++ ['\n']

/-- The source with its names in colour, if there are colours. -/
def highlight (style : Style) (source : String) : String :=
  if style.coloured then String.ofList (highlightNames (tidySource source.toList)) else source

end CodonGrammar.Display
