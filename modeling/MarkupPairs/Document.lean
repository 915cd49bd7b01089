import MarkupPairs.Cell
import MarkupPairs.LineEnding
import MarkupPairs.Range

/-!
# Documents

A document is a text whose lines end in line feeds, together with the line ending that it is saved
with. Its characters are addressed by offset or by position. Both directions clamp: a position past
the end of its line stands for the end of the line, one past the last line for the end of the text.
-/

namespace MarkupPairs

/-- A text being edited, and how its lines end when it is saved. -/
structure Document where
  text : Text
  ending : LineEnding

namespace Document

/-- The document of a text as it is loaded. -/
def ofText (t : Text) : Document := ⟨LineEnding.toLf t, LineEnding.detect t⟩

def savedText (d : Document) : Text := d.ending.restore d.text

/-- The lines, without their line feeds. An empty document has one empty line. -/
def lines (d : Document) : List Text := d.text.lines

def lineCount (d : Document) : Nat := d.lines.length

/-- One line; empty when the document has no such line. -/
def line (d : Document) (n : Nat) : Text := d.lines[n]?.getD []

def lineLength (d : Document) (n : Nat) : Nat := (d.line n).length

/-- The position after the last character of a line. -/
def lineStop (d : Document) (n : Nat) : Position := ⟨n, d.lineLength n⟩

/-- The character at a position; a line feed is at none. -/
def charAt (d : Document) (p : Position) : Option Char := (d.line p.line)[p.character]?

/-- Whether a position is on an existing line, no further than the end of the line. -/
def isValid (d : Document) (p : Position) : Bool :=
  p.line < d.lineCount && p.character ≤ d.lineLength p.line

/-- The number of characters before a position. -/
def offsetAt (d : Document) (p : Position) : Nat :=
  if p.line < d.lineCount then
    Text.lengthOfLines (d.lines.take p.line) + min p.character (d.lineLength p.line)
  else d.text.length

/-- The position that `n` characters stand before. -/
def positionAt (d : Document) (n : Nat) : Position := Position.origin.afterText (d.text.take n)

/-- The position after the last character. -/
def stop (d : Document) : Position := Position.origin.afterText d.text

def whole (d : Document) : Range := Range.between Position.origin d.stop

def slice (d : Document) (r : Range) : Text :=
  (d.text.take (d.offsetAt r.stop)).drop (d.offsetAt r.start)

def cells (d : Document) : List Cell := Cell.layOut Position.origin d.text

/-- The cells from a position on, in reading order. -/
def cellsFrom (d : Document) (p : Position) : List Cell :=
  d.cells.dropWhile (·.position < p)

/-- The cells behind the one at a position, in reading order. -/
def cellsAfter (d : Document) (p : Position) : List Cell :=
  d.cells.dropWhile (·.position ≤ p)

/-- The cells before a position, the nearest first. -/
def cellsBefore (d : Document) (p : Position) : List Cell :=
  (d.cells.takeWhile (·.position < p)).reverse

end Document

end MarkupPairs
