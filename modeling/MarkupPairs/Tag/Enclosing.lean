import MarkupPairs.Document
import MarkupPairs.Tag.Basic

/-!
# The tag under a position

The tag under a position runs from the nearest `<` before it that no `>` in between takes, to the
`>` that takes this `<`. A position right after the `>` of a tag still counts as on the tag.
-/

namespace MarkupPairs.Document

/-- The nearest `<` at or before a position that no `>` before the position takes. -/
def openAngle? (d : Document) (limits : ScanLimits) (p : Position) : Option Position :=
  if d.charAt p = some '<' then some p
  else Cell.seek '>' '<' 0
    ((d.cellsBefore p).takeWhile (p.line - limits.enclosing ≤ ·.position.line))

/-- The `>` that takes the `<` at a position. -/
def closeAngle? (d : Document) (limits : ScanLimits) (p : Position) : Option Position :=
  Cell.seek '<' '>' 0
    ((d.cellsAfter p).takeWhile (·.position.line < p.line + limits.enclosing))

/-- The tag whose angles have a position between them or under it. -/
def tagAt? (d : Document) (limits : ScanLimits) (p : Position) : Option Tag := do
  let start ← d.openAngle? limits p
  let stop ← d.closeAngle? limits start
  if stop < p then none
  else
    let range := Range.between start (stop.right 1)
    Tag.parse? (d.slice range) range

/-- The tag under a position, or else the tag that ends right before it. -/
def enclosingTag? (d : Document) (limits : ScanLimits) (p : Position) : Option Tag :=
  d.tagAt? limits p <|>
    let previous : Position := ⟨p.line, p.character - 1⟩
    if 0 < p.character ∧ d.charAt previous = some '>' then d.tagAt? limits previous else none

end MarkupPairs.Document
