import MarkupPairs.Tag.Enclosing

/-!
# The tag around a position

The tag around a position is the one that the position is on, or else the opening tag of the
innermost element whose content the position is in. The search for that goes backward and counts
elements by the characters next to each angle; what is inside a comment does not count.
-/

namespace MarkupPairs

/-- Walks backward to the `<` of an opening tag that none of the `depth` elements closed on the way
takes. `commented` holds inside a comment, and `behind` is the text behind the cells. -/
def seekAncestor : Nat → Bool → Text → List Cell → Option Position
  | _, _, _, [] => none
  | depth, true, behind, ⟨_, c⟩ :: before =>
    seekAncestor depth (!(c == '<' && ['!', '-', '-'].isPrefixOf behind)) (c :: behind) before
  | depth, false, behind, ⟨p, c⟩ :: before =>
    if c = '>' then
      match (before.take 2).map Cell.char with
      | ['-', '-'] => seekAncestor depth true (c :: behind) before
      | ['/', '<'] => seekAncestor depth false (c :: behind) before
      | '/' :: _ => seekAncestor (depth + 1) false (c :: behind) before
      | _ => seekAncestor depth false (c :: behind) before
    else if c = '<' then
      match behind with
      | next :: _ =>
        if next = '/' then seekAncestor (depth + 1) false (c :: behind) before
        else if next.isAlpha ∨ next = '>' then
          match depth with
          | 0 => some p
          | depth + 1 => seekAncestor depth false (c :: behind) before
        else seekAncestor depth false (c :: behind) before
      | [] => seekAncestor depth false (c :: behind) before
    else seekAncestor depth false (c :: behind) before

namespace Document

/-- The nearest tag before a position that opens an element not closed there. -/
def ancestorTag? (d : Document) (limits : ScanLimits) (p : Position) : Option Tag :=
  (seekAncestor 0 false (Cell.text (d.cellsFrom p))
    ((d.cellsBefore p).takeWhile (p.line - limits.surrounding ≤ ·.position.line))).bind
    (d.enclosingTag? limits)

/-- The tag that a position is on, or else the one that opens the element around it. -/
def surroundingTag? (d : Document) (limits : ScanLimits) (p : Position) : Option Tag :=
  match d.enclosingTag? limits p with
  | some tag => if p < tag.range.stop then some tag else d.ancestorTag? limits p
  | none => d.ancestorTag? limits p

end Document

end MarkupPairs
