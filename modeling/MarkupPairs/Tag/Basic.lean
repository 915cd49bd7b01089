import MarkupPairs.Range
import MarkupPairs.Text

/-!
# Tags

A tag is what a text says between `<` and `>`: a name, and whether it opens an element, closes one
or is an element by itself. A fragment is opened and closed by tags without a name.
-/

namespace MarkupPairs

inductive TagKind where
  | opening
  | closing
  | selfClosing
deriving DecidableEq

/-- A tag with its range, from `<` to right after `>`. A fragment has an empty name. -/
structure Tag where
  name : Text
  kind : TagKind
  range : Range
deriving DecidableEq

namespace Tag

/-- Whether a character may follow the first letter of a tag's name. -/
def isNameRest (c : Char) : Bool :=
  Unicode.isWordChar c || c == ':' || c == '.' || c == '-'

/-- Whether a text ends like an element by itself, blanks after it aside. -/
def endsSelfClosed (t : Text) : Bool := ['/', '>'].isSuffixOf t.trimEnd

/-- Passes over a slash and the blanks around it; says whether there was one. -/
def splitSlash (t : Text) : Bool × Text :=
  match t.trimStart with
  | '/' :: rest => (true, Text.trimStart rest)
  | rest => (false, rest)

/-- The name at the start of a text: an ASCII letter and what may follow it. -/
def leadingName (t : Text) : Option Text :=
  match t with
  | c :: rest => if c.isAlpha then some (c :: rest.takeWhile isNameRest) else none
  | [] => none

/-- The tag that a text says at a range. Comments and declarations are no tags. -/
def parse? (t : Text) (r : Range) : Option Tag :=
  if t = ['<', '>'] then some ⟨[], .opening, r⟩
  else if t = ['<', '/', '>'] then some ⟨[], .closing, r⟩
  else
    match t with
    | '<' :: rest =>
      let (closing, rest) := splitSlash rest
      (leadingName rest).map fun name =>
        ⟨name, if closing then .closing else if endsSelfClosed t then .selfClosing else .opening, r⟩
    | _ => none

def isSelfClosing (t : Tag) : Bool := t.kind == .selfClosing

end Tag

/-- How many lines the searches for tags look at. -/
structure ScanLimits where
  /-- Lines searched around a position for the `<` and `>` of the tag under it. -/
  enclosing : Nat
  /-- Lines searched for the partner of a tag. -/
  paired : Nat
  /-- Lines searched backward for the tag around a position. -/
  surrounding : Nat
deriving DecidableEq

namespace ScanLimits

def default : ScanLimits := ⟨100, 1000, 1000⟩

end ScanLimits

end MarkupPairs
