import MarkupPairs.Bracket
import MarkupPairs.Tag.Basic

/-!
# The class list of a tag

The caret belongs at the end of a tag's class list when it has one, ready for another class, and
right after the tag's name when it has none. A class list is looked for line by line: the name of
the attribute, the equals sign and the value stand on one line.
-/

namespace MarkupPairs

/-- What a place for the caret is. -/
inductive ClassPlaceKind where
  | endOfName
  | endOfClassList
deriving DecidableEq

/-- Where the caret goes to edit the classes of a tag. -/
structure ClassPlace where
  position : Position
  kind : ClassPlaceKind
deriving DecidableEq

namespace ClassList

/-- The number of characters up to the last one that is not blank, that one included. -/
def inkLength (t : Text) : Nat := t.trimEnd.length

def lastInk? (t : Text) : Option Char := t.trimEnd.getLast?

/-- The index of the first `goal` that no `nest` before it takes. -/
def seekIndex (nest goal : Char) : Nat → Nat → Text → Option Nat
  | _, _, [] => none
  | i, depth, c :: rest =>
    if c = nest then seekIndex nest goal (i + 1) (depth + 1) rest
    else if c = goal then
      match depth with
      | 0 => some i
      | depth + 1 => seekIndex nest goal (i + 1) depth rest
    else seekIndex nest goal (i + 1) depth rest

/-- Where the class list ends in what braces hold: before the last quote, or before the last
parenthesis and the quote in front of it, or else at the end. -/
def endInBraces (t : Text) : Nat :=
  match lastInk? t with
  | some c =>
    if c = ')' then
      let call := t.take (inkLength t - 1)
      if (lastInk? call).any Bracket.isQuote then inkLength call - 1 else inkLength t - 1
    else if Bracket.isQuote c then inkLength t - 1
    else t.length
  | none => t.length

/-- Whether a character ends a value without quotes. -/
def endsBare (c : Char) : Bool := Unicode.isWhite c || c == '>' || c == '/'

/-- The number of characters before the end of the class list in an attribute's value; none when
the value does not end. -/
def endInValue? : Text → Option Nat
  | [] => none
  | c :: rest =>
    if c = '\x22' ∨ c = '\x27' then (rest.findIdx? (· == c)).map (· + 1)
    else if c = '\x7b' then
      (seekIndex '\x7b' '\x7d' 0 0 rest).map fun close => endInBraces (rest.take close) + 1
    else some ((c :: rest).takeWhile (!endsBare ·)).length

/-- What follows the name of a class attribute and the equals sign, when a text starts with them. -/
def value? (t : Text) : Option Text := do
  let rest ← "className".toList.isPrefixOf? t <|> "class".toList.isPrefixOf? t
  match Text.trimStart rest with
  | '=' :: value => some (Text.trimStart value)
  | _ => none

/-- The value of the first class attribute that a blank precedes. -/
def valueAfterBlank? : Text → Option Text
  | [] => none
  | c :: rest =>
    if Unicode.isWhite c then value? rest <|> valueAfterBlank? rest else valueAfterBlank? rest

/-- The value of the first class attribute in a part of a line, with all that follows it. -/
def firstValue? (t : Text) : Option Text := value? t <|> valueAfterBlank? t

/-- The number of characters before the end of the class list in a part of a line. -/
def endInLine? (t : Text) : Option Nat :=
  (firstValue? t).bind fun value => (endInValue? value).map (t.length - value.length + ·)

end ClassList

namespace Document

/-- The characters that a range covers of line `n`, given with the first of them. -/
def linePart (d : Document) (r : Range) (n : Nat) : Nat × Text :=
  let first := if n = r.start.line then r.start.character else 0
  let line := if n = r.stop.line then (d.line n).take r.stop.character else d.line n
  (first, line.drop first)

/-- The end of the class list that starts on a line of a range. -/
def classListStop? (d : Document) (r : Range) (n : Nat) : Option Position :=
  let (first, part) := d.linePart r n
  (ClassList.endInLine? part).map fun i => ⟨n, first + i⟩

/-- The position right after a tag's name, when that follows the `<` or the slash at once. For a tag
that does not start in the document it goes as far as counts go. -/
def nameStop (d : Document) (t : Tag) : Position :=
  let length := 1 + (if t.kind = .closing then 1 else 0) + t.name.length
  if d.isValid t.range.start then t.range.start.right length else t.range.start.shift 0 length

/-- Where the caret goes to edit the classes of a tag. -/
def classPlace (d : Document) (t : Tag) : ClassPlace :=
  let lines := List.range' t.range.start.line
    (min (t.range.stop.line + 1) d.lineCount - t.range.start.line)
  match lines.findSome? (d.classListStop? t.range) with
  | some p => ⟨p, .endOfClassList⟩
  | none => ⟨d.nameStop t, .endOfName⟩

end Document

end MarkupPairs
