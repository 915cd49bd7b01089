import MarkupPairs.Document
import MarkupPairs.Tag.Basic

/-!
# The partner of a tag

An opening tag is paired with the closing tag of its name that no element of that name in between
takes, and the other way round. The search goes by the characters alone, so tags inside comments
count. Forward, a tag is read character by character between its `<` and its `>`; backward, its head
is read again once its `<` is reached.
-/

namespace MarkupPairs

/-- What is known of a tag once its name is read. -/
structure TagHead where
  start : Position
  closing : Bool
  name : Text
deriving DecidableEq

namespace TagHead

def isNameChar (c : Char) : Bool :=
  Unicode.isAlphanumeric c || c == '-' || c == '_' || c == ':' || c == '.'

def endsName (c : Char) : Bool := Unicode.isWhite c || c == '>' || c == '/'

/-- The head with one more character, if that belongs to it. -/
def extend? (h : TagHead) (c : Char) : Option TagHead :=
  if c = '/' ∧ h.name = [] ∧ h.closing = false then some { h with closing := true }
  else if isNameChar c then some { h with name := h.name ++ [c] }
  else none

/-- Whether the head is complete when `c` follows: a name that is ended, or no name right before
`>`. -/
def isEndedBy (h : TagHead) (c : Char) : Bool := endsName c && (h.name != [] || c == '>')

/-- The closing slash and the name that follow a `<`, if they are ended by the text after them. -/
def read? (t : Text) : Option (Bool × Text) :=
  let (closing, t) := match t with
    | '/' :: rest => (true, rest)
    | _ => (false, t)
  let name := t.takeWhile isNameChar
  match t.dropWhile isNameChar with
  | [] => if name = [] then none else some (closing, name)
  | c :: _ => if endsName c && (name != [] || c == '>') then some (closing, name) else none

end TagHead

/-- Where a walk forward stands with respect to tags. -/
inductive TagPhase where
  | outside
  /-- Reading the head of a tag. -/
  | reading (head : TagHead)
  /-- Behind the head of a tag, before its `>`. -/
  | inside (head : TagHead)
deriving DecidableEq

namespace TagPhase

/-- The head that `c` still belongs to, with `c` added. -/
def extend? (c : Char) : TagPhase → Option TagHead
  | reading head => head.extend? c
  | _ => none

/-- The phase at `c` when that belongs to no head: the head being read is complete or given up. -/
def settle (c : Char) : TagPhase → TagPhase
  | reading head => if head.isEndedBy c then inside head else outside
  | phase => phase

/-- The head of the tag that a `>` would end. -/
def head? : TagPhase → Option TagHead
  | inside head => some head
  | _ => none

end TagPhase

/-- Walks forward to the closing tag called `name` that none of the `depth` open elements of that
name takes. `ink` is the last character outside of heads that is not blank: a slash makes the tag
that ends after it an element by itself. -/
def seekClosing (name : Text) : Nat → TagPhase → Option Char → List Cell → Option Tag
  | _, _, _, [] => none
  | depth, phase, ink, ⟨p, c⟩ :: rest =>
    match phase.extend? c with
    | some head => seekClosing name depth (.reading head) ink rest
    | none =>
      let phase := phase.settle c
      let ink' := if Unicode.isWhite c then ink else some c
      if c = '<' then seekClosing name depth (.reading ⟨p, false, []⟩) ink' rest
      else if c = '>' then
        match phase.head?.filter (·.name = name) with
        | none => seekClosing name depth .outside ink' rest
        | some head =>
          if head.closing then
            match depth with
            | 0 => some ⟨name, .closing, Range.between head.start (p.right 1)⟩
            | depth + 1 => seekClosing name depth .outside ink' rest
          else if ink = some '/' then seekClosing name depth .outside ink' rest
          else seekClosing name (depth + 1) .outside ink' rest
      else seekClosing name depth phase ink' rest

/-- Whether a `>` ends an element by itself, by the cells before it, nearest first: the last
character on its line that is not blank is a slash. -/
def followsSlash (before : List Cell) : Bool :=
  let line := before.takeWhile (·.char != '\n')
  (line.dropWhile (Unicode.isWhite ·.char)).head?.map Cell.char == some '/'

/-- Walks backward to the opening tag called `name` that none of the `depth` closed elements of that
name takes. `close` is the last `>` passed that no head has claimed, and whether it ends an element
by itself; `behind` is the text behind the cells. -/
def seekOpening (name : Text) :
    Nat → Option (Position × Bool) → Text → List Cell → Option Tag
  | _, _, _, [] => none
  | depth, close, behind, ⟨p, c⟩ :: before =>
    if c = '>' then seekOpening name depth (some (p, followsSlash before)) (c :: behind) before
    else if c = '<' then
      match TagHead.read? behind with
      | none => seekOpening name depth close (c :: behind) before
      | some (closing, found) =>
        if found ≠ name then seekOpening name depth none (c :: behind) before
        else if closing then seekOpening name (depth + 1) none (c :: behind) before
        else
          match close with
          | some (stop, false) =>
            match depth with
            | 0 => some ⟨name, .opening, Range.between p (stop.right 1)⟩
            | depth + 1 => seekOpening name depth none (c :: behind) before
          | _ => seekOpening name depth none (c :: behind) before
    else seekOpening name depth close (c :: behind) before

namespace Document

/-- The closing tag of the element that a tag called `name` ending at `p` opens. -/
def closingTag? (d : Document) (limits : ScanLimits) (name : Text) (p : Position) : Option Tag :=
  seekClosing name 0 .outside none
    ((d.cellsFrom p).takeWhile (·.position.line < p.line + limits.paired))

/-- The opening tag of the element that a tag called `name` starting at `p` closes. -/
def openingTag? (d : Document) (limits : ScanLimits) (name : Text) (p : Position) : Option Tag :=
  seekOpening name 0 none (Cell.text (d.cellsFrom p))
    ((d.cellsBefore p).takeWhile (p.line - limits.paired ≤ ·.position.line))

/-- The other tag of the element that a tag opens or closes. -/
def partner? (d : Document) (limits : ScanLimits) (t : Tag) : Option Tag :=
  match t.kind with
  | .opening => d.closingTag? limits t.name t.range.stop
  | .closing => d.openingTag? limits t.name t.range.start
  | .selfClosing => none

end Document

end MarkupPairs
