import MarkupPairs.Document

/-!
# Selections

A selection runs from an anchor, which stays put, to an active end, where the caret is drawn. Lists
of selections are kept in reading order with overlaps merged; selections that only touch stay apart.
-/

namespace MarkupPairs

inductive Direction where
  | forward
  | backward
deriving DecidableEq

/-- A selection from its anchor to its active end. -/
structure Selection where
  anchor : Position
  active : Position
deriving DecidableEq

namespace Selection

def caret (p : Position) : Selection := ⟨p, p⟩

def range (s : Selection) : Range := Range.between s.anchor s.active

def isEmpty (s : Selection) : Bool := s.anchor == s.active

/-- Which way the selection runs; an empty one runs forward. -/
def direction (s : Selection) : Direction := if s.anchor ≤ s.active then .forward else .backward

def isReversed (s : Selection) : Bool := s.direction == .backward

/-- The selection with its active end at `p`. A caret moves as a whole. -/
def moveTo (s : Selection) (p : Position) : Selection :=
  if s.isEmpty then caret p else ⟨s.anchor, p⟩

/-- Whether `a` comes no later than `b`, by start and then by stop. -/
def precedes (a b : Selection) : Bool :=
  a.range.start < b.range.start ||
    (a.range.start == b.range.start && a.range.stop ≤ b.range.stop)

/-- Merges `last` with what follows it as long as that starts inside; drops exact repetitions. -/
def mergeFrom (last : Selection) : List Selection → List Selection
  | [] => [last]
  | s :: rest =>
    if s.range.start < last.range.stop then
      let cover := last.range.union s.range
      mergeFrom ⟨cover.start, cover.stop⟩ rest
    else if s.range = last.range then mergeFrom last rest
    else last :: mergeFrom s rest

def merge : List Selection → List Selection
  | [] => []
  | s :: rest => mergeFrom s rest

/-- The selections in reading order, those that overlap merged and repetitions dropped. -/
def normalize (selections : List Selection) : List Selection :=
  merge (selections.mergeSort precedes)

end Selection

/-- How a range lies on the lines of a document. -/
inductive Shape where
  | empty
  | withinLine
  | wholeLine
  | wholeLines
  /-- Several lines, the first or the last of them in part. -/
  | acrossLines
deriving DecidableEq

namespace Shape

def isBlock : Shape → Bool
  | wholeLine | wholeLines => true
  | _ => false

def isMultiLine : Shape → Bool
  | wholeLines | acrossLines => true
  | _ => false

end Shape

namespace Document

/-- The shape of a range: it is made of complete lines when it starts at the start of a line and
stops at the end of one. -/
def shape (d : Document) (r : Range) : Shape :=
  let full := r.start.character == 0 && r.stop == d.lineStop r.stop.line
  if r.isEmpty then .empty
  else if r.isSingleLine then if full then .wholeLine else .withinLine
  else if full then .wholeLines else .acrossLines

/-- A range over several lines that stops at the start of a line, pulled back to the end of the
line before: dragging over whole lines leaves the caret there. -/
def trimLineStart (d : Document) (r : Range) : Range :=
  if r.isSingleLine || r.stop.character != 0 then r
  else r.withStop (d.lineStop (r.stop.line - 1))

end Document

end MarkupPairs
