import MarkupPairs.Edit
import MarkupPairs.RangeSet

/-!
# Deleting line by line

Taking a pair of tags away often leaves their lines with nothing but indentation. Ranges to delete
are therefore gathered by line; a line of which nothing but blanks or a lone semicolon would be left
goes altogether, together with a line feed.
-/

namespace MarkupPairs

/-- What is deleted on one line: some ranges of it, or all of it. -/
structure LineDeletion where
  line : Nat
  ranges : List Range
  wholeLine : Bool
deriving DecidableEq

namespace LineDeletion

/-- The text of a line without its ranges, the last range going first. -/
def deleteRanges (t : Text) (ranges : List Range) : Text :=
  ranges.foldr
    (fun r t => t.take r.start.character ++ t.drop (max r.start.character r.stop.character)) t

structure Entry where
  ranges : RangeSet
  wholeLine : Bool

def Entry.untouched : Entry := ⟨.empty, false⟩

def Entry.whole : Entry := ⟨.empty, true⟩

def Entry.insert (e : Entry) (r : Range) : Entry := { e with ranges := e.ranges.insert r }

/-- The plan for line `n` once `r` is deleted too. A range over several lines takes the rest of its
first line, the part of its last line before its stop, and the lines in between altogether. -/
def Entry.delete (d : Document) (n : Nat) (e : Entry) (r : Range) : Entry :=
  if r.isEmpty then e
  else if r.isSingleLine then if r.start.line = n then e.insert r else e
  else if r.start.line = n then e.insert (Range.between r.start (d.lineStop n))
  else if r.stop.line = n then e.insert (Range.between ⟨n, 0⟩ r.stop)
  else if r.start.line < n ∧ n < r.stop.line then .whole
  else e

/-- The lines that a range touches; none when it is empty. -/
def linesOf (r : Range) : List Nat :=
  if r.isEmpty then [] else List.range' r.start.line (r.stop.line - r.start.line + 1)

/-- Numbers in ascending order, each once. -/
def ascending (ns : List Nat) : List Nat := (ns.mergeSort (· ≤ ·)).eraseReps

/-- Whether what is left of a line is not worth keeping. -/
def isResidue (t : Text) : Bool := t.trim == [] || t.trim == [';']

/-- What the deletion of some ranges means for line `n`. -/
def ofLine (d : Document) (ranges : List Range) (n : Nat) : LineDeletion :=
  let entry := ranges.foldl (Entry.delete d n) .untouched
  { line := n
    ranges := entry.ranges.ranges
    wholeLine := entry.wholeLine || isResidue (deleteRanges (d.line n) entry.ranges.ranges) }

/-- The first and last lines of the runs of consecutive numbers in an ascending list. -/
def runs : List Nat → List (Nat × Nat)
  | [] => []
  | n :: rest =>
    match runs rest with
    | (first, last) :: later =>
      if first = n + 1 then (n, last) :: later else (n, n) :: (first, last) :: later
    | [] => [(n, n)]

/-- What goes when the lines from `first` to `last` go: the line feed after them goes with them, or,
at the end of the text, the one before them. -/
def runRange (d : Document) (first last : Nat) : Range :=
  if last + 1 < d.lineCount then Range.between ⟨first, 0⟩ ⟨last + 1, 0⟩
  else if 0 < first then Range.between (d.lineStop (first - 1)) (d.lineStop last)
  else Range.between ⟨0, 0⟩ (d.lineStop last)

end LineDeletion

namespace Document

/-- The deletion of some ranges, line by line in ascending order. -/
def lineDeletions (d : Document) (ranges : List Range) : List LineDeletion :=
  (LineDeletion.ascending (ranges.flatMap LineDeletion.linesOf)).map (LineDeletion.ofLine d ranges)

/-- The ranges that go when some lines are deleted. -/
def deletedRanges (d : Document) (deletions : List LineDeletion) : RangeSet :=
  let partly := (deletions.filter (!·.wholeLine)).flatMap (·.ranges)
  let whole := LineDeletion.ascending ((deletions.filter (·.wholeLine)).map (·.line))
  (RangeSet.ofList partly).insertAll
    ((LineDeletion.runs whole).map fun (first, last) => LineDeletion.runRange d first last)

/-- The plan that carries out some deletions. -/
def deletionPlan (d : Document) (deletions : List LineDeletion) : EditPlan :=
  EditPlan.deleteAll (d.deletedRanges deletions).ranges

end Document

end MarkupPairs
