import MarkupPairs.Action
import MarkupPairs.Document

/-!
# Edits

An edit replaces a range of a document by a text. Edits are gathered in a plan, whose ranges all
refer to the document as it is before the first of them. A plan resolves to splices, which are the
same edits in offsets, in order and apart from one another; only then are they made, one by one.
-/

namespace MarkupPairs

structure Edit where
  range : Range
  text : Text
deriving DecidableEq

/-- Whether the edit changes nothing: no text in place of no text. -/
def Edit.isNoop (e : Edit) : Bool := e.range.isEmpty && e.text.isEmpty

/-- Edits in the order in which they were planned, each of which changes something. -/
structure EditPlan where
  edits : List Edit
  effective : ∀ e ∈ edits, e.isNoop = false

namespace EditPlan

def empty : EditPlan := ⟨[], by simp⟩

/-- The plan with an edit added, unless that changes nothing. -/
def add (plan : EditPlan) (e : Edit) : EditPlan :=
  if h : e.isNoop then plan
  else ⟨plan.edits ++ [e], by
    intro x hx
    rcases List.mem_append.mp hx with hx | hx
    · exact plan.effective x hx
    · rw [List.mem_singleton.mp hx]
      simpa using h⟩

def replace (plan : EditPlan) (r : Range) (t : Text) : EditPlan := plan.add ⟨r, t⟩

def insert (plan : EditPlan) (p : Position) (t : Text) : EditPlan := plan.add ⟨Range.empty p, t⟩

def delete (plan : EditPlan) (r : Range) : EditPlan := plan.add ⟨r, []⟩

/-- The plan with the edits of another behind its own. -/
def append (plan other : EditPlan) : EditPlan :=
  ⟨plan.edits ++ other.edits, fun e he =>
    (List.mem_append.mp he).elim (plan.effective e) (other.effective e)⟩

def deleteAll (rs : List Range) : EditPlan := rs.foldl delete empty

def size (plan : EditPlan) : Nat := plan.edits.length

def isEmpty (plan : EditPlan) : Bool := plan.edits.isEmpty

end EditPlan

/-- Why a plan cannot be carried out. -/
inductive EditError where
  /-- An edit refers to a place that the document does not have. -/
  | outOfBounds (position : Position)
  /-- Two edits claim the same characters, or one inserts inside what the other replaces. -/
  | overlap (first second : Range)
deriving DecidableEq

namespace EditError

/-- A position as messages show it. -/
def showPosition (p : Position) : String :=
  "Position \x7b line: " ++ toString p.line ++ ", character: " ++ toString p.character ++ " \x7d"

/-- A range as messages show it. -/
def showRange (r : Range) : String :=
  "Range \x7b start: " ++ showPosition r.start ++ ", end: " ++ showPosition r.stop ++ " \x7d"

def message : EditError → String
  | outOfBounds p =>
    "position out of bounds: line " ++ toString p.line ++ ", character " ++ toString p.character
  | overlap first second =>
    "edits overlap: " ++ showRange first ++ " and " ++ showRange second

end EditError

/-- The replacement of the characters from offset `start` up to offset `stop` by a text. -/
structure Splice where
  start : Nat
  stop : Nat
  text : Text
deriving DecidableEq

namespace Splice

def insertedLength (s : Splice) : Nat := s.text.length

/-- By how much the splice changes the length of a text. -/
def delta (s : Splice) : Int := s.insertedLength - (s.stop - s.start : Int)

/-- The text after the splice alone. -/
def apply (s : Splice) (t : Text) : Text := t.take s.start ++ s.text ++ t.drop s.stop

/-- Whether `a` comes no later than `b`, by start and then by stop: an insertion comes before a
replacement that starts where it stands. -/
def precedes (a b : Splice) : Bool := a.start < b.start || (a.start == b.start && a.stop ≤ b.stop)

/-- The text after splices that all refer to it: the last goes first, which leaves the offsets of
the others as they are. -/
def applyAll (splices : List Splice) (t : Text) : Text := splices.foldr apply t

end Splice

/-- Which side of a text inserted right at an offset the offset keeps to. -/
inductive Bias where
  | left
  | right
deriving DecidableEq

/-- Whether an offset comes before a splice that starts at `start`. -/
def Bias.stopsAt (bias : Bias) (offset start : Nat) : Bool :=
  match bias with
  | .left => offset ≤ start
  | .right => offset < start

namespace Splice

/-- Where an offset lands when splices are applied, those before which change the length by
`shift`. -/
def landingFrom (bias : Bias) (offset : Nat) : Int → List Splice → Int
  | shift, [] => offset + shift
  | shift, s :: rest =>
    if bias.stopsAt offset s.start then offset + shift
    else if offset < s.stop then s.start + shift
    else landingFrom bias offset (shift + s.delta) rest

/-- Where an offset of a text lands when splices are applied to the text. An offset inside a
replaced stretch lands at the start of its replacement. -/
def landing (splices : List Splice) (offset : Nat) (bias : Bias) : Nat :=
  (landingFrom bias offset 0 splices).toNat

/-- Where any offset goes, those far beyond the text included, as a count. Inside a text that can be
counted this is where the offset lands. -/
def mapOffset (splices : List Splice) (offset : Nat) (bias : Bias) : Nat :=
  clampCount (landingFrom bias offset 0 splices)

theorem mapOffset_eq_landing {splices : List Splice} {offset : Nat} {bias : Bias}
    (h : landing splices offset bias ≤ maxCount) :
    mapOffset splices offset bias = landing splices offset bias := Nat.min_eq_left h

end Splice

namespace EditPlan

def spliceOf (d : Document) (e : Edit) : Splice :=
  ⟨d.offsetAt e.range.start, d.offsetAt e.range.stop, e.text⟩

/-- The first two neighbours of which the second starts before the first stops. -/
def firstOverlap? : List (Range × Splice) → Option (Range × Range)
  | a :: b :: rest =>
    if b.2.start < a.2.stop then some (a.1, b.1) else firstOverlap? (b :: rest)
  | _ => none

/-- The first position of the plan that the document does not have. -/
def firstInvalid? (plan : EditPlan) (d : Document) : Option Position :=
  (plan.edits.flatMap fun e => [e.range.start, e.range.stop]).find? (!d.isValid ·)

/-- The edits of the plan with their splices, in the order of the document. Insertions at one place
keep the order in which they were planned. -/
def placed (plan : EditPlan) (d : Document) : List (Range × Splice) :=
  (plan.edits.map fun e => (e.range, spliceOf d e)).mergeSort fun a b => a.2.precedes b.2

/-- The plan as splices of the document's text, in order and apart. -/
def resolve (plan : EditPlan) (d : Document) : Except EditError (List Splice) :=
  match plan.firstInvalid? d with
  | some p => .error (.outOfBounds p)
  | none =>
    match firstOverlap? (plan.placed d) with
    | some (first, second) => .error (.overlap first second)
    | none => .ok ((plan.placed d).map (·.2))

end EditPlan

/-- The document with one splice made. -/
def Document.splice (d : Document) (s : Splice) : Document := { d with text := s.apply d.text }

/-- Makes the edits of a plan in a document. The last splice goes first, which leaves the offsets of
the others as they are. -/
def EditPlan.carryOut (plan : EditPlan) : Action Document EditError (List Splice) := do
  let splices ← plan.resolve (← get)
  for splice in splices.reverse do
    modify (·.splice splice)
  return splices

namespace Document

/-- The splices of a plan with the document that they lead to, or else why the plan is refused. -/
def apply (d : Document) (plan : EditPlan) : Except EditError (List Splice × Document) :=
  plan.carryOut.result d

/-- The document as it stands once a plan has been tried. -/
def after (d : Document) (plan : EditPlan) : Document := (plan.carryOut.attempt d).2

theorem foldl_splice (splices : List Splice) (d : Document) :
    splices.reverse.foldl splice d = ⟨Splice.applyAll splices d.text, d.ending⟩ := by
  rw [List.foldl_reverse]
  induction splices with
  | nil => rfl
  | cons s rest ih =>
    rw [List.foldr_cons, ih]
    rfl

end Document

/-- A plan is resolved before anything is changed. -/
theorem EditPlan.attempt_carryOut (plan : EditPlan) (d : Document) :
    plan.carryOut.attempt d =
      match plan.resolve d with
      | .ok splices => (.ok splices, ⟨Splice.applyAll splices d.text, d.ending⟩)
      | .error e => (.error e, d) := by
  rw [carryOut, Action.attempt_bind, Action.attempt_get]
  simp only [Action.attempt_bind, Action.attempt_lift]
  cases plan.resolve d with
  | error e => rfl
  | ok splices =>
    simp only [Action.attempt_forIn, Action.attempt_pure, Document.foldl_splice]

theorem Document.apply_eq (d : Document) (plan : EditPlan) :
    d.apply plan = (plan.resolve d).map fun splices =>
      (splices, ⟨Splice.applyAll splices d.text, d.ending⟩) := by
  rw [apply, Action.result, plan.attempt_carryOut]
  cases plan.resolve d <;> rfl

end MarkupPairs
