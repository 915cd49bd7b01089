import MarkupPairs.Bracket
import MarkupPairs.LineDeletion
import MarkupPairs.Session.Basic
import MarkupPairs.Tag.Partner
import MarkupPairs.Tag.Surrounding
import MarkupPairs.Tag.Within

/-!
# Deleting pairs

Two commands delete by pairs: one unwraps the element around the caret, the other deletes what is
selected together with the partners of the tags and brackets in it. Partners outside of a selection
go line by line; those that the selection reaches become part of it.
-/

namespace MarkupPairs.Session

/-- Deletes the tags of the element around the primary caret, and keeps what they hold. -/
def deleteSurroundingPair : Action Session CommandError Outcome := do
  let s ← get
  let d := s.document
  let primary := s.selections.head?.map Selection.active
  match primary.bind (d.surroundingTag? s.settings.limits) with
  | none => return .notFound .surroundingTag
  | some tag =>
    let partner := d.partner? s.settings.limits tag
    if !tag.isSelfClosing && partner.isNone then return .notFound .matchingPair
    else
      let ranges := tag.range :: partner.toList.map Tag.range
      let plan := d.deletionPlan (d.lineDeletions ranges)
      let count ← commit plan (s.selections.map s.keep)
      return .applied count false

theorem result_deleteSurroundingPair (s : Session) :
    deleteSurroundingPair.result s =
      match (s.selections.head?.map Selection.active).bind
          (s.document.surroundingTag? s.settings.limits) with
      | none => .ok (.notFound .surroundingTag, s)
      | some tag =>
        if !tag.isSelfClosing && (s.document.partner? s.settings.limits tag).isNone then
          .ok (.notFound .matchingPair, s)
        else
          ((commit (s.document.deletionPlan (s.document.lineDeletions (tag.range ::
            (s.document.partner? s.settings.limits tag).toList.map Tag.range)))
              (s.selections.map s.keep)).result s).map
                fun (count, after) => (.applied count false, after) := by
  rw [deleteSurroundingPair, Action.result_get_bind]
  dsimp only
  cases (s.selections.head?.map Selection.active).bind
      (s.document.surroundingTag? s.settings.limits) with
  | none => rfl
  | some tag => rw [apply_ite (Action.result · s), Action.result_pure, Action.result_bind_pure]

/-- What a selection deletes by itself; a caret deletes the character under it on its line. -/
def selectedRange (d : Document) (selection : Selection) : Range :=
  let p := selection.active
  if selection.isEmpty then
    let stop := min (p.character + 1) (d.lineLength p.line)
    Range.between p (p.withCharacter (max stop p.character))
  else selection.range

/-- The partners of the tags and brackets in a range. -/
def partnersOf (s : Session) (r : Range) : RangeSet :=
  let d := s.document
  let tags := (d.tagsIn r).filterMap (d.partner? s.settings.limits)
  let brackets := (d.bracketsIn r).filterMap d.bracketPartner?
  .ofList (tags.map Tag.range ++ brackets.map fun p => Range.between p (p.right 1))

/-- Takes the partners that a range reaches into it, one after the other; the others stay apart. -/
def takeIn : Range → List Range → Range × List Range
  | r, [] => (r, [])
  | r, partner :: rest =>
    if r.contains partner then takeIn r rest
    else if r.intersects partner then takeIn (r.union partner) rest
    else
      let (r', rest) := takeIn r rest
      (r', partner :: rest)

/-- A range of complete lines with a line break: the one after it, or, on the last line, the one
before it. -/
def withLineBreak (d : Document) (r : Range) : Range :=
  if r.stop.line + 1 < d.lineCount then r.withStop ⟨r.stop.line + 1, 0⟩
  else
    match r.start.line with
    | 0 => r
    | previous + 1 => Range.between (d.lineStop previous) r.stop

/-- What a selection deletes: a range around it, and the line deletions of the partners that are
apart from it. -/
def pairDeletion (s : Session) (selection : Selection) : Range × List LineDeletion :=
  let d := s.document
  let selected := selectedRange d selection
  let (covered, apart) := takeIn selected (s.partnersOf selected).ranges
  (if (d.shape covered).isBlock then withLineBreak d covered else covered, d.lineDeletions apart)

/-- Deletes the selections together with the partners of every tag and bracket in them. -/
def deleteSelectionWithPairs : Action Session CommandError Outcome := do
  let s ← get
  let d := s.document
  let deletions := s.selections.map s.pairDeletion
  let covered := deletions.map (·.1)
  let apart := (d.deletionPlan (deletions.flatMap (·.2))).edits.map Edit.range
  let plan := EditPlan.deleteAll (RangeSet.ofList (covered ++ apart)).ranges
  let caret := (covered.head?.map Range.start).getD .origin
  let count ← commit plan [.place (d.offsetAt caret) 0]
  return .applied count false

theorem result_deleteSelectionWithPairs (s : Session) :
    deleteSelectionWithPairs.result s =
      let deletions := s.selections.map s.pairDeletion
      let covered := deletions.map (·.1)
      let apart :=
        (s.document.deletionPlan (deletions.flatMap (·.2))).edits.map Edit.range
      ((commit (EditPlan.deleteAll (RangeSet.ofList (covered ++ apart)).ranges)
        [.place (s.document.offsetAt ((covered.head?.map Range.start).getD .origin)) 0]).result
          s).map fun (count, after) => (.applied count false, after) := by
  rw [deleteSelectionWithPairs, Action.result_get_bind]
  exact Action.result_bind_pure _ _ s

end MarkupPairs.Session
