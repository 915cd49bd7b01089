import MarkupPairs.Dialect
import MarkupPairs.Edit
import MarkupPairs.Selection
import MarkupPairs.Settings

/-!
# Sessions

A session is a document being edited: its text, what is selected in it, its dialect and the settings
of the commands. A command reads the document once, changes it by one plan, and then puts the carets
where they belong in the new text.
-/

namespace MarkupPairs

/-- A document being edited. The first selection is the primary one. -/
structure Session where
  document : Document
  selections : List Selection
  settings : Settings
  dialect : Dialect

inductive Missing where
  | surroundingTag
  | matchingPair
deriving DecidableEq

def Missing.message : Missing → String
  | surroundingTag => "No surrounding tag found."
  | matchingPair => "No matching pair found for the current tag."

inductive Outcome where
  | moved
  /-- The text changed by so many edits; the host may be asked to rename the new tag. -/
  | applied (edits : Nat) (renameRequested : Bool)
  | notFound (missing : Missing)
deriving DecidableEq

/-- Why a command was refused. -/
inductive CommandError where
  | edit (error : EditError)
  | unsupportedDialect
  /-- Nothing is selected, not even by a caret. -/
  | noSelection
deriving DecidableEq

def CommandError.message : CommandError → String
  | edit error => error.message
  | unsupportedDialect => "class attributes are not supported for this file type"
  | noSelection => "the editor has no selection"

/-- Where a selection goes when a plan is carried out, in offsets of the text before it. -/
inductive CaretTarget where
  /-- It stays on the same characters. -/
  | keep (anchor active : Nat)
  /-- It becomes a caret `advance` characters into what is inserted at `offset`. -/
  | place (offset advance : Nat)
deriving DecidableEq

/-- The selection that a target becomes in the document that splices have led to. -/
def CaretTarget.resolve (splices : List Splice) (d : Document) : CaretTarget → Selection
  | keep anchor active =>
    ⟨d.positionAt (Splice.landing splices anchor .left),
      d.positionAt (Splice.landing splices active .left)⟩
  | place offset advance =>
    .caret (d.positionAt (Splice.landing splices offset .left + advance))

namespace Session

/-- The session of a text as it is loaded, with a caret at its start. -/
def start (t : Text) (dialect : Dialect) (settings : Settings) : Session :=
  { document := .ofText t, selections := [.caret .origin], settings, dialect }

/-- The session under other settings. -/
def configure (s : Session) (settings : Settings) : Session := { s with settings }

/-- The session with other selections, the first of which becomes the primary one. -/
def select (s : Session) (selections : List Selection) : Session := { s with selections }

/-- The target of a selection that stays on the same characters. -/
def keep (s : Session) (selection : Selection) : CaretTarget :=
  .keep (s.document.offsetAt selection.anchor) (s.document.offsetAt selection.active)

/-- Makes the edits of a plan in the document of a session. -/
def edit (plan : EditPlan) : Action Session CommandError (List Splice) :=
  .onPart document (fun s document => { s with document }) .edit plan.carryOut

/-- Carries out a plan and puts the selections where their targets are in the new text. Comes to the
number of edits. -/
def commit (plan : EditPlan) (targets : List CaretTarget) : Action Session CommandError Nat := do
  let splices ← edit plan
  modify fun s =>
    s.select (Selection.normalize (targets.map (CaretTarget.resolve splices s.document)))
  return splices.length

theorem attempt_commit (plan : EditPlan) (targets : List CaretTarget) (s : Session) :
    (commit plan targets).attempt s =
      match s.document.apply plan with
      | .ok (splices, document) =>
        (.ok splices.length, { s with
          document
          selections := Selection.normalize (targets.map (CaretTarget.resolve splices document)) })
      | .error e => (.error (.edit e), s) := by
  rw [commit, Action.attempt_bind, edit, Action.attempt_onPart, plan.attempt_carryOut,
    s.document.apply_eq]
  cases plan.resolve s.document <;> rfl

theorem result_commit (plan : EditPlan) (targets : List CaretTarget) (s : Session) :
    (commit plan targets).result s =
      match s.document.apply plan with
      | .ok (splices, document) =>
        .ok (splices.length, { s with
          document
          selections := Selection.normalize (targets.map (CaretTarget.resolve splices document)) })
      | .error e => .error (.edit e) := by
  rw [Action.result, attempt_commit]
  cases s.document.apply plan <;> rfl

end Session

end MarkupPairs
