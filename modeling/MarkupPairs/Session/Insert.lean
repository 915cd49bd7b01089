import MarkupPairs.Session.Basic
import MarkupPairs.Wrap

/-!
# Inserting tags

Wrapping puts a tag around every selection, on lines of its own where complete lines are selected,
and leaves a caret in front of the name of each new tag so that it can be renamed.
-/

namespace MarkupPairs.Session

/-- The range of a selection as wrapping takes it. -/
def wrapRange (s : Session) (selection : Selection) : Range :=
  s.document.trimLineStart selection.range

/-- The name of the tag around a range: the one asked for, or the one set for its shape. -/
def wrapName (s : Session) (asked : Option Text) (shape : Shape) : Text :=
  asked.getD (if shape = .withinLine then s.settings.inlineTag else s.settings.blockTag)

/-- What wrapping puts in place of a content of some shape, and how far into it the caret goes. -/
def wrapped (s : Session) (name : Text) (shape : Shape) (content : Text) : Text × Nat :=
  match shape with
  | .empty => (Wrap.inline name [], name.length + 2)
  | .withinLine | .acrossLines => (Wrap.inline name content, 1)
  | .wholeLine | .wholeLines =>
    (Wrap.block name s.settings.indent.text content, (Wrap.leadingIndent content).length + 1)

/-- The edit that wraps a selection, and where its caret goes. -/
def wrapEdit (s : Session) (asked : Option Text) (selection : Selection) : Edit × CaretTarget :=
  let range := s.wrapRange selection
  let shape := s.document.shape range
  let (text, advance) := s.wrapped (s.wrapName asked shape) shape (s.document.slice range)
  (⟨range, text⟩, .place (s.document.offsetAt range.start) advance)

/-- The edit that inserts an element by itself at a caret, and where the caret goes. -/
def selfClosingEdit (s : Session) (selection : Selection) : Edit × CaretTarget :=
  let name := s.settings.selfClosingTag
  (⟨Range.empty selection.active, Wrap.selfClosingTag name⟩,
    .place (s.document.offsetAt selection.active) (1 + name.length))

/-- Makes the edits of all selections at once. -/
def insertTags (edits : List (Edit × CaretTarget)) : Action Session CommandError Outcome := do
  let plan := edits.foldl (fun plan e => plan.add e.1) EditPlan.empty
  let count ← commit plan (edits.map (·.2))
  return .applied count (← get).settings.autoRename

theorem result_insertTags (edits : List (Edit × CaretTarget)) (s : Session) :
    (insertTags edits).result s =
      ((commit (edits.foldl (fun plan e => plan.add e.1) EditPlan.empty)
        (edits.map (·.2))).result s).map fun (count, after) =>
          (.applied count after.settings.autoRename, after) := by
  rw [insertTags, Action.result_bind]
  cases (commit _ _).result s <;> rfl

def surroundWithTag (asked : Option Text) : Action Session CommandError Outcome := do
  let s ← get
  insertTags (s.selections.map (s.wrapEdit asked))

def insertSelfClosingTag : Action Session CommandError Outcome := do
  let s ← get
  insertTags (s.selections.map s.selfClosingEdit)

theorem result_surroundWithTag (asked : Option Text) (s : Session) :
    (surroundWithTag asked).result s =
      (insertTags (s.selections.map (s.wrapEdit asked))).result s := by
  rw [surroundWithTag, Action.result_get_bind]

theorem result_insertSelfClosingTag (s : Session) :
    insertSelfClosingTag.result s =
      (insertTags (s.selections.map s.selfClosingEdit)).result s := by
  rw [insertSelfClosingTag, Action.result_get_bind]

end MarkupPairs.Session
