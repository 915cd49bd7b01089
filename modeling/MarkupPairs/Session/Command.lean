import MarkupPairs.Session.Delete
import MarkupPairs.Session.FocusClass
import MarkupPairs.Session.Insert
import MarkupPairs.Session.Jump

/-!
# Commands

Commands work on a session one at a time or in a row, where they stop at the first one that is
refused.
-/

namespace MarkupPairs

inductive Command where
  | jumpToPartner
  /-- Wrap every selection in a tag, by a name asked for or by the ones set. -/
  | surroundWithTag (name : Option Text)
  | insertSelfClosingTag
  /-- Delete the tags of the element around the primary caret. -/
  | deleteSurroundingPair
  /-- Delete the selections together with the partners of all tags and brackets in them. -/
  | deleteSelectionWithPairs
  | focusClass
deriving DecidableEq

namespace Session

/-- What each command does when something is selected. -/
def action : Command → Action Session CommandError Outcome
  | .jumpToPartner => jumpToPartner
  | .surroundWithTag name => surroundWithTag name
  | .insertSelfClosingTag => insertSelfClosingTag
  | .deleteSurroundingPair => deleteSurroundingPair
  | .deleteSelectionWithPairs => deleteSelectionWithPairs
  | .focusClass => focusClass

/-- Carries out a command. -/
def perform (command : Command) : Action Session CommandError Outcome := do
  if (← get).selections = [] then throw .noSelection
  else action command

/-- Carries out commands one after the other. What the ones in front of a refused one did stays
done. -/
def performAll (commands : List Command) : Action Session CommandError (List Outcome) :=
  commands.mapM perform

/-- What comes of a command, and the session that it leaves. -/
def attempt (s : Session) (command : Command) : Except CommandError Outcome × Session :=
  (perform command).attempt s

/-- What comes of a command with the session that it leaves, or else why it is refused. -/
def execute (s : Session) (command : Command) : Except CommandError (Outcome × Session) :=
  (perform command).result s

/-- What comes of commands in a row, and the session that they leave. -/
def executeAll (s : Session) (commands : List Command) :
    Except CommandError (List Outcome) × Session :=
  (performAll commands).attempt s

theorem execute_of_nil {s : Session} (h : s.selections = []) (command : Command) :
    s.execute command = .error .noSelection := by
  rw [execute, perform, Action.result_get_bind, if_pos h]
  rfl

theorem execute_of_ne_nil {s : Session} (h : s.selections ≠ []) (command : Command) :
    s.execute command = (action command).result s := by
  rw [execute, perform, Action.result_get_bind, if_neg h]

theorem execute_eq_ok_iff {s after : Session} {command : Command} {outcome : Outcome} :
    s.execute command = .ok (outcome, after) ↔ s.attempt command = (.ok outcome, after) :=
  Action.result_eq_ok_iff

end Session

end MarkupPairs
