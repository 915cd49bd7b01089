import MarkupPairs.Bracket
import MarkupPairs.Session.Basic
import MarkupPairs.Tag.Enclosing
import MarkupPairs.Tag.Partner

/-!
# Jumping to the other half of a pair

At the caret a bracket comes before a tag. When there is neither, or when complete lines are
selected, the jump starts from the end of the line, where a tag comes before a bracket.
-/

namespace MarkupPairs.Session

def bracketJump (s : Session) (p : Position) : Option Position := do
  let c ← s.document.charAt p
  let b ← BracketAt.classify c p
  s.document.bracketPartner? b

/-- One character into the partner of the tag under a position. -/
def tagJump (s : Session) (p : Position) : Option Position := do
  let tag ← s.document.enclosingTag? s.settings.limits p
  let partner ← s.document.partner? s.settings.limits tag
  return partner.range.start.right 1

/-- The last character of a line, or the one before when that is a semicolon. -/
def lastOfLine? (d : Document) (n : Nat) : Option Position :=
  match d.lineLength n with
  | 0 => none
  | 1 => some ⟨n, 0⟩
  | last + 2 => some (if d.charAt ⟨n, last + 1⟩ = some ';' then ⟨n, last⟩ else ⟨n, last + 1⟩)

/-- Where the active end of a selection jumps to. -/
def jumpTarget? (s : Session) (selection : Selection) : Option Position :=
  let cursor := selection.active
  let atCursor :=
    if (s.document.shape selection.range).isBlock then none
    else s.bracketJump cursor <|> s.tagJump cursor
  atCursor <|> (lastOfLine? s.document cursor.line).bind fun p => s.tagJump p <|> s.bracketJump p

def jumpToPartner : Action Session CommandError Outcome := do
  let s ← get
  if s.selections.any fun selection => (s.jumpTarget? selection).isSome then
    modify (·.select (s.selections.map fun selection =>
      ((s.jumpTarget? selection).map selection.moveTo).getD selection))
    return .moved
  else return .notFound .matchingPair

theorem result_jumpToPartner (s : Session) :
    jumpToPartner.result s =
      .ok (if s.selections.any fun selection => (s.jumpTarget? selection).isSome then
        (.moved, s.select (s.selections.map fun selection =>
          ((s.jumpTarget? selection).map selection.moveTo).getD selection))
      else (.notFound .matchingPair, s)) := by
  rw [jumpToPartner, Action.result_get_bind]
  split <;> rfl

end MarkupPairs.Session
