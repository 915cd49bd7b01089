import MarkupPairs.Session.Basic
import MarkupPairs.Tag.ClassList
import MarkupPairs.Tag.Partner
import MarkupPairs.Tag.Surrounding

/-!
# Going to the class list

Every caret goes to the class list of the tag around it. A tag without one gets an empty class
attribute, one only however many carets go there.
-/

namespace MarkupPairs.Session

/-- The tag whose classes a position is about: the tag around it, or that one's opening tag. -/
def classTag? (s : Session) (p : Position) : Option Tag := do
  let tag ← s.document.surroundingTag? s.settings.limits p
  if tag.kind = .closing then s.document.partner? s.settings.limits tag else some tag

/-- Where the caret of a selection goes. -/
def classPlace? (s : Session) (selection : Selection) : Option ClassPlace :=
  (s.classTag? selection.active).map s.document.classPlace

/-- The plan that gives an empty class attribute to every tag without one among some places. -/
def attributePlan (d : Document) (spelling : Text) (places : List ClassPlace) : EditPlan :=
  let names := (places.filter (·.kind = .endOfName)).map ClassPlace.position
  (names.eraseDupsBy fun p q => d.offsetAt p == d.offsetAt q).foldl (·.insert · spelling) .empty

/-- The target of a caret that goes to a place: inside the quotes of a new attribute, or at the end
of the class list. -/
def placeTarget (d : Document) (spelling : Text) (place : ClassPlace) : CaretTarget :=
  .place (d.offsetAt place.position)
    (match place.kind with
    | .endOfName => spelling.length - 1
    | .endOfClassList => 0)

/-- Puts the carets where the classes of the tags around them can be edited. -/
def focusClass : Action Session CommandError Outcome := do
  let s ← get
  match s.dialect.emptyClassAttribute with
  | none => throw .unsupportedDialect
  | some spelling =>
    let d := s.document
    let places := s.selections.map s.classPlace?
    if places.all Option.isNone then return .notFound .surroundingTag
    else
      let plan := attributePlan d spelling (places.filterMap id)
      let targets := s.selections.map fun selection =>
        ((s.classPlace? selection).map (placeTarget d spelling)).getD (s.keep selection)
      let count ← commit plan targets
      return if count = 0 then .moved else .applied count false

theorem result_focusClass (s : Session) :
    focusClass.result s =
      match s.dialect.emptyClassAttribute with
      | none => .error .unsupportedDialect
      | some spelling =>
        if (s.selections.map s.classPlace?).all Option.isNone then
          .ok (.notFound .surroundingTag, s)
        else
          ((commit (attributePlan s.document spelling
              ((s.selections.map s.classPlace?).filterMap id))
            (s.selections.map fun selection => ((s.classPlace? selection).map
              (placeTarget s.document spelling)).getD (s.keep selection))).result s).map
                fun (count, after) => (if count = 0 then .moved else .applied count false, after) := by
  rw [focusClass, Action.result_get_bind]
  dsimp only
  cases s.dialect.emptyClassAttribute with
  | none => rfl
  | some spelling => rw [apply_ite (Action.result · s), Action.result_pure, Action.result_bind_pure]

end MarkupPairs.Session
