import MarkupPairs.Proofs.ClassListPlace
import MarkupPairs.Proofs.CommandEffect
import MarkupPairs.Proofs.ForestPruning
import MarkupPairs.Proofs.ForestUnwrapping
import MarkupPairs.Proofs.Landing
import MarkupPairs.Proofs.SelectionOrder
import MarkupPairs.Session.FocusClass

/-!
# The tag whose classes are edited

In a forest a caret goes to the classes of the tag around it, or of the opening tag if that one
closes an element. It does not move if it is at the end of the class list already, and once all
carets are there, nothing is left to do.
-/

namespace MarkupPairs

/-! ## The tag -/

/-- Whether a tag of a forest is the one that a caret goes to for its classes: the tag around the
caret, or the opening tag of the element that that one closes. -/
inductive Forest.IsClassTag (f : Forest) (p : Position) : Tag → Prop
  | around {t : Tag} (around : f.IsAround p t) (kind : t.kind ≠ .closing) : f.IsClassTag p t
  | partner {t c : Tag} (around : f.IsAround p c) (kind : c.kind = .closing)
    (pair : (t, c) ∈ f.pairs .origin) : f.IsClassTag p t

namespace Forest

variable {f : Forest} {p : Position} {t : Tag} {x : Tag × Tag}

theorem kind_of_mem_pairs (h : x ∈ f.pairs p) : x.1.kind = .opening ∧ x.2.kind = .closing := by
  obtain ⟨pre, post, s, content, -, rfl, -⟩ := exists_of_mem_pairs h
  exact ⟨rfl, rfl⟩

theorem IsAround.mem (h : f.IsAround p t) : t ∈ f.tags .origin := by
  rcases h with ⟨ht, -⟩ | ⟨-, c, hpair, -⟩
  · exact ht
  · exact (mem_tags_of_mem_pairs hpair).1

theorem IsClassTag.mem (h : f.IsClassTag p t) : t ∈ f.tags .origin ∧ t.kind ≠ .closing := by
  cases h with
  | around around kind => exact ⟨around.mem, kind⟩
  | partner around kind pair =>
      refine ⟨(mem_tags_of_mem_pairs pair).1, ?_⟩
      rw [(kind_of_mem_pairs pair).1]
      decide

/-- What a closing tag closes. -/
theorem exists_opening_of_mem_tags (h : t ∈ f.tags p) (hkind : t.kind = .closing) :
    ∃ o, (o, t) ∈ f.pairs p := by
  obtain ⟨x, hx, rfl | rfl⟩ := exists_mem_pairs h (by rw [hkind]; decide)
  · rw [(kind_of_mem_pairs hx).1] at hkind
    cases hkind
  · exact ⟨x.1, hx⟩

theorem exists_isClassTag_of_isAround (h : f.IsAround p t) : ∃ u, f.IsClassTag p u := by
  by_cases hkind : t.kind = .closing
  · obtain ⟨o, hpair⟩ := exists_opening_of_mem_tags h.mem hkind
    exact ⟨o, .partner h hkind hpair⟩
  · exact ⟨t, .around h hkind⟩

variable {d : Document}

/-- A caret on a tag or inside an element has a tag to go to. -/
theorem IsInside.exists_isClassTag (h : f.IsInside p) (htext : d.text = f.toText)
    (hf : f.IsUncommented) (hvalid : d.isValid p) : ∃ t, f.IsClassTag p t := by
  by_cases hon : ∃ t ∈ f.tags .origin, t.range.covers p
  · obtain ⟨t, ht, hcovers⟩ := hon
    exact exists_isClassTag_of_isAround (.inl ⟨ht, hcovers⟩)
  · have hoff : ∀ t ∈ f.tags .origin, ¬t.range.covers p :=
      fun t ht hcovers => hon ⟨t, ht, hcovers⟩
    obtain ⟨x, hx, hholds⟩ := h.resolve_left hon
    obtain ⟨owner, pre, post, hgap, hdiv⟩ := exists_gap htext hf hvalid hoff
    obtain rfl := hdiv.position_eq
    obtain ⟨t, howner, -⟩ := hgap.start_le hx hholds
    obtain ⟨c, hpair, hholds, hlast⟩ := hgap.exists_isInnermost howner
    exact exists_isClassTag_of_isAround (.inr ⟨hoff, c, hpair, hholds, hlast⟩)

/-- Any other caret is in a gap that is in no element. -/
theorem exists_gap_of_not_isInside (h : ¬f.IsInside p) (htext : d.text = f.toText)
    (hf : f.IsUncommented) (hvalid : d.isValid p) :
    ∃ pre post, f.Gap .origin none pre post ∧ d.DividedAt p pre post := by
  have hoff : ∀ t ∈ f.tags .origin, ¬t.range.covers p :=
    fun t ht hcovers => h (.inl ⟨t, ht, hcovers⟩)
  obtain ⟨owner, pre, post, hgap, hdiv⟩ := exists_gap htext hf hvalid hoff
  cases howner : owner with
  | none => exact ⟨pre, post, howner ▸ hgap, hdiv⟩
  | some t =>
      obtain ⟨c, hpair, hholds⟩ := hgap.exists_pair howner
      exact absurd (.inr ⟨_, hpair, hdiv.position_eq ▸ hholds⟩) h

end Forest

/-- A session with carets only, at places of a forest of elements, in which no window is smaller
than the document. -/
structure Session.CaretsInForest (s : Session) (f : Forest) : Prop where
  text_eq : s.document.text = f.toText
  isUncommented : f.IsUncommented
  isUndashed : f.IsUndashed
  isNamed : f.IsNamed
  isEmpty : ∀ selection ∈ s.selections, selection.isEmpty
  isValid : ∀ selection ∈ s.selections, s.document.isValid selection.active
  lineCount_lt_enclosing : s.document.lineCount < s.settings.limits.enclosing
  lineCount_lt_paired : s.document.lineCount < s.settings.limits.paired
  lineCount_lt_surrounding : s.document.lineCount < s.settings.limits.surrounding

namespace Session

variable {s : Session} {f : Forest} {p : Position} {t : Tag}

/-- The tag that is found for a caret is the one of the forest that it goes to. -/
theorem CaretsInForest.classTag?_eq_some_iff (h : s.CaretsInForest f)
    (hvalid : s.document.isValid p) : s.classTag? p = some t ↔ f.IsClassTag p t := by
  have haround (u : Tag) : s.document.surroundingTag? s.settings.limits p = some u ↔
      f.IsAround p u :=
    Forest.surrounding_eq_some_iff h.text_eq h.isUndashed hvalid
      (by simp [Forest.comments_eq_nil h.isUncommented])
      h.lineCount_lt_enclosing h.lineCount_lt_surrounding u
  have hpartner {x : Tag × Tag} (hx : x ∈ f.pairs .origin) :
      s.document.partner? s.settings.limits x.2 = some x.1 :=
    (Forest.partner?_of_mem_pairs h.text_eq h.isUncommented h.lineCount_lt_paired hx).2
  rw [classTag?, Option.bind_eq_bind, Option.bind_eq_some_iff]
  constructor
  · rintro ⟨u, hu, hfound⟩
    rw [haround] at hu
    split at hfound
    next hkind =>
      obtain ⟨o, hpair⟩ := Forest.exists_opening_of_mem_tags hu.mem hkind
      obtain rfl := Option.some.inj ((hpartner hpair).symm.trans hfound)
      exact .partner hu hkind hpair
    next hkind =>
      obtain rfl := Option.some.inj hfound
      exact .around hu hkind
  · intro ht
    cases ht with
    | around around kind => exact ⟨t, (haround t).mpr around, if_neg kind⟩
    | @partner c around kind pair =>
        exact ⟨c, (haround c).mpr around, (if_pos kind).trans (hpartner pair)⟩

/-- A caret in no element has no place to go to. -/
theorem classPlace?_of_gap {selection : Selection} {pre post : Text}
    (hgap : f.Gap .origin none pre post) (htext : s.document.text = f.toText) (hf : f.IsUndashed)
    (hdiv : s.document.DividedAt selection.active pre post)
    (henclosing : s.document.lineCount < s.settings.limits.enclosing)
    (hsurrounding : s.document.lineCount < s.settings.limits.surrounding) :
    s.classPlace? selection = none := by
  have hnone := hgap.surroundingTag?_eq htext hf hdiv henclosing hsurrounding
  rw [classPlace?, classTag?, hnone]
  rfl

/-! ## Carets that are at their place -/

/-- Whether every caret is where the classes of its tag are edited, or has no tag to go to. -/
def IsAtClasses (s : Session) : Prop :=
  ∀ selection ∈ s.selections, selection.isEmpty ∧ s.document.isValid selection.active ∧
    (s.classPlace? selection = none ∨
      s.classPlace? selection = some ⟨selection.active, .endOfClassList⟩)

theorem attributePlan_eq_empty {d : Document} {spelling : Text} {places : List ClassPlace}
    (h : ∀ place ∈ places, place.kind = .endOfClassList) :
    attributePlan d spelling places = .empty := by
  have hnone : places.filter (·.kind = .endOfName) = [] := by
    rw [List.filter_eq_nil_iff]
    intro place hplace
    simp [h place hplace]
  simp only [attributePlan, hnone]
  rfl

/-- The target of a caret that goes to the class list of its tag. -/
def classTarget (s : Session) (spelling : Text) (selection : Selection) : CaretTarget :=
  ((s.classPlace? selection).map (placeTarget s.document spelling)).getD (s.keep selection)

/-- The plan that gives an empty class attribute to the tags that the carets go to. -/
def classPlan (s : Session) (spelling : Text) : EditPlan :=
  attributePlan s.document spelling ((s.selections.map s.classPlace?).filterMap id)

/-- Where a caret has a place to go to, what comes of going there is what comes of the plan. -/
theorem focusClass_of_commit {spelling : Text} {count : Nat} {after : Session}
    (hdialect : s.dialect.emptyClassAttribute = some spelling)
    (hsome : ∃ selection ∈ s.selections, s.classPlace? selection ≠ none)
    (hcommit : (commit (s.classPlan spelling)
      (s.selections.map (s.classTarget spelling))).result s = .ok (count, after)) :
    focusClass.result s = .ok (if count = 0 then .moved else .applied count false, after) := by
  have hfound : ¬(s.selections.map s.classPlace?).all Option.isNone := by
    obtain ⟨selection, hselection, hplace⟩ := hsome
    rw [List.all_eq_true]
    intro hall
    exact hplace (Option.isNone_iff_eq_none.mp (hall _ (List.mem_map_of_mem hselection)))
  rw [result_focusClass, hdialect]
  change (if (s.selections.map s.classPlace?).all Option.isNone then _ else
    ((commit (s.classPlan spelling) (s.selections.map (s.classTarget spelling))).result s).map
      _) = _
  rw [if_neg hfound, hcommit]
  rfl

/-- A caret that is at its place stays there. -/
theorem resolve_of_isAtClasses {spelling : Text} {selection : Selection} (hplaces : s.IsAtClasses)
    (h : selection ∈ s.selections) :
    (s.classTarget spelling selection).resolve [] s.document = selection := by
  obtain ⟨hempty, hvalid, hplace⟩ := hplaces selection h
  obtain ⟨pre, post, hdiv⟩ := Document.exists_dividedAt hvalid
  have hstays : s.document.positionAt
      (Splice.landing [] (s.document.offsetAt selection.active) .left) = selection.active := by
    rw [hdiv.offsetAt, Splice.landing_nil, hdiv.positionAt]
  rw [Selection.eq_caret hempty] at hplace ⊢
  rw [classTarget]
  rcases hplace with hplace | hplace
  · rw [hplace, Option.map_none, Option.getD_none, keep, CaretTarget.resolve]
    simp only [Selection.caret, hstays]
  · rw [hplace, Option.map_some, Option.getD_some, placeTarget, CaretTarget.resolve]
    simp only [Selection.caret, Nat.add_zero, hstays]

/-- Where all carets are at their place, going there changes nothing. -/
theorem focusClass_of_isAtClasses {spelling : Text}
    (hdialect : s.dialect.emptyClassAttribute = some spelling) (hplaces : s.IsAtClasses)
    (hordered : Selection.IsOrdered s.selections)
    (hsome : ∃ selection ∈ s.selections, s.classPlace? selection ≠ none) :
    focusClass.result s = .ok (.moved, s) := by
  have hplan : s.classPlan spelling = .empty := by
    apply attributePlan_eq_empty
    intro place hplace
    rw [List.mem_filterMap] at hplace
    obtain ⟨found, hmem, rfl⟩ := hplace
    obtain ⟨selection, hselection, hfound⟩ := List.mem_map.mp hmem
    obtain ⟨-, -, hnone | hhere⟩ := hplaces selection hselection
    · cases hfound.symm.trans hnone
    · obtain rfl := Option.some.inj (hfound.symm.trans hhere)
      rfl
  have hresolve : EditPlan.empty.resolve s.document = .ok [] :=
    EditPlan.resolve_of_pairwise (fun e he => absurd he List.not_mem_nil) .nil
  have htargets : (s.selections.map (s.classTarget spelling)).map
      (CaretTarget.resolve [] s.document) = s.selections := by
    rw [List.map_map]
    exact (List.map_congr_left fun selection hselection =>
      resolve_of_isAtClasses hplaces hselection).trans (List.map_id _)
  have hcommit : (commit (s.classPlan spelling)
      (s.selections.map (s.classTarget spelling))).result s = .ok (0, s) := by
    rw [hplan, commit_eq_ok_iff]
    refine ⟨[], s.document, Document.apply_of_resolve hresolve, rfl, ?_⟩
    rw [htargets, Selection.normalize_of_isOrdered hordered]
  exact focusClass_of_commit hdialect hsome hcommit

end Session

end MarkupPairs
