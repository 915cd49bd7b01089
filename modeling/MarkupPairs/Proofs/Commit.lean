import MarkupPairs.Proofs.DeletionPlan
import MarkupPairs.Proofs.Lines
import MarkupPairs.Session.Basic

/-!
# Plans of a session

A plan that stays within the document is carried out. What it leaves of the text is known without
its splices: deletions keep what they do not cover, and a single edit keeps what stands in front of
its range and behind it.
-/

namespace MarkupPairs

/-- A range of a document, by the text in front of it, the text in it and the text behind it. -/
structure Document.CutAt (d : Document) (r : Range) (pre mid post : Text) : Prop where
  divided : d.DividedAt r.start pre (mid ++ post)
  range_eq : r = Range.spanning r.start mid

namespace Document

variable {d : Document} {r : Range} {pre mid post : Text}

/-- A range between valid positions is cut out by the text in it. -/
theorem exists_cutAt (hstart : d.isValid r.start) (hstop : d.isValid r.stop) :
    ∃ pre post, d.CutAt r pre (d.slice r) post := by
  obtain ⟨pre, mid, ⟨⟨post, htext⟩, hpre, hmid⟩, -⟩ := exists_cutsOut hstart hstop
  rw [Position.afterText_append, ← hpre] at hmid
  have hdiv : d.DividedAt r.start pre (mid ++ post) :=
    ⟨by rw [← htext, List.append_assoc], hpre⟩
  have hrange : r = Range.spanning r.start mid := Range.ext_iff'.mpr ⟨rfl, hmid⟩
  have hslice : d.slice r = mid := by
    rw [hrange]
    exact hdiv.slice
  exact ⟨pre, post, hslice.symm ▸ ⟨hdiv, hrange⟩⟩

namespace CutAt

theorem stop_eq (h : d.CutAt r pre mid post) : r.stop = r.start.afterText mid :=
  congrArg Range.stop h.range_eq

/-- A range runs as many lines down as its text has line feeds. -/
theorem stop_line_eq (h : d.CutAt r pre mid post) :
    r.stop.line = r.start.line + mid.count '\n' := by
  rw [h.stop_eq, Position.line_afterText]

theorem dividedAt_stop (h : d.CutAt r pre mid post) : d.DividedAt r.stop (pre ++ mid) post :=
  h.stop_eq ▸ h.divided.append

theorem slice_eq (h : d.CutAt r pre mid post) : d.slice r = mid := by
  rw [h.range_eq]
  exact h.divided.slice

theorem text_eq (h : d.CutAt r pre mid post) : d.text = pre ++ (mid ++ post) := h.divided.text_eq

/-- An edit of the range replaces the text in it. -/
theorem apply_spliceOf (h : d.CutAt r pre mid post) (t : Text) :
    (EditPlan.spliceOf d ⟨r, t⟩).apply d.text = pre ++ (t ++ post) := by
  rw [EditPlan.spliceOf, Splice.apply, h.divided.offsetAt, h.dividedAt_stop.offsetAt, h.text_eq,
    List.take_left, ← List.append_assoc pre mid, List.drop_left, List.append_assoc]

end CutAt

/-- A plan with one edit between valid positions is carried out. -/
theorem apply_singleton {plan : EditPlan} {e : Edit} (hplan : plan.edits = [e])
    (hstart : d.isValid e.range.start) (hstop : d.isValid e.range.stop) :
    d.apply plan = .ok ([EditPlan.spliceOf d e],
      ⟨(EditPlan.spliceOf d e).apply d.text, d.ending⟩) := by
  have hwithin : plan.IsWithin d := by
    rw [EditPlan.IsWithin, hplan, List.forall_mem_singleton]
    exact ⟨hstart, hstop⟩
  have hresolve : plan.resolve d = .ok [EditPlan.spliceOf d e] := by
    rw [EditPlan.resolve_of_pairwise hwithin (by simp [hplan]), hplan]
    rfl
  rw [apply_eq, hresolve]
  rfl

end Document

namespace Session

variable {s : Session} {r : Range} {pre mid post : Text}

/-- To delete the ranges of a set is never refused, and keeps what the set does not cover. -/
theorem exists_commit_deleteAll (s : Session) {ranges : RangeSet}
    (h : RangeSet.AllEnds (s.document.isValid ·) ranges.ranges) (targets : List CaretTarget) :
    ∃ count after,
      (commit (EditPlan.deleteAll ranges.ranges) targets).result s = .ok (count, after) ∧
      after.document = ⟨Cell.keptText ranges.ranges s.document.cells, s.document.ending⟩ := by
  obtain ⟨splices, happly⟩ := s.document.apply_deleteAll ranges h
  rw [result_commit, happly]
  exact ⟨_, _, rfl, rfl⟩

/-- One edit replaces the text of its range, and a caret goes as far into the new text as is
asked for. -/
theorem commit_singleton {plan : EditPlan} {t : Text} (hcut : s.document.CutAt r pre mid post)
    (hplan : plan.edits = [⟨r, t⟩]) {advance : Nat} (hadvance : advance ≤ t.length) :
    (commit plan [.place (s.document.offsetAt r.start) advance]).result s =
      .ok (1, { s with
        document := ⟨pre ++ (t ++ post), s.document.ending⟩
        selections := [.caret (Position.origin.afterText (pre ++ t.take advance))] }) := by
  have happly := Document.apply_singleton hplan hcut.divided.isValid hcut.dividedAt_stop.isValid
  rw [hcut.apply_spliceOf] at happly
  have hlanding : Splice.landing [EditPlan.spliceOf s.document ⟨r, t⟩]
      (s.document.offsetAt r.start) .left = pre.length := by
    rw [hcut.divided.offsetAt]
    simp [Splice.landing, Splice.landingFrom, EditPlan.spliceOf, Bias.stopsAt,
      hcut.divided.offsetAt]
  have htake : (pre ++ (t ++ post)).take (pre.length + advance) = pre ++ t.take advance := by
    rw [List.take_length_add_append, List.take_append_of_le_length hadvance]
  rw [result_commit, happly]
  simp only [List.map_cons, List.map_nil, CaretTarget.resolve, hlanding, Document.positionAt, htake]
  rw [Selection.normalize, List.mergeSort_singleton]
  rfl

end Session

end MarkupPairs
