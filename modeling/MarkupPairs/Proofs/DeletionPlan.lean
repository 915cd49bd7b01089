import MarkupPairs.LineDeletion
import MarkupPairs.Proofs.Resolution

/-!
# Carrying out deletions

Deleting the ranges of a set keeps exactly the characters that the set does not cover. The last
range goes first, so each range is still where it was when its turn comes.
-/

namespace MarkupPairs

/-- A range of a text that is laid out from `p` on, by the text before the range and the text in
it. -/
structure Range.CutsOut (r : Range) (p : Position) (t pre mid : Text) : Prop where
  prefix_eq : pre ++ mid <+: t
  start_eq : r.start = p.afterText pre
  stop_eq : r.stop = p.afterText (pre ++ mid)

/-- The text of the cells that none of the ranges covers. -/
def Cell.keptText (rs : List Range) (cells : List Cell) : Text :=
  text (cells.filter fun cell => !rs.any (·.covers cell.position))

namespace Cell

theorem keptText_append (rs : List Range) (s t : List Cell) :
    keptText rs (s ++ t) = keptText rs s ++ keptText rs t := by
  rw [keptText, List.filter_append, text_append]
  rfl

theorem keptText_cons (rs : List Range) (cell : Cell) (cells : List Cell) :
    keptText rs (cell :: cells) =
      if rs.any (·.covers cell.position) then keptText rs cells
      else cell.char :: keptText rs cells := by
  rw [keptText, keptText, List.filter_cons]
  by_cases hcovers : rs.any (·.covers cell.position)
  · simp [hcovers]
  · simp [hcovers, text]

theorem keptText_sublist (rs : List Range) (cells : List Cell) :
    (keptText rs cells).Sublist (text cells) := List.filter_sublist.map char

/-- Ranges that start behind all cells take nothing away. -/
theorem keptText_of_lt {rs : List Range} {cells : List Cell}
    (h : ∀ r ∈ rs, ∀ cell ∈ cells, cell.position < r.start) : keptText rs cells = text cells := by
  rw [keptText, List.filter_eq_self.mpr]
  intro cell hcell
  simp only [Bool.not_eq_true', List.any_eq_false, Bool.not_eq_true]
  intro r hr
  exact Range.covers_of_lt_start (h r hr cell hcell)

/-- Empty ranges take nothing away. -/
theorem keptText_filter_isEmpty (rs : List Range) (cells : List Cell) :
    keptText (rs.filter (!·.isEmpty)) cells = keptText rs cells := by
  have hany (cell : Cell) : (rs.filter (!·.isEmpty)).any (·.covers cell.position) =
      rs.any (·.covers cell.position) := by
    rw [List.any_filter]
    congr 1
    funext r
    by_cases hempty : r.isEmpty
    · simp [Range.covers_of_isEmpty hempty]
    · simp [hempty]
  simp only [keptText, hany]

end Cell

namespace Splice

/-- Splices that delete ranges apart from one another, in order, keep what the ranges do not
cover. -/
theorem applyAll_eq_keptText {p : Position} {t : Text} {rs : List Range} {splice : Range → Splice}
    (hcut : ∀ r ∈ rs, ∃ pre mid, r.CutsOut p t pre mid ∧
      splice r = ⟨pre.length, (pre ++ mid).length, []⟩)
    (hapart : rs.Pairwise fun a b => a.stop < b.start) :
    applyAll (rs.map splice) t = Cell.keptText rs (Cell.layOut p t) := by
  induction rs with
  | nil =>
      rw [Cell.keptText_of_lt (by simp), Cell.text_layOut]
      rfl
  | cons r rs ih =>
      obtain ⟨hr, hrest⟩ := List.pairwise_cons.mp hapart
      obtain ⟨⟨pre, mid, hcutr, hsplice⟩, hcutrest⟩ := List.forall_mem_cons.mp hcut
      obtain ⟨post, rfl⟩ := hcutr.prefix_eq
      have hstart := hcutr.start_eq
      have hstop := hcutr.stop_eq
      -- the later ranges start behind `pre ++ mid`, so only the rest of the text has changed
      have hlater : applyAll (rs.map splice) (pre ++ mid ++ post) =
          pre ++ mid ++ Cell.keptText rs (Cell.layOut (p.afterText (pre ++ mid)) post) := by
        rw [ih hcutrest hrest, Cell.layOut_append, Cell.keptText_append,
          Cell.keptText_of_lt, Cell.text_layOut]
        intro e he cell hcell
        exact Position.lt_of_lt_of_le (Cell.position_lt_of_mem_layOut hcell)
          (Position.le_of_lt (hstop ▸ hr e he))
      have hpre : Cell.keptText (r :: rs) (Cell.layOut p pre) = pre := by
        rw [Cell.keptText_of_lt, Cell.text_layOut]
        intro e he cell hcell
        have hcell := hstart ▸ Cell.position_lt_of_mem_layOut hcell
        rcases List.mem_cons.mp he with rfl | he
        · exact hcell
        · exact Position.lt_of_lt_of_le hcell
            (Position.le_trans r.start_le_stop (Position.le_of_lt (hr e he)))
      have hmid : Cell.keptText (r :: rs) (Cell.layOut (p.afterText pre) mid) = [] := by
        rw [Cell.keptText, List.filter_eq_nil_iff.mpr]
        · rfl
        · intro cell hcell
          have hcovers : r.covers cell.position := by
            rw [Range.covers_iff, hstart, hstop, Position.afterText_append]
            exact ⟨Cell.le_position_of_mem_layOut hcell, Cell.position_lt_of_mem_layOut hcell⟩
          simp [hcovers]
      have hpost : Cell.keptText (r :: rs) (Cell.layOut (p.afterText (pre ++ mid)) post) =
          Cell.keptText rs (Cell.layOut (p.afterText (pre ++ mid)) post) := by
        rw [Cell.keptText, Cell.keptText]
        apply congrArg Cell.text
        apply List.filter_congr
        intro cell hcell
        have hcovers : r.covers cell.position = false :=
          Range.covers_of_stop_le (hstop ▸ Cell.le_position_of_mem_layOut hcell)
        rw [List.any_cons, hcovers, Bool.false_or]
      rw [Cell.layOut_append, Cell.keptText_append, hpost, Cell.layOut_append,
        Cell.keptText_append, hpre, hmid, List.append_nil]
      change (splice r).apply (applyAll (rs.map splice) (pre ++ mid ++ post)) = _
      rw [hlater, hsplice, Splice.apply, List.drop_left]
      simp

end Splice

namespace EditPlan

/-- A plan of deletions has one edit for each range that is not empty. -/
theorem edits_deleteAll (rs : List Range) :
    (deleteAll rs).edits = (rs.filter (!·.isEmpty)).map fun r => ⟨r, []⟩ := by
  have hfold (plan : EditPlan) :
      (rs.foldl delete plan).edits =
        plan.edits ++ (rs.filter (!·.isEmpty)).map fun r => ⟨r, []⟩ := by
    induction rs generalizing plan with
    | nil => simp
    | cons r rs ih =>
        rw [List.foldl_cons, ih, delete, add]
        by_cases hempty : r.isEmpty
        · simp [Edit.isNoop, hempty]
        · simp [Edit.isNoop, hempty]
  exact hfold empty

end EditPlan

namespace Document

/-- A range between valid positions cuts a part out of the text, at the offsets of its ends. -/
theorem exists_cutsOut {d : Document} {r : Range} (hstart : d.isValid r.start)
    (hstop : d.isValid r.stop) :
    ∃ pre mid, r.CutsOut Position.origin d.text pre mid ∧
      (⟨d.offsetAt r.start, d.offsetAt r.stop, []⟩ : Splice) =
        ⟨pre.length, (pre ++ mid).length, []⟩ := by
  obtain ⟨pre, post, hpre⟩ := exists_dividedAt hstart
  obtain ⟨upto, rest, hupto⟩ := exists_dividedAt hstop
  obtain ⟨mid, rfl, -⟩ := hpre.exists_between hupto r.start_le_stop
  refine ⟨pre, mid, ⟨⟨rest, hupto.text_eq.symm⟩, hpre.position_eq, hupto.position_eq⟩, ?_⟩
  rw [hpre.offsetAt, hupto.offsetAt]

/-- The cells of a part of the text are the ones that the range of the part covers. -/
theorem mem_layOut_of_covers {d : Document} {p : Position} {pre t post : Text} {cell : Cell}
    (hdiv : d.DividedAt p pre (t ++ post))
    (hcell : cell ∈ d.cells) (hcovers : (Range.spanning p t).covers cell.position) :
    cell ∈ Cell.layOut p t := by
  obtain ⟨hstart, hstop⟩ := Range.covers_iff.mp hcovers
  rw [cells, hdiv.text_eq, Cell.layOut_append, Cell.layOut_append, List.mem_append,
    List.mem_append, ← hdiv.position_eq] at hcell
  rcases hcell with hcell | hcell | hcell
  · have hlt := Cell.position_lt_of_mem_layOut hcell
    rw [← hdiv.position_eq] at hlt
    exact absurd hstart (Position.not_le.mpr hlt)
  · exact hcell
  · exact absurd (Cell.le_position_of_mem_layOut hcell) (Position.not_le.mpr hstop)

/-- Deleting the ranges of a set is never refused, and keeps what the set does not cover. -/
theorem apply_deleteAll (d : Document) (s : RangeSet)
    (h : RangeSet.AllEnds (d.isValid ·) s.ranges) :
    ∃ splices, d.apply (EditPlan.deleteAll s.ranges) =
      .ok (splices, ⟨Cell.keptText s.ranges d.cells, d.ending⟩) := by
  let splice (r : Range) : Splice := ⟨d.offsetAt r.start, d.offsetAt r.stop, []⟩
  -- a plan holds no edit that changes nothing, so the empty ranges are left out
  let rs := s.ranges.filter (!·.isEmpty)
  have hends : RangeSet.AllEnds (d.isValid ·) rs := fun r hr => h r (List.mem_filter.mp hr).1
  have hapart : rs.Pairwise fun a b => a.stop < b.start := s.apart.filter _
  have hsplices :
      (EditPlan.deleteAll s.ranges).edits.map (EditPlan.spliceOf d) = rs.map splice := by
    rw [EditPlan.edits_deleteAll, List.map_map]
    rfl
  have hwithin : (EditPlan.deleteAll s.ranges).IsWithin d := by
    rw [EditPlan.IsWithin, EditPlan.edits_deleteAll]
    exact List.forall_mem_map.mpr hends
  have hdisjoint : (rs.map splice).Pairwise fun a b => a.stop ≤ b.start := by
    apply List.pairwise_map.mpr
    apply hapart.imp_of_mem
    intro a b ha hb hab
    exact Nat.le_of_lt ((offsetAt_lt_offsetAt (hends a ha).2 (hends b hb).1).mpr hab)
  have hresolve : (EditPlan.deleteAll s.ranges).resolve d = .ok (rs.map splice) := by
    rw [← hsplices] at hdisjoint ⊢
    exact EditPlan.resolve_of_pairwise hwithin hdisjoint
  have hkept : Splice.applyAll (rs.map splice) d.text = Cell.keptText s.ranges d.cells := by
    rw [Splice.applyAll_eq_keptText (fun r hr => exists_cutsOut (hends r hr).1 (hends r hr).2)
      hapart]
    exact Cell.keptText_filter_isEmpty s.ranges d.cells
  refine ⟨rs.map splice, ?_⟩
  rw [Document.apply_eq, hresolve, ← hkept]
  rfl

end Document

end MarkupPairs
