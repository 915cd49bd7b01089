import MarkupPairs.Proofs.LineDeletion
import MarkupPairs.Selection

/-!
# Selected ranges

A selection between valid positions has a range between valid positions, also after it is pulled
back from the start of a line. A range of complete lines runs from the start of a line to the end of
one.
-/

namespace MarkupPairs

variable {d : Document} {r : Range}

theorem Selection.isValid_range {selection : Selection} (hanchor : d.isValid selection.anchor)
    (hactive : d.isValid selection.active) :
    d.isValid selection.range.start ∧ d.isValid selection.range.stop :=
  Range.ends_between (P := (d.isValid ·)) hanchor hactive

namespace Document

theorem isValid_trimLineStart (hstart : d.isValid r.start) (hstop : d.isValid r.stop) :
    d.isValid (d.trimLineStart r).start ∧ d.isValid (d.trimLineStart r).stop := by
  rw [trimLineStart]
  split
  next => exact ⟨hstart, hstop⟩
  next =>
    apply Range.ends_between (P := (d.isValid ·)) hstart
    apply isValid_lineStop
    have hline := (isValid_iff.mp hstop).1
    omega

/-- A range that is pulled back still starts where it did, and stops no later. -/
theorem trimLineStart_le (hstart : d.isValid r.start) :
    (d.trimLineStart r).start = r.start ∧ (d.trimLineStart r).stop ≤ r.stop := by
  rw [trimLineStart]
  split
  next => exact ⟨rfl, Position.le_refl _⟩
  next hspans =>
    obtain ⟨-, hcharacter⟩ := isValid_iff.mp hstart
    have hle := r.start_le_stop
    simp only [Range.isSingleLine, Bool.or_eq_true, beq_iff_eq, not_or] at hspans
    simp only [Position.le_def] at hle
    have hbefore : r.start ≤ d.lineStop (r.stop.line - 1) := by
      rcases Nat.lt_or_ge r.start.line (r.stop.line - 1) with hlt | hge
      · exact .inl hlt
      · have hline : r.start.line = r.stop.line - 1 := by omega
        exact .inr ⟨hline, hline ▸ hcharacter⟩
    rw [Range.withStop, Range.between_of_le hbefore]
    exact ⟨rfl, .inl (by simp only [lineStop]; omega)⟩

theorem ends_of_isBlock (h : (d.shape r).isBlock) :
    r.start = ⟨r.start.line, 0⟩ ∧ r.stop = d.lineStop r.stop.line := by
  have hfull : r.start.character == 0 && r.stop == d.lineStop r.stop.line := by
    by_contra hpart
    rw [shape] at h
    simp only [hpart] at h
    split at h
    next => cases h
    next =>
      split at h
      next => cases h
      next => cases h
  rw [Bool.and_eq_true, beq_iff_eq, beq_iff_eq] at hfull
  exact ⟨Position.ext_iff'.mpr ⟨rfl, hfull.1⟩, hfull.2⟩

theorem shape_ne_empty (h : ¬r.isEmpty) : d.shape r ≠ .empty := by
  rw [shape, if_neg h]
  split
  next => split <;> exact fun heq => by cases heq
  next => split <;> exact fun heq => by cases heq

end Document

end MarkupPairs
