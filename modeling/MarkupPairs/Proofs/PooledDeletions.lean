import MarkupPairs.Proofs.SurvivingLines

/-!
# Line deletions that are pooled

Line deletions that were planned for several lists of ranges, each list by itself, are carried out
together. A character goes if one of the lists takes it; a line feed goes only next to a line that
one of the lists drops.
-/

namespace MarkupPairs.Document

variable {d : Document} {groups : List (List Range)} {n : Nat}

/-- The line deletions of several lists of ranges, each list planned by itself. -/
def pooledDeletions (d : Document) (groups : List (List Range)) : List LineDeletion :=
  groups.flatMap d.lineDeletions

/-- The lines that go altogether, in ascending order. -/
def pooledLines (d : Document) (groups : List (List Range)) : List Nat :=
  LineDeletion.ascending (((d.pooledDeletions groups).filter (·.wholeLine)).map (·.line))

theorem mem_pooledLines
    (hvalid : ∀ ranges ∈ groups, RangeSet.AllEnds (d.isValid ·) ranges) :
    n ∈ d.pooledLines groups ↔ ∃ ranges ∈ groups, d.IsDropped ranges n := by
  have hline (ranges : List Range) :
      n ∈ ((d.lineDeletions ranges).filter (·.wholeLine)).map (·.line) ↔
        n ∈ d.wholeLines ranges := by
    rw [wholeLines, LineDeletion.mem_ascending]
  rw [pooledLines, LineDeletion.mem_ascending, pooledDeletions, List.filter_flatMap,
    List.map_flatMap, List.mem_flatMap]
  apply exists_congr
  intro ranges
  apply and_congr_right
  intro hranges
  rw [hline, mem_wholeLines (hvalid ranges hranges)]

/-- The ranges that go on the lines that stay, list by list. -/
theorem flatMap_partRanges (groups : List (List Range)) :
    ((d.pooledDeletions groups).filter (!·.wholeLine)).flatMap (·.ranges) =
      groups.flatMap d.partRanges := by
  rw [pooledDeletions, List.filter_flatMap, List.flatMap_assoc]
  rfl

theorem covers_pooled (groups : List (List Range)) (p : Position) :
    (d.deletedRanges (d.pooledDeletions groups)).covers p ↔
      (∃ run ∈ LineDeletion.runs (d.pooledLines groups),
        (LineDeletion.runRange d run.1 run.2).covers p) ∨
      ∃ ranges ∈ groups, ∃ r ∈ d.partRanges ranges, r.covers p := by
  rw [deletedRanges, RangeSet.covers_insertAll, RangeSet.covers_ofList, flatMap_partRanges,
    Bool.or_eq_true, List.any_map, List.any_flatMap]
  simp only [List.any_eq_true]
  rfl

/-- A run of lines that go lies in the document, and one of the lists drops each of its lines. -/
theorem run_pooled (hvalid : ∀ ranges ∈ groups, RangeSet.AllEnds (d.isValid ·) ranges)
    {run : Nat × Nat} (hrun : run ∈ LineDeletion.runs (d.pooledLines groups)) :
    run.1 ≤ run.2 ∧ run.2 < d.lineCount ∧
      ∀ n, run.1 ≤ n → n ≤ run.2 → ∃ ranges ∈ groups, d.IsDropped ranges n := by
  have hle := LineDeletion.first_le_last run hrun
  have hdropped : ∀ n, run.1 ≤ n → n ≤ run.2 → ∃ ranges ∈ groups, d.IsDropped ranges n := by
    intro n hfirst hlast
    exact (mem_pooledLines hvalid).mp (LineDeletion.exists_run_iff.mp ⟨run, hrun, hfirst, hlast⟩)
  obtain ⟨ranges, hranges, hlast⟩ := hdropped run.2 hle (Nat.le_refl _)
  exact ⟨hle, lt_lineCount_of_isDropped (hvalid ranges hranges) hlast, hdropped⟩

/-- Every range that goes has valid ends. -/
theorem allEnds_pooled (hvalid : ∀ ranges ∈ groups, RangeSet.AllEnds (d.isValid ·) ranges) :
    RangeSet.AllEnds (d.isValid ·) (d.deletedRanges (d.pooledDeletions groups)).ranges := by
  refine RangeSet.allEnds_insertAll ?_ (RangeSet.allEnds_insertAll ?_ ?_)
  · intro r hr
    obtain ⟨run, hrun, rfl⟩ := List.mem_map.mp hr
    obtain ⟨hle, hlast, -⟩ := run_pooled hvalid hrun
    exact LineDeletion.isValid_runRange hle hlast
  · intro r hr
    rw [flatMap_partRanges] at hr
    obtain ⟨ranges, hranges, hr⟩ := List.mem_flatMap.mp hr
    exact allEnds_partRanges (hvalid ranges hranges) r hr
  · simp [RangeSet.empty, RangeSet.AllEnds]

/-- A character goes if it is on a line that one of the lists drops, or if one of their ranges
covers it. -/
theorem covers_pooled_character {i : Nat}
    (hvalid : ∀ ranges ∈ groups, RangeSet.AllEnds (d.isValid ·) ranges)
    (hn : n < d.lineCount) (hi : i < d.lineLength n) :
    (d.deletedRanges (d.pooledDeletions groups)).covers ⟨n, i⟩ ↔
      ∃ ranges ∈ groups, d.IsDropped ranges n ∨ ∃ r ∈ ranges, r.covers ⟨n, i⟩ := by
  rw [covers_pooled]
  constructor
  · rintro (⟨run, hrun, hcovers⟩ | ⟨ranges, hranges, hpart⟩)
    · obtain ⟨hle, -, hdropped⟩ := run_pooled hvalid hrun
      rw [LineDeletion.covers_runRange_character hle hi hn] at hcovers
      obtain ⟨ranges, hranges, hdrop⟩ := hdropped n hcovers.1 hcovers.2
      exact ⟨ranges, hranges, .inl hdrop⟩
    · have halone := (covers_deletedRanges ranges ⟨n, i⟩).mpr (.inr hpart)
      exact ⟨ranges, hranges, (covers_character (hvalid ranges hranges) hn hi).mp halone⟩
  · rintro ⟨ranges, hranges, htaken⟩
    have halone := (covers_character (hvalid ranges hranges) hn hi).mpr htaken
    rcases (covers_deletedRanges ranges ⟨n, i⟩).mp halone with ⟨run, hrun, hcovers⟩ | hpart
    · -- the line is whole in the list by itself, so it is in a run of all lists together
      obtain ⟨hle, -⟩ := run_le_lineCount (hvalid ranges hranges) run hrun
      rw [LineDeletion.covers_runRange_character hle hi hn] at hcovers
      have hdrop := (mem_wholeLines (hvalid ranges hranges)).mp
        (LineDeletion.exists_run_iff.mp ⟨run, hrun, hcovers⟩)
      obtain ⟨run, hrun, hmem⟩ := LineDeletion.exists_run_iff.mpr
        ((mem_pooledLines hvalid).mpr ⟨ranges, hranges, hdrop⟩)
      obtain ⟨hle, -⟩ := run_pooled hvalid hrun
      exact .inl ⟨run, hrun, (LineDeletion.covers_runRange_character hle hi hn).mpr hmem⟩
    · exact .inr ⟨ranges, hranges, hpart⟩

/-- A line feed goes only when one of the lists drops the line in front of it or the line behind
it. -/
theorem exists_dropped_of_covers_lineFeed
    (hvalid : ∀ ranges ∈ groups, RangeSet.AllEnds (d.isValid ·) ranges)
    (hn : n + 1 < d.lineCount)
    (h : (d.deletedRanges (d.pooledDeletions groups)).covers (d.lineStop n)) :
    ∃ ranges ∈ groups, d.IsDropped ranges n ∨ d.IsDropped ranges (n + 1) := by
  rcases (covers_pooled groups (d.lineStop n)).mp h with
    ⟨run, hrun, hcovers⟩ | ⟨ranges, hranges, hpart⟩
  · obtain ⟨hle, hlast, hdropped⟩ := run_pooled hvalid hrun
    rcases (LineDeletion.covers_runRange_lineFeed hle hlast hn).mp hcovers with
      hmem | ⟨-, hfirst, hlast⟩
    · obtain ⟨ranges, hranges, hdrop⟩ := hdropped n hmem.1 hmem.2
      exact ⟨ranges, hranges, .inl hdrop⟩
    · obtain ⟨ranges, hranges, hdrop⟩ := hdropped (n + 1) hfirst hlast
      exact ⟨ranges, hranges, .inr hdrop⟩
  · have halone := (covers_deletedRanges ranges (d.lineStop n)).mpr (.inr hpart)
    rcases (covers_lineFeed (hvalid ranges hranges) hn).mp halone with hdrop | hdrop
    · exact ⟨ranges, hranges, .inl hdrop⟩
    · exact ⟨ranges, hranges, .inr (hdrop (n + 1) (Nat.lt_succ_self n) hn)⟩

/-- Why a cell goes: a range covers it, or its line, or the line behind its line feed, is
dropped. -/
theorem exists_reason_of_covers {cell : Cell}
    (hvalid : ∀ ranges ∈ groups, RangeSet.AllEnds (d.isValid ·) ranges) (hcell : cell ∈ d.cells)
    (h : (d.deletedRanges (d.pooledDeletions groups)).covers cell.position) :
    ∃ ranges ∈ groups, (∃ r ∈ ranges, r.covers cell.position) ∨
      ∃ n, d.IsDropped ranges n ∧
        (cell.position.line = n ∨ cell.char = '\n' ∧ cell.position.line + 1 = n) := by
  have hline := line_lt_of_mem_cells hcell
  rcases cases_of_mem_cells hcell with ⟨-, -, hchar⟩ | ⟨hfeed, hstop, hnext⟩
  · obtain ⟨ranges, hranges, hdrop | hcovers⟩ := (covers_pooled_character hvalid hline hchar).mp h
    · exact ⟨ranges, hranges, .inr ⟨_, hdrop, .inl rfl⟩⟩
    · exact ⟨ranges, hranges, .inl hcovers⟩
  · rw [hstop] at h
    obtain ⟨ranges, hranges, hdrop | hdrop⟩ := exists_dropped_of_covers_lineFeed hvalid hnext h
    · exact ⟨ranges, hranges, .inr ⟨_, hdrop, .inl rfl⟩⟩
    · exact ⟨ranges, hranges, .inr ⟨_, hdrop, .inr ⟨hfeed, rfl⟩⟩⟩

end MarkupPairs.Document
