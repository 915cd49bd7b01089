import MarkupPairs.Proofs.LineDeletion

/-!
# The lines that survive a deletion

Deleting ranges line by line comes down to two questions about each line: whether it is dropped, and
which of its characters no range covers. Both ask about the ranges as a whole, so their order does
not matter.
-/

namespace MarkupPairs

/-- Trimming takes away nothing but blanks. -/
theorem Text.isWhite_or_mem_trim {t : Text} {c : Char} (h : c ∈ t) :
    Unicode.isWhite c ∨ c ∈ t.trim := by
  have hdrop {t : Text} (h : c ∈ t) : Unicode.isWhite c ∨ c ∈ t.dropWhile Unicode.isWhite := by
    rw [← List.takeWhile_append_dropWhile (p := Unicode.isWhite) (l := t)] at h
    exact (List.mem_append.mp h).imp_left fun hc => List.mem_takeWhile_imp hc
  rcases hdrop h with hwhite | hstart
  · exact .inl hwhite
  · rw [trim, trimEnd, List.mem_reverse]
    exact hdrop (List.mem_reverse.mpr hstart)

namespace Document

/-- The characters of a line that none of the ranges covers. -/
def remainder (d : Document) (ranges : List Range) (n : Nat) : Text :=
  Cell.keptText ranges (d.cellsOfLine n)

/-- Whether a line is dropped altogether: it lies between the first and the last line of a range, or
a range starts or stops on it and leaves nothing on it, or a lone semicolon. -/
def IsDropped (d : Document) (ranges : List Range) (n : Nat) : Prop :=
  (∃ r ∈ ranges, r.Encloses n) ∨
    (∃ r ∈ ranges, r.Bounds n) ∧
      ((d.remainder ranges n).trim = [] ∨ (d.remainder ranges n).trim = [';'])

instance (d : Document) (ranges : List Range) (n : Nat) : Decidable (d.IsDropped ranges n) :=
  inferInstanceAs (Decidable (_ ∨ _ ∧ (_ ∨ _)))

/-- All that goes with a dropped line beyond the ranges are blanks and semicolons. -/
theorem IsDropped.covers_or {d : Document} {ranges : List Range} {p : Position} {c : Char}
    (h : d.IsDropped ranges p.line) (hc : d.charAt p = some c) :
    (∃ r ∈ ranges, r.covers p) ∨ Unicode.isWhite c ∨ c = ';' := by
  rcases h with ⟨r, hr, henclosed⟩ | ⟨-, hresidue⟩
  · exact .inl ⟨r, hr, Range.covers_iff.mpr ⟨.inl henclosed.1, .inl henclosed.2⟩⟩
  · rw [or_iff_not_imp_left]
    intro hkept
    have hremains : c ∈ d.remainder ranges p.line := by
      refine List.mem_map.mpr ⟨⟨p, c⟩, List.mem_filter.mpr ⟨mem_cellsOfLine_of_charAt hc, ?_⟩, rfl⟩
      simpa using hkept
    rcases Text.isWhite_or_mem_trim hremains with hwhite | htrim
    · exact .inl hwhite
    · right
      rcases hresidue with hnil | hsemicolon
      · rw [hnil] at htrim
        cases htrim
      · rw [hsemicolon] at htrim
        exact List.mem_singleton.mp htrim

/-- A character that is neither blank nor a semicolon goes with its line only if it is covered. -/
theorem IsDropped.covers_of_stays {d : Document} {ranges : List Range} {p : Position} {c : Char}
    (h : d.IsDropped ranges p.line) (hc : d.charAt p = some c)
    (hwhite : Unicode.isWhite c = false) (hsemicolon : c ≠ ';') : ∃ r ∈ ranges, r.covers p := by
  rcases h.covers_or hc with hcovers | hblank | hlone
  · exact hcovers
  · rw [hwhite] at hblank
    cases hblank
  · exact absurd hlone hsemicolon

/-- What remains of the lines that are not dropped. -/
def survivors (d : Document) (ranges : List Range) : List Text :=
  ((List.range d.lineCount).filter (¬d.IsDropped ranges ·)).map (d.remainder ranges)

section Order

variable {ranges ranges' : List Range}

theorem remainder_perm (d : Document) (h : ranges'.Perm ranges) (n : Nat) :
    d.remainder ranges' n = d.remainder ranges n := by
  rw [remainder, remainder, Cell.keptText, Cell.keptText]
  simp only [h.any_eq]

theorem isDropped_perm (d : Document) (h : ranges'.Perm ranges) (n : Nat) :
    d.IsDropped ranges' n ↔ d.IsDropped ranges n := by
  rw [IsDropped, IsDropped, remainder_perm d h]
  simp only [h.mem_iff]

theorem survivors_perm (d : Document) (h : ranges'.Perm ranges) :
    d.survivors ranges' = d.survivors ranges := by
  have hremainder : d.remainder ranges' = d.remainder ranges := funext (remainder_perm d h)
  rw [survivors, survivors, hremainder]
  simp only [isDropped_perm d h]

end Order

/-! ## Lines that are kept or go -/

/-- How ranges cut lines out of a document: of each line its content is kept, or it goes as a whole
and takes the line feed behind it along. Between two lines that are kept there is a line feed;
`feed` says whether the one behind the last of them goes. -/
structure CutsLines (d : Document) (ranges : List Range) (keeps : Nat → Bool)
    (content : Nat → Text) (feed : Bool) : Prop where
  line : ∀ n < d.lineCount,
    Cell.keptText ranges (d.cellsOfLine n) = if keeps n then content n else []
  gone : ∀ n, n + 1 < d.lineCount → keeps n = false → ranges.any (·.covers (d.lineStop n))
  between : ∀ n m, n < m → m < d.lineCount → keeps n → keeps m →
    ranges.any (·.covers (d.lineStop n)) = false
  last : ∀ n, n + 1 < d.lineCount → keeps n →
    (∀ m, n < m → m < d.lineCount → keeps m = false) →
      ranges.any (·.covers (d.lineStop n)) = feed

namespace CutsLines

variable {d : Document} {ranges : List Range} {keeps : Nat → Bool} {content : Nat → Text}
  {feed : Bool}

/-- From the start of a line on, the lines that are kept are left, and an empty one behind them if
the last line goes but not the line feed. -/
theorem keptText_cellsFromLine (h : d.CutsLines ranges keeps content feed) (k : Nat) :
    ∀ n, n + k + 1 = d.lineCount →
      Cell.keptText ranges (d.cellsFromLine n) =
        Text.ofLines (((List.range' n (k + 1)).filter keeps).map content) ++
          if (List.range' n (k + 1)).filter keeps ≠ [] ∧ keeps (d.lineCount - 1) = false ∧
            feed = false then ['\n'] else [] := by
  -- by induction on the number of lines behind the line
  induction k with
  | zero =>
      intro n hn
      obtain rfl : n = d.lineCount - 1 := by omega
      rw [cellsFromLine_last (by omega), h.line _ (by omega)]
      cases hkeeps : keeps (d.lineCount - 1) <;> simp [hkeeps]
  | succ k ih =>
      intro n hn
      have hrange : List.range' n (k + 1 + 1) = n :: List.range' (n + 1) (k + 1) :=
        List.range'_succ
      rw [cellsFromLine_step (by omega), Cell.keptText_append, Cell.keptText_cons,
        ih (n + 1) (by omega), h.line n (by omega), hrange]
      cases hkeeps : keeps n with
      | false =>
          rw [List.filter_cons_of_neg (by simp [hkeeps]), if_pos (h.gone n (by omega) hkeeps)]
          rfl
      | true =>
          rw [List.filter_cons_of_pos hkeeps, if_pos rfl]
          cases hrest : (List.range' (n + 1) (k + 1)).filter keeps with
          | nil =>
              have hlater : ∀ m, n < m → m < d.lineCount → keeps m = false := by
                intro m hm hcount
                have hmem : m ∈ List.range' (n + 1) (k + 1) := List.mem_range'_1.mpr (by omega)
                simpa using List.filter_eq_nil_iff.mp hrest m hmem
              rw [h.last n (by omega) hkeeps hlater]
              cases feed <;> simp [hlater (d.lineCount - 1) (by omega) (by omega)]
          | cons m rest =>
              have hmem : m ∈ (List.range' (n + 1) (k + 1)).filter keeps :=
                hrest ▸ List.mem_cons_self
              obtain ⟨hm, hkept⟩ := List.mem_filter.mp hmem
              have hbounds := List.mem_range'_1.mp hm
              rw [h.between n m (by omega) (by omega) hkeeps hkept, List.map_cons, List.map_cons,
                List.map_cons, Text.ofLines_cons_cons]
              simp

/-- What the ranges leave of the whole document. -/
theorem keptText_cells (h : d.CutsLines ranges keeps content feed) :
    Cell.keptText ranges d.cells =
      Text.ofLines (((List.range d.lineCount).filter keeps).map content) ++
        if (List.range d.lineCount).filter keeps ≠ [] ∧ keeps (d.lineCount - 1) = false ∧
          feed = false then ['\n'] else [] := by
  have hcount : 0 < d.lineCount := List.length_pos_iff.mpr (Text.lines_ne_nil d.text)
  have hkept := h.keptText_cellsFromLine (d.lineCount - 1) 0 (by omega)
  rwa [cellsFromLine_zero, Nat.sub_add_cancel hcount, ← List.range_eq_range'] at hkept

end CutsLines

section Plan

variable {d : Document} {ranges : List Range} {n : Nat}

theorem lineCount_of_mem_linesOf {r : Range} (hstop : d.isValid r.stop)
    (hn : n ∈ LineDeletion.linesOf r) : n < d.lineCount := by
  have hline := (isValid_iff.mp hstop).1
  have hle := r.start_le_stop
  simp only [Position.le_def] at hle
  rcases LineDeletion.mem_linesOf.mp hn with henclosed | hbounds
  · exact Nat.lt_trans henclosed.2 hline
  · have hends := hbounds.2
    omega

theorem mem_linesOf_of_covers {r : Range} {p : Position} (h : r.covers p) :
    p.line ∈ LineDeletion.linesOf r := by
  have hne : r.start ≠ r.stop := by
    intro heq
    rw [Range.covers_of_isEmpty (by simp [Range.isEmpty, heq])] at h
    cases h
  obtain ⟨hstart, hstop⟩ := Range.covers_iff.mp h
  simp only [Position.le_def, Position.lt_def] at hstart hstop
  rw [LineDeletion.mem_linesOf, Range.Encloses, Range.Bounds]
  simp only [ne_eq, hne, not_false_eq_true, true_and]
  omega

theorem onLine_ofLine (hvalid : RangeSet.AllEnds (d.isValid ·) ranges) :
    RangeSet.AllEnds (LineDeletion.OnLine d n) (LineDeletion.ofLine d ranges n).ranges :=
  LineDeletion.allEnds_foldl hvalid
    (by simp [LineDeletion.Entry.untouched, RangeSet.empty, RangeSet.AllEnds])

/-- The ranges planned for a line cover what the ranges as a whole cover there. -/
theorem covers_ofLine {i : Nat} (hvalid : RangeSet.AllEnds (d.isValid ·) ranges)
    (hinside : ∀ r ∈ ranges, ¬r.Encloses n) (hi : i < d.lineLength n) :
    (LineDeletion.ofLine d ranges n).ranges.any (·.covers ⟨n, i⟩) =
      ranges.any (·.covers ⟨n, i⟩) :=
  (LineDeletion.covers_foldl _ hvalid hinside hi).trans (Bool.or_false _)

/-- The ranges planned for a line leave what the ranges as a whole leave. -/
theorem deleteRanges_ofLine (hvalid : RangeSet.AllEnds (d.isValid ·) ranges)
    (hinside : ∀ r ∈ ranges, ¬r.Encloses n) :
    LineDeletion.deleteRanges (d.line n) (LineDeletion.ofLine d ranges n).ranges =
      d.remainder ranges n := by
  refine (LineDeletion.deleteRanges_eq (onLine_ofLine hvalid)).trans ?_
  rw [remainder, Cell.keptText, Cell.keptText]
  refine congrArg Cell.text (List.filter_congr fun cell hcell => congrArg _ ?_)
  obtain ⟨rfl, hi⟩ := position_of_mem_cellsOfLine hcell
  exact covers_ofLine hvalid hinside hi

/-- A line goes altogether when one of the ranges touches it and it is dropped. -/
theorem wholeLine_ofLine (hvalid : RangeSet.AllEnds (d.isValid ·) ranges) :
    (n ∈ ranges.flatMap LineDeletion.linesOf ∧ (LineDeletion.ofLine d ranges n).wholeLine) ↔
      d.IsDropped ranges n := by
  have htouched : n ∈ ranges.flatMap LineDeletion.linesOf ↔
      (∃ r ∈ ranges, r.Encloses n) ∨ ∃ r ∈ ranges, r.Bounds n := by
    simp only [List.mem_flatMap, LineDeletion.mem_linesOf, and_or_left, exists_or]
  have hwhole := LineDeletion.wholeLine_foldl (d := d) (n := n) ranges .untouched
  by_cases hencloses : ∃ r ∈ ranges, r.Encloses n
  · have hany : ranges.any (·.Encloses n) = true := by simpa using hencloses
    rw [hany] at hwhole
    refine iff_of_true ⟨htouched.mpr (.inl hencloses), ?_⟩ (.inl hencloses)
    simp [LineDeletion.ofLine, hwhole]
  · have hinside : ∀ r ∈ ranges, ¬r.Encloses n := fun r hr h => hencloses ⟨r, hr, h⟩
    have hany : ranges.any (·.Encloses n) = false := by simpa using hinside
    have hresidue : (LineDeletion.ofLine d ranges n).wholeLine =
        LineDeletion.isResidue (d.remainder ranges n) := by
      rw [← deleteRanges_ofLine hvalid hinside]
      change (_ || _) = _
      rw [hwhole, hany]
      rfl
    rw [htouched, hresidue, IsDropped, LineDeletion.isResidue]
    simp [hencloses]

/-- The lines that go altogether, in ascending order. -/
def wholeLines (d : Document) (ranges : List Range) : List Nat :=
  LineDeletion.ascending (((d.lineDeletions ranges).filter (·.wholeLine)).map (·.line))

/-- The ranges that go on the lines that stay. -/
def partRanges (d : Document) (ranges : List Range) : List Range :=
  ((d.lineDeletions ranges).filter (!·.wholeLine)).flatMap (·.ranges)

theorem mem_wholeLines (hvalid : RangeSet.AllEnds (d.isValid ·) ranges) :
    n ∈ d.wholeLines ranges ↔ d.IsDropped ranges n := by
  rw [wholeLines, LineDeletion.mem_ascending, ← wholeLine_ofLine hvalid, lineDeletions]
  simp only [List.mem_map, List.mem_filter, LineDeletion.mem_ascending]
  constructor
  · rintro ⟨_, ⟨⟨m, hm, rfl⟩, hwhole⟩, rfl⟩
    exact ⟨hm, hwhole⟩
  · rintro ⟨hn, hwhole⟩
    exact ⟨_, ⟨⟨n, hn, rfl⟩, hwhole⟩, rfl⟩

theorem mem_partRanges (hvalid : RangeSet.AllEnds (d.isValid ·) ranges) {r : Range} :
    r ∈ d.partRanges ranges ↔ ∃ m ∈ ranges.flatMap LineDeletion.linesOf,
      ¬d.IsDropped ranges m ∧ r ∈ (LineDeletion.ofLine d ranges m).ranges := by
  rw [partRanges, lineDeletions]
  simp only [List.mem_flatMap, List.mem_filter, List.mem_map, LineDeletion.mem_ascending,
    Bool.not_eq_true', ← wholeLine_ofLine hvalid]
  constructor
  · rintro ⟨_, ⟨⟨m, hm, rfl⟩, hwhole⟩, hr⟩
    exact ⟨m, hm, fun h => Bool.eq_false_iff.mp hwhole h.2, hr⟩
  · rintro ⟨m, hm, hkeep, hr⟩
    exact ⟨_, ⟨⟨m, hm, rfl⟩, Bool.eq_false_iff.mpr fun hwhole => hkeep ⟨hm, hwhole⟩⟩, hr⟩

theorem lt_lineCount_of_isDropped (hvalid : RangeSet.AllEnds (d.isValid ·) ranges)
    (h : d.IsDropped ranges n) : n < d.lineCount := by
  obtain ⟨r, hr, hn⟩ := List.mem_flatMap.mp ((wholeLine_ofLine hvalid).mpr h).1
  exact lineCount_of_mem_linesOf (hvalid r hr).2 hn

/-- The runs of whole lines stay within the document. -/
theorem run_le_lineCount (hvalid : RangeSet.AllEnds (d.isValid ·) ranges) :
    ∀ run ∈ LineDeletion.runs (d.wholeLines ranges), run.1 ≤ run.2 ∧ run.2 < d.lineCount := by
  intro run hrun
  have hle := LineDeletion.first_le_last run hrun
  have hmem := LineDeletion.exists_run_iff.mp ⟨run, hrun, hle, Nat.le_refl _⟩
  exact ⟨hle, lt_lineCount_of_isDropped hvalid ((mem_wholeLines hvalid).mp hmem)⟩

theorem covers_deletedRanges (ranges : List Range) (p : Position) :
    (d.deletedRanges (d.lineDeletions ranges)).covers p ↔
      (∃ run ∈ LineDeletion.runs (d.wholeLines ranges),
        (LineDeletion.runRange d run.1 run.2).covers p) ∨
      ∃ r ∈ d.partRanges ranges, r.covers p := by
  rw [deletedRanges, RangeSet.covers_insertAll, RangeSet.covers_ofList, Bool.or_eq_true,
    List.any_map, List.any_eq_true, List.any_eq_true]
  rfl

/-- The ranges that go on the lines that stay have valid ends. -/
theorem allEnds_partRanges (hvalid : RangeSet.AllEnds (d.isValid ·) ranges) :
    RangeSet.AllEnds (d.isValid ·) (d.partRanges ranges) := by
  intro r hr
  obtain ⟨m, hm, _, hr⟩ := (mem_partRanges hvalid).mp hr
  obtain ⟨e, he, hm⟩ := List.mem_flatMap.mp hm
  have hline := lineCount_of_mem_linesOf (hvalid e he).2 hm
  obtain ⟨hstart, hstop⟩ := onLine_ofLine hvalid r hr
  exact ⟨hstart.isValid hline, hstop.isValid hline⟩

/-- Every range that goes has valid ends. -/
theorem allEnds_deletedRanges (hvalid : RangeSet.AllEnds (d.isValid ·) ranges) :
    RangeSet.AllEnds (d.isValid ·) (d.deletedRanges (d.lineDeletions ranges)).ranges := by
  refine RangeSet.allEnds_insertAll ?_ (RangeSet.allEnds_insertAll (allEnds_partRanges hvalid) ?_)
  · intro r hr
    obtain ⟨run, hrun, rfl⟩ := List.mem_map.mp hr
    obtain ⟨hle, hlast⟩ := run_le_lineCount hvalid run hrun
    exact LineDeletion.isValid_runRange hle hlast
  · simp [RangeSet.empty, RangeSet.AllEnds]

/-- Of a line that is dropped every character goes; of any other line those that a range covers. -/
theorem covers_character {i : Nat} (hvalid : RangeSet.AllEnds (d.isValid ·) ranges)
    (hn : n < d.lineCount) (hi : i < d.lineLength n) :
    (d.deletedRanges (d.lineDeletions ranges)).covers ⟨n, i⟩ ↔
      d.IsDropped ranges n ∨ ∃ r ∈ ranges, r.covers ⟨n, i⟩ := by
  rw [covers_deletedRanges]
  constructor
  · rintro (⟨run, hrun, hcovers⟩ | ⟨r, hr, hcovers⟩)
    · obtain ⟨hle, _⟩ := run_le_lineCount hvalid run hrun
      rw [LineDeletion.covers_runRange_character hle hi hn] at hcovers
      exact .inl ((mem_wholeLines hvalid).mp (LineDeletion.exists_run_iff.mp ⟨run, hrun, hcovers⟩))
    · obtain ⟨m, _, hkeep, hr⟩ := (mem_partRanges hvalid).mp hr
      obtain ⟨⟨hstart, _⟩, hstop, _⟩ := onLine_ofLine hvalid r hr
      obtain rfl : n = m := by
        have hends := Range.covers_iff.mp hcovers
        simp only [Position.le_def, Position.lt_def] at hends
        omega
      have hany : (LineDeletion.ofLine d ranges n).ranges.any (·.covers ⟨n, i⟩) :=
        List.any_eq_true.mpr ⟨r, hr, hcovers⟩
      rw [covers_ofLine hvalid (fun e he h => hkeep (.inl ⟨e, he, h⟩)) hi] at hany
      exact .inr (List.any_eq_true.mp hany)
  · intro h
    by_cases hdropped : d.IsDropped ranges n
    · obtain ⟨run, hrun, hmem⟩ :=
        LineDeletion.exists_run_iff.mpr ((mem_wholeLines hvalid).mpr hdropped)
      obtain ⟨hle, _⟩ := run_le_lineCount hvalid run hrun
      exact .inl ⟨run, hrun, (LineDeletion.covers_runRange_character hle hi hn).mpr hmem⟩
    · obtain ⟨r, hr, hcovers⟩ := h.resolve_left hdropped
      have htouched : n ∈ ranges.flatMap LineDeletion.linesOf :=
        List.mem_flatMap.mpr ⟨r, hr, mem_linesOf_of_covers hcovers⟩
      have hany : ranges.any (·.covers ⟨n, i⟩) := List.any_eq_true.mpr ⟨r, hr, hcovers⟩
      rw [← covers_ofLine hvalid (fun e he h => hdropped (.inl ⟨e, he, h⟩)) hi] at hany
      obtain ⟨e, he, hcovers⟩ := List.any_eq_true.mp hany
      exact .inr ⟨e, (mem_partRanges hvalid).mpr ⟨n, htouched, hdropped, he⟩, hcovers⟩

/-- The line feed behind a line goes with the line, or when no line stays behind it. -/
theorem covers_lineFeed (hvalid : RangeSet.AllEnds (d.isValid ·) ranges)
    (hn : n + 1 < d.lineCount) :
    (d.deletedRanges (d.lineDeletions ranges)).covers (d.lineStop n) ↔
      d.IsDropped ranges n ∨ ∀ m, n < m → m < d.lineCount → d.IsDropped ranges m := by
  rw [covers_deletedRanges]
  constructor
  · rintro (⟨run, hrun, hcovers⟩ | ⟨r, hr, hcovers⟩)
    · obtain ⟨hle, hlast⟩ := run_le_lineCount hvalid run hrun
      have hdropped {m : Nat} (hm : run.1 ≤ m ∧ m ≤ run.2) : d.IsDropped ranges m :=
        (mem_wholeLines hvalid).mp (LineDeletion.exists_run_iff.mp ⟨run, hrun, hm⟩)
      rcases (LineDeletion.covers_runRange_lineFeed hle hlast hn).mp hcovers with hmem | hend
      · exact .inl (hdropped hmem)
      · exact .inr fun m hm hcount => hdropped (by omega)
    · obtain ⟨m, _, _, hr⟩ := (mem_partRanges hvalid).mp hr
      obtain ⟨⟨hstart, _⟩, hstop, hstopLe⟩ := onLine_ofLine hvalid r hr
      have hends := Range.covers_iff.mp hcovers
      simp only [Position.le_def, Position.lt_def, lineStop] at hends
      obtain rfl : n = m := by omega
      omega
  · intro h
    by_cases hdropped : d.IsDropped ranges n
    · obtain ⟨run, hrun, hmem⟩ :=
        LineDeletion.exists_run_iff.mpr ((mem_wholeLines hvalid).mpr hdropped)
      obtain ⟨hle, hlast⟩ := run_le_lineCount hvalid run hrun
      exact .inl ⟨run, hrun, (LineDeletion.covers_runRange_lineFeed hle hlast hn).mpr (.inl hmem)⟩
    · have hlater := h.resolve_left hdropped
      obtain ⟨run, hrun, hmem⟩ := LineDeletion.exists_run_iff.mpr
        ((mem_wholeLines hvalid).mpr (hlater (n + 1) (Nat.lt_succ_self n) hn))
      obtain ⟨hle, hlast⟩ := run_le_lineCount hvalid run hrun
      -- the run of the next line reaches the end of the text, or the line behind it would stay
      have hend : run.2 + 1 = d.lineCount := by
        by_contra hne
        refine LineDeletion.succ_last_not_mem (LineDeletion.pairwise_ascending _) run hrun ?_
        exact (mem_wholeLines hvalid).mpr (hlater (run.2 + 1) (by omega) (by omega))
      exact .inl ⟨run, hrun,
        (LineDeletion.covers_runRange_lineFeed hle hlast hn).mpr (.inr ⟨hend, hmem⟩)⟩

theorem keptText_cellsOfLine (hvalid : RangeSet.AllEnds (d.isValid ·) ranges)
    (hn : n < d.lineCount) :
    Cell.keptText (d.deletedRanges (d.lineDeletions ranges)).ranges (d.cellsOfLine n) =
      if d.IsDropped ranges n then [] else d.remainder ranges n := by
  have hcovers {cell : Cell} (hcell : cell ∈ d.cellsOfLine n) :
      (d.deletedRanges (d.lineDeletions ranges)).covers cell.position ↔
        d.IsDropped ranges n ∨ ranges.any (·.covers cell.position) := by
    obtain ⟨rfl, hi⟩ := position_of_mem_cellsOfLine hcell
    rw [List.any_eq_true]
    exact covers_character hvalid hn hi
  split
  next hdropped =>
    rw [Cell.keptText, List.filter_eq_nil_iff.mpr]
    · rfl
    · intro cell hcell
      have hgone := (hcovers hcell).mpr (.inl hdropped)
      rw [RangeSet.covers] at hgone
      simp [hgone]
  next hkept =>
    rw [remainder, Cell.keptText, Cell.keptText]
    refine congrArg Cell.text (List.filter_congr fun cell hcell => congrArg _ ?_)
    rw [Bool.eq_iff_iff, ← RangeSet.covers, hcovers hcell]
    exact or_iff_right hkept

/-- What is kept from the start of a line on. -/
theorem keptText_cellsFromLine (hvalid : RangeSet.AllEnds (d.isValid ·) ranges) (k : Nat) :
    ∀ n, n + k + 1 = d.lineCount →
      Cell.keptText (d.deletedRanges (d.lineDeletions ranges)).ranges (d.cellsFromLine n) =
        Text.ofLines (((List.range' n (k + 1)).filter (¬d.IsDropped ranges ·)).map
          (d.remainder ranges)) := by
  have hcuts : d.CutsLines (d.deletedRanges (d.lineDeletions ranges)).ranges
      (¬d.IsDropped ranges ·) (d.remainder ranges) true := by
    refine ⟨fun n hn => ?_, fun n hn hgone => ?_, fun n m hm hcount hkept hlater => ?_,
      fun n hn _ hlater => ?_⟩
    · rw [keptText_cellsOfLine hvalid hn]
      by_cases hdropped : d.IsDropped ranges n <;> simp [hdropped]
    · exact (covers_lineFeed hvalid hn).mpr (.inl (by simpa using hgone))
    · refine Bool.eq_false_iff.mpr fun hcovers => ?_
      rcases (covers_lineFeed hvalid (by omega)).mp hcovers with hdropped | hdropped
      · exact absurd hdropped (by simpa using hkept)
      · exact absurd (hdropped m hm hcount) (by simpa using hlater)
    · refine (covers_lineFeed hvalid hn).mpr (.inr fun m hm hcount => ?_)
      simpa using hlater m hm hcount
  intro n hn
  rw [hcuts.keptText_cellsFromLine k n hn, if_neg (by simp), List.append_nil]

/-- What is kept of the document are the lines that survive. -/
theorem keptText_deletedRanges (hvalid : RangeSet.AllEnds (d.isValid ·) ranges) :
    Cell.keptText (d.deletedRanges (d.lineDeletions ranges)).ranges d.cells =
      Text.ofLines (d.survivors ranges) := by
  have hcount : 0 < d.lineCount := List.length_pos_iff.mpr (Text.lines_ne_nil d.text)
  have hkept := keptText_cellsFromLine hvalid (d.lineCount - 1) 0 (by omega)
  rwa [cellsFromLine_zero, Nat.sub_add_cancel hcount, ← List.range_eq_range'] at hkept

end Plan

/-- Deleting ranges with valid ends is never refused. It leaves what remains of the lines that are
not dropped, and neither that nor anything else about the document depends on the order in which the
ranges come. -/
theorem apply_deletionPlan (d : Document) (ranges : List Range)
    (hvalid : ∀ r ∈ ranges, d.isValid r.start ∧ d.isValid r.stop) :
    ∃ after : Document, after.text = Text.ofLines (d.survivors ranges) ∧
      after.ending = d.ending ∧ ∀ ranges' : List Range, ranges'.Perm ranges →
        ∃ splices, d.apply (d.deletionPlan (d.lineDeletions ranges')) = .ok (splices, after) := by
  refine ⟨⟨Text.ofLines (d.survivors ranges), d.ending⟩, rfl, rfl, ?_⟩
  intro ranges' hperm
  have hvalid' : RangeSet.AllEnds (d.isValid ·) ranges' := fun r hr =>
    hvalid r (hperm.mem_iff.mp hr)
  obtain ⟨splices, happly⟩ := apply_deleteAll d _ (allEnds_deletedRanges hvalid')
  have hkept := keptText_deletedRanges hvalid'
  rw [survivors_perm d hperm] at hkept
  exact ⟨splices, by rw [deletionPlan, happly, hkept]⟩

/-- The lines `p`, ` xy`, `ab` and `c;`. -/
def fourLines : Document :=
  ⟨['p', '\n', ' ', 'x', 'y', '\n', 'a', 'b', '\n', 'c', ';'], .lf⟩

/-- Ranges out of order: from `b` on to the semicolon, the first line, and `y`. -/
def fourLinesRanges : List Range :=
  [⟨⟨2, 1⟩, ⟨3, 1⟩, by decide⟩, ⟨⟨0, 0⟩, ⟨0, 1⟩, by decide⟩, ⟨⟨1, 2⟩, ⟨1, 3⟩, by decide⟩]

theorem apply_deletionPlan_fourLines :
    (∀ r ∈ fourLinesRanges, fourLines.isValid r.start ∧ fourLines.isValid r.stop) ∧
      ∃ after : Document, after.text = [' ', 'x', '\n', 'a'] ∧ after.ending = .lf ∧
        ∃ splices, fourLines.apply
          (fourLines.deletionPlan (fourLines.lineDeletions fourLinesRanges.reverse)) =
            .ok (splices, after) := by
  have hvalid : ∀ r ∈ fourLinesRanges, fourLines.isValid r.start ∧ fourLines.isValid r.stop := by
    decide
  obtain ⟨after, htext, hending, hany⟩ := apply_deletionPlan fourLines fourLinesRanges hvalid
  have hsurvivors : fourLines.survivors fourLinesRanges = [[' ', 'x'], ['a']] := by decide
  rw [hsurvivors] at htext
  exact ⟨hvalid, after, htext, hending, hany _ (List.reverse_perm _)⟩

end Document

end MarkupPairs
