import MarkupPairs.Proofs.SurvivingLines

/-!
# Deletions within lines

Ranges that start and stop on one line cover no line feed. Deleting them leaves every line as it is
without them, except that a line with one of them goes when nothing is left on it, or a lone
semicolon.
-/

namespace MarkupPairs

namespace Text

/-- Some lines, the first of them with number `k`, without those among the given numbers that are
not worth keeping. -/
def dropResidue (numbers : List Nat) (k : Nat) (ls : List Text) : List Text :=
  ((ls.zipIdx k).filter fun (l, n) => !(decide (n ∈ numbers) && LineDeletion.isResidue l)).map
    Prod.fst

variable {numbers : List Nat} {k : Nat} {l : Text} {ls ms : List Text}

theorem dropResidue_append :
    dropResidue numbers k (ls ++ ms) =
      dropResidue numbers k ls ++ dropResidue numbers (k + ls.length) ms := by
  rw [dropResidue, List.zipIdx_append, List.filter_append, List.map_append]
  rfl

theorem dropResidue_cons_of_isResidue (hk : k ∈ numbers) (hl : LineDeletion.isResidue l) :
    dropResidue numbers k (l :: ls) = dropResidue numbers (k + 1) ls := by
  rw [dropResidue, List.zipIdx_cons, List.filter_cons_of_neg]
  · rfl
  · simp [hk, hl]

theorem dropResidue_eq_self
    (h : ∀ n ∈ numbers, ∀ l, ls[n - k]? = some l → k ≤ n → LineDeletion.isResidue l = false) :
    dropResidue numbers k ls = ls := by
  have hall : (ls.zipIdx k).filter
      (fun (l, n) => !(decide (n ∈ numbers) && LineDeletion.isResidue l)) = ls.zipIdx k := by
    apply List.filter_eq_self.mpr
    rintro ⟨l, n⟩ hmem
    obtain ⟨hle, hget⟩ := List.mk_mem_zipIdx_iff_le_and_getElem?_sub.mp hmem
    by_cases hn : n ∈ numbers
    · simp [h n hn l hget hle]
    · simp [hn]
  rw [dropResidue, hall, List.zipIdx_map_fst]

/-- The lines between two given ones that go. -/
theorem dropResidue_pair {x y : Text} {above inside below : List Text}
    (hx : LineDeletion.isResidue x) (hy : LineDeletion.isResidue y) :
    dropResidue [above.length, above.length + 1 + inside.length] 0
      (above ++ x :: (inside ++ y :: below)) = above ++ (inside ++ below) := by
  have hself {k : Nat} {ls : List Text}
      (h : ∀ n ∈ [above.length, above.length + 1 + inside.length], n < k ∨ k + ls.length ≤ n) :
      dropResidue [above.length, above.length + 1 + inside.length] k ls = ls := by
    apply dropResidue_eq_self
    intro n hn l hget hle
    obtain ⟨hlt, -⟩ := List.getElem?_eq_some_iff.mp hget
    have hn := h n hn
    omega
  rw [dropResidue_append, Nat.zero_add, dropResidue_cons_of_isResidue (by simp) hx,
    dropResidue_append, dropResidue_cons_of_isResidue (by simp) hy, hself, hself, hself]
  · simp
    omega
  · simp
  · simp
    omega

end Text

namespace Document

variable {d : Document} {ranges : List Range} {n : Nat}

theorem not_mem_remainder (d : Document) (ranges : List Range) (n : Nat) :
    '\n' ∉ d.remainder ranges n := by
  intro hmem
  have hsublist := Cell.keptText_sublist ranges (d.cellsOfLine n)
  rw [cellsOfLine, Cell.text_layOut] at hsublist
  exact d.not_mem_line n (hsublist.subset hmem)

/-- Without a line feed among them, the characters that go leave all lines. -/
theorem lines_keptText (hfeeds : ∀ cell ∈ d.cells, cell.char = '\n' →
    ranges.any (·.covers cell.position) = false) :
    Text.lines (Cell.keptText ranges d.cells) =
      (List.range d.lineCount).map (d.remainder ranges) := by
  have hcount : 0 < d.lineCount := List.length_pos_iff.mpr (Text.lines_ne_nil d.text)
  -- by induction on the number of lines behind a line
  have hfrom (k : Nat) : ∀ n, n + k + 1 = d.lineCount →
      (∀ cell ∈ d.cellsFromLine n, cell.char = '\n' →
        ranges.any (·.covers cell.position) = false) →
      Cell.keptText ranges (d.cellsFromLine n) =
        Text.ofLines ((List.range' n (k + 1)).map (d.remainder ranges)) := by
    induction k with
    | zero =>
        intro n hn _
        rw [cellsFromLine_last (by omega), List.range'_one, List.map_singleton,
          Text.ofLines_singleton]
        rfl
    | succ k ih =>
        intro n hn hfeeds
        rw [cellsFromLine_step (by omega)] at hfeeds ⊢
        obtain ⟨hfeed, hlater⟩ := List.forall_mem_cons.mp (List.forall_mem_append.mp hfeeds).2
        have hrange : List.range' n (k + 1 + 1) = n :: (n + 1) :: List.range' (n + 1 + 1) k := by
          rw [List.range'_succ, List.range'_succ]
        rw [Cell.keptText_append, Cell.keptText_cons, if_neg (Bool.eq_false_iff.mp (hfeed rfl)),
          ih (n + 1) (by omega) hlater, hrange, List.range'_succ, List.map_cons, List.map_cons,
          List.map_cons, Text.ofLines_cons_cons]
        rfl
  have hkept := hfrom (d.lineCount - 1) 0 (by omega) (d.cellsFromLine_zero ▸ hfeeds)
  rw [cellsFromLine_zero, Nat.sub_add_cancel hcount, ← List.range_eq_range'] at hkept
  rw [hkept]
  apply Text.lines_ofLines
  · rw [ne_eq, List.map_eq_nil_iff, List.range_eq_nil]
    omega
  · intro l hl
    obtain ⟨n, -, rfl⟩ := List.mem_map.mp hl
    exact d.not_mem_remainder ranges n

/-- The range of a text without line feeds lies on one line. -/
theorem flat_spanning {p : Position} {t : Text} (hsome : t ≠ []) (ht : '\n' ∉ t) :
    (Range.spanning p t).start ≠ (Range.spanning p t).stop ∧
      (Range.spanning p t).start.line = (Range.spanning p t).stop.line := by
  have hlt : p < (Range.spanning p t).stop := Position.lt_afterText hsome
  have hline : (Range.spanning p t).stop.line = p.line + t.count '\n' := p.line_afterText t
  rw [List.count_eq_zero_of_not_mem ht] at hline
  constructor
  · intro heq
    rw [← heq] at hlt
    exact Position.lt_irrefl p hlt
  · exact hline.symm

/-- The range of a text without line feeds covers none. -/
theorem not_covers_lineFeed {p : Position} {pre t post : Text} {cell : Cell}
    (hdiv : d.DividedAt p pre (t ++ post)) (ht : '\n' ∉ t) (hcell : cell ∈ d.cells)
    (hchar : cell.char = '\n') : (Range.spanning p t).covers cell.position = false := by
  apply Bool.eq_false_iff.mpr
  intro hcovers
  apply ht
  rw [← hchar, ← Cell.text_layOut p t]
  exact List.mem_map_of_mem (mem_layOut_of_covers hdiv hcell hcovers)

/-- Of ranges that lie on one line each, a line is dropped if one of them lies on it and it is not
worth keeping then. -/
theorem isDropped_of_flat (hflat : ∀ r ∈ ranges, r.start ≠ r.stop ∧ r.start.line = r.stop.line) :
    d.IsDropped ranges n ↔
      n ∈ ranges.map (·.start.line) ∧ LineDeletion.isResidue (d.remainder ranges n) := by
  have hbounds : (∃ r ∈ ranges, r.Bounds n) ↔ n ∈ ranges.map (·.start.line) := by
    rw [List.mem_map]
    apply exists_congr
    intro r
    apply and_congr_right
    intro hr
    obtain ⟨hne, hline⟩ := hflat r hr
    rw [Range.Bounds, ← hline, or_self]
    exact and_iff_right hne
  have hencloses : ¬∃ r ∈ ranges, r.Encloses n := by
    rintro ⟨r, hr, hfirst, hlast⟩
    have hline := (hflat r hr).2
    omega
  rw [IsDropped, or_iff_right hencloses, hbounds, LineDeletion.isResidue, Bool.or_eq_true,
    beq_iff_eq, beq_iff_eq]

/-- The lines that survive ranges within lines are the lines of what the ranges leave, without
those that are not worth keeping any more. -/
theorem survivors_of_flat
    (hflat : ∀ r ∈ ranges, r.start ≠ r.stop ∧ r.start.line = r.stop.line)
    (hfeeds : ∀ cell ∈ d.cells, cell.char = '\n' →
      ranges.any (·.covers cell.position) = false) :
    d.survivors ranges = Text.dropResidue (ranges.map (·.start.line)) 0
      (Text.lines (Cell.keptText ranges d.cells)) := by
  have hnumbers :
      (List.range d.lineCount).zipIdx = (List.range d.lineCount).map fun n => (n, n) := by
    apply List.ext_getElem
    · simp
    · intro n hn hlt
      simp
  rw [lines_keptText hfeeds, Text.dropResidue, List.zipIdx_map, hnumbers, List.map_map,
    List.filter_map, List.map_map, survivors]
  congr 1
  apply List.filter_congr
  intro n _
  simp only [isDropped_of_flat hflat, Function.comp_apply, Prod.map, id, Bool.decide_and,
    Bool.decide_eq_true, decide_not]

end Document

end MarkupPairs
