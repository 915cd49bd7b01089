import MarkupPairs.Proofs.Layout

/-!
# A document by its lines

The cells of a document, line by line: the characters of a line, then the cell of the line feed
that ends it, except on the last line.
-/

namespace MarkupPairs

namespace Text

@[simp] theorem ofLines_nil : ofLines [] = [] := rfl

@[simp] theorem ofLines_singleton (l : Text) : ofLines [l] = l := List.append_nil l

theorem ofLines_cons_cons (l m : Text) (ls : List Text) :
    ofLines (l :: m :: ls) = l ++ '\n' :: ofLines (m :: ls) := by
  simp [ofLines, List.intercalate]

theorem not_mem_of_mem_lines {t l : Text} (h : l ∈ lines t) : '\n' ∉ l := by
  induction t generalizing l with
  | nil =>
      rw [lines, List.mem_singleton] at h
      simp [h]
  | cons c t ih =>
      by_cases hc : c = '\n'
      · rw [lines, if_pos hc, List.mem_cons] at h
        rcases h with rfl | h
        · simp
        · exact ih h
      · obtain ⟨m, ms, hms⟩ := List.exists_cons_of_ne_nil (lines_ne_nil t)
        rw [lines_cons_of_ne hc, hms, List.modifyHead_cons, List.mem_cons] at h
        rw [hms] at ih
        rcases h with rfl | h
        · rw [List.mem_cons, not_or]
          exact ⟨Ne.symm hc, ih List.mem_cons_self⟩
        · exact ih (List.mem_cons_of_mem _ h)

theorem lines_append_lineFeed (s t : Text) : lines (s ++ '\n' :: t) = lines s ++ lines t := by
  have hlines : lines ('\n' :: t) = [] :: lines t := by rw [lines, if_pos rfl]
  rw [lines_append]
  simp only [hlines, List.head_cons, List.tail_cons, List.append_nil]
  rw [← List.singleton_append, ← List.append_assoc, List.dropLast_concat_getLast]

theorem lines_of_flat {l : Text} (h : '\n' ∉ l) : lines l = [l] := by
  induction l with
  | nil => rfl
  | cons c l ih =>
      obtain ⟨hc, hl⟩ := not_or.mp (List.mem_cons.not.mp h)
      rw [lines_cons_of_ne (Ne.symm hc), ih hl]
      rfl

theorem lines_ofLines {ls : List Text} (hne : ls ≠ []) (hflat : ∀ l ∈ ls, '\n' ∉ l) :
    lines (ofLines ls) = ls := by
  induction ls with
  | nil => exact absurd rfl hne
  | cons l ls ih =>
      obtain ⟨hl, hls⟩ := List.forall_mem_cons.mp hflat
      cases ls with
      | nil => rw [ofLines_singleton, lines_of_flat hl]
      | cons m ls =>
          rw [ofLines_cons_cons, lines_append_lineFeed, lines_of_flat hl,
            ih (List.cons_ne_nil _ _) hls]
          rfl

theorem mem_ofLines {ls : List Text} {c : Char} (hc : c ≠ '\n') :
    c ∈ ofLines ls ↔ ∃ l ∈ ls, c ∈ l := by
  induction ls with
  | nil => simp
  | cons l ls ih =>
      cases ls with
      | nil => simp
      | cons m ls =>
          rw [ofLines_cons_cons, List.mem_append, List.mem_cons, or_iff_right hc, ih]
          simp

/-- A text that stops at the start of a line has the lines behind it for itself. -/
theorem lines_append_of_getLast {s : Text} (h : (lines s).getLast (lines_ne_nil s) = [])
    (t : Text) : lines (s ++ t) = (lines s).dropLast ++ lines t := by
  rw [lines_append, h, List.nil_append, List.cons_head_tail]

/-- A text that starts at the end of a line leaves that line as it is. -/
theorem lines_append_of_head {t : Text} (h : (lines t).head (lines_ne_nil t) = []) (s : Text) :
    lines (s ++ t) = lines s ++ (lines t).tail := by
  rw [lines_append, h, List.append_nil, ← List.singleton_append, ← List.append_assoc,
    List.dropLast_concat_getLast]

/-- What stands in front of the first line feed of a text. -/
def firstLine (t : Text) : Text := (lines t).head (lines_ne_nil t)

/-- What stands behind the last line feed of a text. -/
def lastLine (t : Text) : Text := (lines t).getLast (lines_ne_nil t)

/-- A text starts with its first line. -/
theorem firstLine_prefix (t : Text) : t.firstLine <+: t := by
  have htext := ofLines_lines t
  obtain ⟨l, ls, hls⟩ := List.exists_cons_of_ne_nil (lines_ne_nil t)
  simp only [firstLine, hls, List.head_cons] at htext ⊢
  cases ls with
  | nil =>
      rw [ofLines_singleton] at htext
      exact htext ▸ List.prefix_rfl
  | cons m ls =>
      rw [ofLines_cons_cons] at htext
      exact ⟨_, htext⟩

/-- A text without line feeds goes on in the last line of the text in front of it. -/
theorem lines_append_of_flat {t : Text} (h : '\n' ∉ t) (s : Text) :
    lines (s ++ t) = (lines s).dropLast ++ [s.lastLine ++ t] := by
  rw [lines_append]
  simp [lines_of_flat h, lastLine]

theorem lastLine_append_of_flat {t : Text} (h : '\n' ∉ t) (s : Text) :
    (s ++ t).lastLine = s.lastLine ++ t := by
  simp [lastLine, lines_append_of_flat h]

theorem lastLine_append_lineFeed (s t : Text) : (s ++ '\n' :: t).lastLine = t.lastLine := by
  simp [lastLine, lines_append_lineFeed, List.getLast_append_of_ne_nil, lines_ne_nil]

/-- A text ends with its last line. -/
theorem lastLine_suffix (t : Text) : t.lastLine <:+ t := by
  induction t using List.reverseRecOn with
  | nil => exact List.suffix_rfl
  | append_singleton t c ih =>
      by_cases hc : c = '\n'
      · rw [hc, lastLine_append_lineFeed]
        exact List.nil_suffix
      · rw [lastLine_append_of_flat (by simpa using Ne.symm hc)]
        exact (List.suffix_append_inj_of_length_eq rfl).mpr ⟨ih, rfl⟩

end Text

/-- A text leads as many lines down as it has line feeds. -/
theorem Position.line_afterText (p : Position) (t : Text) :
    (p.afterText t).line = p.line + t.count '\n' := by
  induction t generalizing p with
  | nil => rfl
  | cons c t ih =>
      rw [afterText_cons, ih, List.count_cons, after]
      by_cases hc : c = '\n'
      · simp [hc]
        omega
      · simp [hc]

/-- A text that ends on the line it starts on has no line feed. -/
theorem Position.afterText_eq_right {p : Position} {t : Text} {k : Nat}
    (h : p.afterText t = p.right k) : '\n' ∉ t ∧ t.length = k := by
  have hflat : '\n' ∉ t := by
    have hline := congrArg Position.line h
    rw [line_afterText, right] at hline
    exact List.count_eq_zero.mp (Nat.add_left_cancel hline)
  refine ⟨hflat, ?_⟩
  rw [afterText_of_flat fun c hc heq => hflat (heq ▸ hc)] at h
  exact Nat.add_left_cancel (congrArg Position.character h)

namespace Cell

/-- Within a line the character counts on from the first one. -/
theorem position_of_mem_layOut_flat {n : Nat} {l : Text} (hl : '\n' ∉ l) {cell : Cell}
    (h : cell ∈ layOut ⟨n, 0⟩ l) :
    cell.position.line = n ∧ cell.position.character < l.length := by
  have hle := le_position_of_mem_layOut h
  have hlt := position_lt_of_mem_layOut h
  have hflat : ∀ c ∈ l, c ≠ '\n' := fun c hc heq => hl (heq ▸ hc)
  rw [Position.afterText_of_flat hflat] at hlt
  simp only [Position.le_def, Position.lt_def, Position.right] at hle hlt
  omega

theorem layOut_ofLines_cons_cons (n : Nat) {l : Text} (hl : '\n' ∉ l) (m : Text)
    (ls : List Text) :
    layOut ⟨n, 0⟩ (Text.ofLines (l :: m :: ls)) =
      layOut ⟨n, 0⟩ l ++ ⟨⟨n, l.length⟩, '\n'⟩ :: layOut ⟨n + 1, 0⟩ (Text.ofLines (m :: ls)) := by
  have hflat : ∀ c ∈ l, c ≠ '\n' := fun c hc heq => hl (heq ▸ hc)
  have hstop : (⟨n, 0⟩ : Position).afterText l = ⟨n, l.length⟩ := by
    rw [Position.afterText_of_flat hflat, Position.right, Nat.zero_add]
  rw [Text.ofLines_cons_cons, layOut_append, hstop, layOut_cons]
  rfl

end Cell

namespace Document

/-- The cells from the start of a line on. -/
def cellsFromLine (d : Document) (n : Nat) : List Cell :=
  Cell.layOut ⟨n, 0⟩ (Text.ofLines (d.lines.drop n))

/-- The cells of a line, its line feed left out. -/
def cellsOfLine (d : Document) (n : Nat) : List Cell := Cell.layOut ⟨n, 0⟩ (d.line n)

theorem cellsFromLine_zero (d : Document) : d.cellsFromLine 0 = d.cells := by
  rw [cellsFromLine, List.drop_zero, lines, Text.ofLines_lines]
  rfl

theorem not_mem_line (d : Document) (n : Nat) : '\n' ∉ d.line n := by
  rw [line]
  cases hget : d.lines[n]? with
  | none => simp
  | some l => exact Text.not_mem_of_mem_lines (List.mem_of_getElem? hget)

theorem drop_lines {d : Document} {n : Nat} (h : n < d.lineCount) :
    d.lines.drop n = d.line n :: d.lines.drop (n + 1) := by
  rw [List.drop_eq_getElem_cons h, line, List.getElem?_eq_getElem h, Option.getD_some]

theorem cellsFromLine_last {d : Document} {n : Nat} (h : n + 1 = d.lineCount) :
    d.cellsFromLine n = d.cellsOfLine n := by
  rw [cellsFromLine, drop_lines (by omega), List.drop_of_length_le (Nat.le_of_eq h.symm),
    Text.ofLines_singleton]
  rfl

theorem cellsFromLine_step {d : Document} {n : Nat} (h : n + 1 < d.lineCount) :
    d.cellsFromLine n =
      d.cellsOfLine n ++ ⟨d.lineStop n, '\n'⟩ :: d.cellsFromLine (n + 1) := by
  rw [cellsFromLine, cellsFromLine, drop_lines (Nat.lt_of_succ_lt h), drop_lines h,
    Cell.layOut_ofLines_cons_cons n (d.not_mem_line n)]
  rfl

theorem position_of_mem_cellsOfLine {d : Document} {n : Nat} {cell : Cell}
    (h : cell ∈ d.cellsOfLine n) :
    cell.position.line = n ∧ cell.position.character < d.lineLength n :=
  Cell.position_of_mem_layOut_flat (d.not_mem_line n) h

/-- Where a cell stands on its line: among the characters of the line, or, as its line feed, right
behind them. -/
theorem cases_of_mem_cells {d : Document} {cell : Cell} (h : cell ∈ d.cells) :
    cell.char ≠ '\n' ∧ d.charAt cell.position = some cell.char ∧
        cell.position.character < d.lineLength cell.position.line ∨
      cell.char = '\n' ∧ cell.position = d.lineStop cell.position.line ∧
        cell.position.line + 1 < d.lineCount := by
  obtain ⟨pre, post, hdiv⟩ := exists_dividedAt_of_mem_cells h
  by_cases hchar : cell.char = '\n'
  · right
    have hnext := hdiv.next.line_lt
    have hlength : d.lineLength cell.position.line = cell.position.character := by
      rw [lineLength, hdiv.line_eq, hdiv.character_eq, hchar]
      simp [Text.lines]
    rw [Position.after, if_pos hchar] at hnext
    exact ⟨hchar, Position.ext_iff'.mpr ⟨rfl, hlength.symm⟩, hnext⟩
  · left
    have hat : d.charAt cell.position = some cell.char := hdiv.charAt_cons hchar
    obtain ⟨hlt, -⟩ := List.getElem?_eq_some_iff.mp hat
    exact ⟨hchar, hat, hlt⟩

theorem mem_cells_of_charAt {d : Document} {p : Position} {c : Char} (h : d.charAt p = some c) :
    ⟨p, c⟩ ∈ d.cells := by
  obtain ⟨-, pre, post, hdiv⟩ := exists_dividedAt_of_charAt h
  rw [cells, hdiv.text_eq, hdiv.position_eq]
  exact Cell.mem_layOut _ pre c post

theorem mem_cellsOfLine_of_charAt {d : Document} {p : Position} {c : Char}
    (h : d.charAt p = some c) : ⟨p, c⟩ ∈ d.cellsOfLine p.line := by
  obtain ⟨hlt, hget⟩ := List.getElem?_eq_some_iff.mp h
  have hline : d.line p.line = (d.line p.line).take p.character ++
      c :: (d.line p.line).drop (p.character + 1) := by
    rw [← hget, ← List.drop_eq_getElem_cons hlt, List.take_append_drop]
  have hflat : ∀ x ∈ (d.line p.line).take p.character, x ≠ '\n' := fun x hx heq =>
    d.not_mem_line p.line (heq ▸ List.mem_of_mem_take hx)
  have hposition : (⟨p.line, 0⟩ : Position).afterText ((d.line p.line).take p.character) = p := by
    rw [Position.afterText_of_flat hflat, List.length_take_of_le (Nat.le_of_lt hlt),
      Position.right, Nat.zero_add]
  have hmem := Cell.mem_layOut ⟨p.line, 0⟩ ((d.line p.line).take p.character) c
    ((d.line p.line).drop (p.character + 1))
  rwa [hposition, ← hline] at hmem

theorem isValid_lineStop {d : Document} {n : Nat} (h : n < d.lineCount) :
    d.isValid (d.lineStop n) := by
  simp [isValid, lineStop, h]

theorem isValid_lineStart {d : Document} {n : Nat} (h : n < d.lineCount) :
    d.isValid ⟨n, 0⟩ := by
  simp [isValid, h]

theorem isValid_iff {d : Document} {p : Position} :
    d.isValid p ↔ p.line < d.lineCount ∧ p.character ≤ d.lineLength p.line := by
  simp [isValid]

end Document

end MarkupPairs
