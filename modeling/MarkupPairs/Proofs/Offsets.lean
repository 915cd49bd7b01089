import Mathlib.Order.Hom.Basic
import MarkupPairs.Proofs.Lines
import MarkupPairs.Proofs.RangeCover

/-!
# Offsets and positions

The valid positions of a document and the offsets of its text are the same places, one to one and in
the same order. Any other position stands for the valid one that it is clamped to, so offsets never
decrease along the positions, and the text of a range is what stands between the offsets of its
ends. This holds of every document, however its text came about.
-/

namespace MarkupPairs

namespace Text

/-- The offset at which a line starts, right behind the line feed that ends the line before. A line
that a text does not have starts at its end. -/
def lineStart : Text → Nat → Nat
  | _, 0 => 0
  | [], _ + 1 => 0
  | c :: rest, n + 1 => (if c = '\n' then lineStart rest n else lineStart rest (n + 1)) + 1

/-- A line starts behind the lines before it and their line feeds. -/
theorem lineStart_eq {t : Text} {n : Nat} (h : n < (lines t).length) :
    lineStart t n = lengthOfLines ((lines t).take n) := by
  induction t generalizing n with
  | nil =>
      obtain rfl : n = 0 := Nat.lt_one_iff.mp h
      rfl
  | cons c rest ih =>
      cases n with
      | zero => rfl
      | succ n =>
          rw [lineStart]
          by_cases hc : c = '\n'
          · rw [lines, if_pos hc] at h ⊢
            rw [if_pos hc, ih (Nat.lt_of_succ_lt_succ h), List.take_succ_cons, lengthOfLines,
              List.length_nil]
            omega
          · rw [lines_cons_of_ne hc] at h ⊢
            rw [List.length_modifyHead] at h
            obtain ⟨l, ls, hls⟩ := List.exists_cons_of_ne_nil (lines_ne_nil rest)
            rw [if_neg hc, ih h, hls, List.modifyHead_cons, List.take_succ_cons,
              List.take_succ_cons, lengthOfLines, lengthOfLines, List.length_cons]
            omega

end Text

namespace Document

variable {d : Document} {p q : Position} {n : Nat}

/-- The offset behind the last character of a line: the one of its line feed, or on the last line
the end of the text. -/
def lineEnd (d : Document) (n : Nat) : Nat :=
  if n + 1 < d.lineCount then d.text.lineStart (n + 1) - 1 else d.text.length

/-! ## Lines -/

theorem map_line_range (d : Document) : (List.range d.lineCount).map d.line = d.lines := by
  apply List.ext_getElem
  · rw [List.length_map, List.length_range, lineCount]
  · intro n hn hn'
    rw [List.getElem_map, List.getElem_range, line, List.getElem?_eq_getElem hn', Option.getD_some]

theorem take_succ_lines (h : n < d.lineCount) :
    d.lines.take (n + 1) = d.lines.take n ++ [d.line n] := by
  rw [List.take_add_one, line, List.getElem?_eq_getElem h, Option.toList_some, Option.getD_some]

theorem lineStart_eq (h : n < d.lineCount) :
    d.text.lineStart n = Text.lengthOfLines (d.lines.take n) := Text.lineStart_eq h

theorem lineEnd_eq (h : n < d.lineCount) :
    d.lineEnd n = d.text.lineStart n + d.lineLength n := by
  have hlines : Text.lengthOfLines (d.lines.take (n + 1)) =
      d.text.lineStart n + d.lineLength n + 1 := by
    rw [take_succ_lines h, Text.lengthOfLines_append, ← lineStart_eq h]
    rfl
  rw [lineEnd]
  split
  next hnext => rw [lineStart_eq hnext, hlines, Nat.add_sub_cancel]
  next hlast =>
    have hall : d.lines.take (n + 1) = d.lines := List.take_of_length_le (Nat.le_of_not_lt hlast)
    rw [hall, lines, Text.lengthOfLines_lines] at hlines
    exact Nat.succ.inj hlines

/-- A line stands in the text at the offset where it starts. -/
theorem exists_text_eq_line (h : n < d.lineCount) :
    ∃ pre post : Text, d.text = pre ++ (d.line n ++ post) ∧ pre.length = d.text.lineStart n := by
  obtain ⟨pre, post, hdiv⟩ := exists_dividedAt (isValid_lineStart h)
  have hline : d.line n = post.firstLine := by
    have hboth := hdiv.line_eq
    rwa [List.length_eq_zero_iff.mp hdiv.character_eq.symm, List.nil_append] at hboth
  obtain ⟨rest, hrest⟩ := hline ▸ Text.firstLine_prefix post
  refine ⟨pre, rest, by rw [hdiv.text_eq, hrest], ?_⟩
  rw [← hdiv.offsetAt, offsetAt, if_pos h, Nat.zero_min, Nat.add_zero, lineStart_eq h]

theorem line_eq_drop_take (h : n < d.lineCount) :
    d.line n = (d.text.take (d.lineEnd n)).drop (d.text.lineStart n) := by
  obtain ⟨pre, post, htext, hpre⟩ := exists_text_eq_line h
  rw [lineEnd_eq h, ← hpre, htext, lineLength, List.take_length_add_append, List.take_left,
    List.drop_left]

theorem lineLength_eq (d : Document) (n : Nat) :
    d.lineLength n = if n < d.lineCount then d.lineEnd n - d.text.lineStart n else 0 := by
  split
  next h => rw [lineEnd_eq h, Nat.add_sub_cancel_left]
  next h => rw [lineLength, line, List.getElem?_eq_none (Nat.le_of_not_lt h)]; rfl

/-! ## Valid positions -/

theorem positionAt_offsetAt (h : d.isValid p) : d.positionAt (d.offsetAt p) = p := by
  obtain ⟨pre, post, hdiv⟩ := exists_dividedAt h
  rw [hdiv.offsetAt, hdiv.positionAt]

theorem dividedAt_positionAt (d : Document) (k : Nat) :
    d.DividedAt (d.positionAt k) (d.text.take k) (d.text.drop k) :=
  ⟨(List.take_append_drop k d.text).symm, rfl⟩

/-- What is found at an offset lies within the document, past the end of the text as well. -/
theorem isValid_positionAt (d : Document) (k : Nat) : d.isValid (d.positionAt k) :=
  (d.dividedAt_positionAt k).isValid

theorem offsetAt_positionAt {k : Nat} (h : k ≤ d.text.length) :
    d.offsetAt (d.positionAt k) = k := by
  rw [(d.dividedAt_positionAt k).offsetAt, List.length_take_of_le h]

/-- The valid positions of a document in the order of their offsets. -/
def offsetIso (d : Document) : {p : Position // d.isValid p} ≃o Fin (d.text.length + 1) where
  toFun p := ⟨d.offsetAt p.1, Nat.lt_succ_of_le (offsetAt_le_length p.2)⟩
  invFun k := ⟨d.positionAt k.1, d.isValid_positionAt k.1⟩
  left_inv p := Subtype.ext (positionAt_offsetAt p.2)
  right_inv k := Fin.ext (offsetAt_positionAt (Nat.le_of_lt_succ k.2))
  map_rel_iff' := @fun p q => offsetAt_le_offsetAt p.2 q.2

/-! ## Any positions -/

/-- The valid position that a position stands for. -/
def clamp (d : Document) (p : Position) : Position :=
  if p.line < d.lineCount then p.withCharacter (min p.character (d.lineLength p.line)) else d.stop

theorem dividedAt_stop (d : Document) : d.DividedAt d.stop d.text [] :=
  ⟨(List.append_nil d.text).symm, rfl⟩

theorem le_stop (h : d.isValid p) : p ≤ d.stop := by
  obtain ⟨pre, post, hdiv⟩ := exists_dividedAt h
  rw [stop, hdiv.position_eq, hdiv.text_eq, Position.afterText_append]
  exact Position.le_afterText _ post

theorem isValid_clamp (d : Document) (p : Position) : d.isValid (d.clamp p) := by
  rw [clamp]
  split
  next h => exact isValid_iff.mpr ⟨h, Nat.min_le_right _ _⟩
  next => exact d.dividedAt_stop.isValid

theorem offsetAt_clamp (d : Document) (p : Position) : d.offsetAt (d.clamp p) = d.offsetAt p := by
  rw [clamp]
  split
  next h =>
    rw [offsetAt, offsetAt, if_pos h]
    simp only [Position.withCharacter, if_pos h, Nat.min_assoc, Nat.min_self]
  next h => rw [d.dividedAt_stop.offsetAt, offsetAt, if_neg h]

theorem clamp_le_clamp (h : p ≤ q) : d.clamp p ≤ d.clamp q := by
  by_cases hq : q.line < d.lineCount
  · have hp : p.line < d.lineCount := by
      rw [Position.le_def] at h
      omega
    rw [clamp, clamp, if_pos hp, if_pos hq]
    simp only [Position.le_def, Position.withCharacter] at h ⊢
    rcases h with hline | ⟨hline, hcharacter⟩
    · exact .inl hline
    · exact .inr ⟨hline, by rw [hline]; omega⟩
  · have hstop : d.clamp q = d.stop := if_neg hq
    exact hstop ▸ le_stop (d.isValid_clamp p)

theorem offsetAt_mono (h : p ≤ q) : d.offsetAt p ≤ d.offsetAt q := by
  rw [← offsetAt_clamp, ← d.offsetAt_clamp q]
  exact (offsetAt_le_offsetAt (d.isValid_clamp p) (d.isValid_clamp q)).mpr (clamp_le_clamp h)

theorem offsetAt_le (d : Document) (p : Position) : d.offsetAt p ≤ d.text.length := by
  rw [← offsetAt_clamp]
  exact offsetAt_le_length (d.isValid_clamp p)

/-- Of two offsets of a text the later one has the later position. -/
theorem positionAt_le_positionAt_iff {k : Nat} (hk : k ≤ d.text.length) (hn : n ≤ d.text.length) :
    d.positionAt k ≤ d.positionAt n ↔ k ≤ n := by
  rw [← offsetAt_le_offsetAt (d.isValid_positionAt k) (d.isValid_positionAt n),
    offsetAt_positionAt hk, offsetAt_positionAt hn]

/-- The text of a range stands between the offsets of its ends. -/
theorem exists_text_eq_slice (d : Document) (r : Range) :
    ∃ pre post : Text, d.text = pre ++ (d.slice r ++ post) ∧ pre.length = d.offsetAt r.start ∧
      (pre ++ d.slice r).length = d.offsetAt r.stop := by
  have hle := offsetAt_mono (d := d) r.start_le_stop
  have hlength := d.offsetAt_le r.stop
  have hsplit : (d.text.take (d.offsetAt r.stop)).take (d.offsetAt r.start) ++ d.slice r =
      d.text.take (d.offsetAt r.stop) := List.take_append_drop _ _
  refine ⟨(d.text.take (d.offsetAt r.stop)).take (d.offsetAt r.start),
    d.text.drop (d.offsetAt r.stop), ?_, ?_, ?_⟩
  · rw [← List.append_assoc, hsplit, List.take_append_drop]
  · rw [List.take_take, Nat.min_eq_left hle, List.length_take_of_le (Nat.le_trans hle hlength)]
  · rw [hsplit, List.length_take_of_le hlength]

/-- Each character of the text of a range stands in the document, between the offsets of the ends
of the range. -/
theorem exists_dividedAt_of_mem_slice {r : Range} {i : Nat} {c : Char}
    (h : (d.slice r)[i]? = some c) :
    ∃ front behind, d.DividedAt (d.positionAt (d.offsetAt r.start + i)) front (c :: behind) ∧
      d.offsetAt r.start ≤ front.length ∧ front.length < d.offsetAt r.stop := by
  obtain ⟨pre, post, htext, hstart, hstop⟩ := d.exists_text_eq_slice r
  obtain ⟨hi, rfl⟩ := List.getElem?_eq_some_iff.mp h
  have hsplit : d.slice r = (d.slice r).take i ++ (d.slice r)[i] :: (d.slice r).drop (i + 1) := by
    rw [← List.drop_eq_getElem_cons hi, List.take_append_drop]
  have hlength : (pre ++ (d.slice r).take i).length = d.offsetAt r.start + i := by
    rw [List.length_append, hstart, List.length_take_of_le (Nat.le_of_lt hi)]
  have hdiv : d.DividedAt (Position.origin.afterText (pre ++ (d.slice r).take i))
      (pre ++ (d.slice r).take i) ((d.slice r)[i] :: ((d.slice r).drop (i + 1) ++ post)) := by
    refine ⟨?_, rfl⟩
    rw [List.append_assoc, ← List.cons_append, ← List.append_assoc ((d.slice r).take i), ← hsplit]
    exact htext
  rw [← hlength, hdiv.positionAt]
  rw [List.length_append] at hstop
  exact ⟨_, _, hdiv, by omega, by omega⟩

/-- A character whose offset lies between those of the ends of a range stands in the text of the
range. -/
theorem getElem?_slice {r : Range} {c : Char} {front behind : Text}
    (h : d.DividedAt p front (c :: behind)) (hfrom : d.offsetAt r.start ≤ front.length)
    (hto : front.length < d.offsetAt r.stop) :
    (d.slice r)[front.length - d.offsetAt r.start]? = some c := by
  obtain ⟨pre, post, htext, hstart, hstop⟩ := d.exists_text_eq_slice r
  have hwhole : (pre ++ d.slice r ++ post)[front.length]? = some c := by
    rw [List.append_assoc, ← htext, h.text_eq, List.getElem?_append_right (Nat.le_refl _),
      Nat.sub_self]
    rfl
  rw [List.getElem?_append_left (hstop ▸ hto), List.getElem?_append_right (hstart ▸ hfrom),
    hstart] at hwhole
  exact hwhole

/-- A range covers a character that lies between the offsets of its ends. -/
theorem covers_iff_offsetAt {r : Range} {c : Char} (h : d.charAt p = some c) :
    r.covers p ↔ d.offsetAt r.start ≤ d.offsetAt p ∧ d.offsetAt p < d.offsetAt r.stop := by
  obtain ⟨hc, pre, post, hdiv⟩ := exists_dividedAt_of_charAt h
  have hnext : d.offsetAt (p.right 1) = d.offsetAt p + 1 := by
    rw [← Position.after_of_ne hc, hdiv.next.offsetAt, hdiv.offsetAt, List.length_append]
    rfl
  rw [Range.covers_iff]
  constructor
  · rintro ⟨hstart, hstop⟩
    have hle := offsetAt_mono (d := d) (Position.right_one_le.mpr hstop)
    exact ⟨offsetAt_mono hstart, Nat.lt_of_lt_of_le (hnext ▸ Nat.lt_succ_self _) hle⟩
  · rintro ⟨hstart, hstop⟩
    constructor
    · apply Position.not_lt.mp
      intro hlt
      have hle := offsetAt_mono (d := d) (Position.right_one_le.mpr hlt)
      omega
    · apply Position.not_le.mp
      intro hle
      exact absurd (offsetAt_mono hle) (Nat.not_le.mpr hstop)

/-- Lines are what stands between line feeds, and a line is as long as the offsets of its ends are
apart. The valid positions correspond to the offsets in order. The offset of any position is the one
of the last valid position on its line that is not behind it, or that of the end of the text, and
ranges cover what is between the offsets of their ends. -/
theorem offsets_correspond (d : Document) :
    d.lineCount = d.text.count '\n' + 1 ∧
    Text.ofLines ((List.range d.lineCount).map d.line) = d.text ∧
    (∀ n, d.lineLength n = (d.line n).length ∧
      d.lineLength n = if n < d.lineCount then d.lineEnd n - d.text.lineStart n else 0) ∧
    (∀ n < d.lineCount, d.line n = (d.text.take (d.lineEnd n)).drop (d.text.lineStart n)) ∧
    (∃ e : {p : Position // d.isValid p} ≃o Fin (d.text.length + 1),
      (∀ p, (e p : Nat) = d.offsetAt p) ∧ ∀ k, (e.symm k : Position) = d.positionAt k) ∧
    (∀ p q, p ≤ q → d.offsetAt p ≤ d.offsetAt q) ∧
    (∀ p, d.offsetAt p = if p.line < d.lineCount then
        d.offsetAt (p.withCharacter (min p.character (d.lineLength p.line)))
      else d.text.length) ∧
    ∀ r, ∃ pre post : Text, d.text = pre ++ (d.slice r ++ post) ∧
      pre.length = d.offsetAt r.start ∧ (pre ++ d.slice r).length = d.offsetAt r.stop := by
  refine ⟨Text.length_lines d.text, ?_, fun n => ⟨rfl, d.lineLength_eq n⟩,
    fun n hn => line_eq_drop_take hn, ⟨d.offsetIso, fun _ => rfl, fun _ => rfl⟩,
    fun p q => offsetAt_mono, ?_, d.exists_text_eq_slice⟩
  · rw [map_line_range, lines, Text.ofLines_lines]
  · intro p
    have hclamp := d.offsetAt_clamp p
    rw [clamp] at hclamp
    split
    next h => rw [← hclamp, if_pos h]
    next h => rw [offsetAt, if_neg h]

end Document

end MarkupPairs
