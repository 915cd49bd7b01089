import MarkupPairs.Proofs.Commit
import MarkupPairs.Proofs.Lines
import MarkupPairs.Proofs.SelectedRange
import MarkupPairs.Proofs.TagCharacters
import MarkupPairs.Session.Command

/-!
# Wrapping a selection

What wrapping writes has four parts: a margin, the opening tag, the text between the tags and the
closing tag. Inline the margin is empty and the content stands between the tags as it was; in a
block the margin is the indentation of the content, and the tags are on lines of their own. Either
way the caret comes to stand right behind the `<` of the opening tag.
-/

namespace MarkupPairs

namespace Wrap

variable {shape : Shape} {unit content : Text} {c : Char}

/-- What wrapping puts in front of the opening tag. -/
def margin (shape : Shape) (content : Text) : Text :=
  if shape.isBlock then leadingIndent content else []

/-- What stands between the tags once a content is wrapped. -/
def body (shape : Shape) (unit content : Text) : Text :=
  if shape.isBlock then '\n' :: (indentLines unit content ++ '\n' :: leadingIndent content)
  else content

theorem isWhite_of_mem_leadingIndent (h : c ∈ leadingIndent content) : Unicode.isWhite c :=
  List.mem_takeWhile_imp h

theorem flat_leadingIndent (content : Text) : '\n' ∉ leadingIndent content := by
  intro h
  obtain ⟨l, ls, hls⟩ := List.exists_cons_of_ne_nil (Text.lines_ne_nil content)
  have hline := (List.takeWhile_prefix _).subset h
  rw [hls, List.headD_cons] at hline
  exact Text.not_mem_of_mem_lines (hls ▸ List.mem_cons_self) hline

/-- A text of blanks is not worth keeping on a line. -/
theorem isResidue_leadingIndent (content : Text) :
    LineDeletion.isResidue (leadingIndent content) := by
  have hstart : Text.trimStart (leadingIndent content) = [] :=
    List.dropWhile_eq_nil_iff.mpr fun c hc => isWhite_of_mem_leadingIndent hc
  rw [LineDeletion.isResidue, Text.trim, hstart]
  rfl

theorem lines_indentLines (hunit : '\n' ∉ unit) (content : Text) :
    (indentLines unit content).lines = content.lines.map (unit ++ ·) := by
  rw [indentLines, Text.lines_ofLines]
  · exact List.map_eq_nil_iff.not.mpr (Text.lines_ne_nil content)
  · intro l hl
    obtain ⟨m, hm, rfl⟩ := List.mem_map.mp hl
    rw [List.mem_append, not_or]
    exact ⟨hunit, Text.not_mem_of_mem_lines hm⟩

theorem count_indentLines (hunit : '\n' ∉ unit) (content : Text) :
    (indentLines unit content).count '\n' = content.count '\n' := by
  have hlength := congrArg List.length (lines_indentLines hunit content)
  rw [List.length_map, Text.length_lines, Text.length_lines] at hlength
  exact Nat.succ.inj hlength

theorem body_ne_nil (h : content ≠ []) : body shape unit content ≠ [] := by
  rw [body]
  split
  · exact List.cons_ne_nil _ _
  · exact h

/-- The lines of a block, its tags left out. -/
theorem lines_block (hunit : '\n' ∉ unit) (content : Text) :
    Text.lines (leadingIndent content ++
        '\n' :: (indentLines unit content ++ '\n' :: leadingIndent content)) =
      leadingIndent content :: (content.lines.map (unit ++ ·) ++ [leadingIndent content]) := by
  rw [Text.lines_append_lineFeed, Text.lines_append_lineFeed,
    Text.lines_of_flat (flat_leadingIndent content), lines_indentLines hunit]
  rfl

theorem count_body_of_isBlock (hunit : '\n' ∉ unit) (h : shape.isBlock) (content : Text) :
    (body shape unit content).count '\n' = content.count '\n' + 2 := by
  rw [body, if_pos h, List.count_cons_self, List.count_append, List.count_cons_self,
    List.count_eq_zero_of_not_mem (flat_leadingIndent content), count_indentLines hunit]

/-- Wrapping as a block adds two lines, and inline it adds none. -/
theorem count_body_le (hunit : '\n' ∉ unit) (shape : Shape) (content : Text) :
    (body shape unit content).count '\n' ≤ content.count '\n' + 2 := by
  by_cases h : shape.isBlock
  · exact Nat.le_of_eq (count_body_of_isBlock hunit h content)
  · rw [body, if_neg h]
    exact Nat.le_add_right _ 2

theorem not_mem_indentLines (hfeed : c ≠ '\n') (hunit : c ∉ unit) (hcontent : c ∉ content) :
    c ∉ indentLines unit content := by
  rw [indentLines, Text.mem_ofLines hfeed]
  rintro ⟨_, hline, hc⟩
  obtain ⟨l, hl, rfl⟩ := List.mem_map.mp hline
  apply hcontent
  rw [← Text.ofLines_lines content, Text.mem_ofLines hfeed]
  exact ⟨l, hl, (List.mem_append.mp hc).resolve_left hunit⟩

/-- Wrapping puts no `<` between the tags. -/
theorem open_not_mem_body (hunit : '<' ∉ unit) (hcontent : '<' ∉ content) :
    '<' ∉ body shape unit content := by
  have hindent : '<' ∉ leadingIndent content := fun h =>
    Unicode.ne_of_isWhite (isWhite_of_mem_leadingIndent h) (by decide) rfl
  rw [body]
  split
  · have hlines := not_mem_indentLines (by decide) hunit hcontent
    simp [hlines, hindent]
  · exact hcontent

end Wrap

theorem IndentUnit.not_mem_text (unit : IndentUnit) {c : Char} (hspace : c ≠ ' ')
    (htab : c ≠ '\t') : c ∉ unit.text := by
  cases unit with
  | spaces width => exact fun h => hspace (List.eq_of_mem_replicate h)
  | tab => exact fun h => htab (List.mem_singleton.mp h)

namespace Session

variable {s : Session} {selection : Selection} {pre content post : Text}

theorem wrapped_eq (s : Session) (name content : Text) {shape : Shape} (h : shape ≠ .empty) :
    s.wrapped name shape content =
      (Wrap.margin shape content ++ (Wrap.openTag name ++
        (Wrap.body shape s.settings.indent.text content ++ Wrap.closeTag name)),
        (Wrap.margin shape content).length + 1) := by
  have hblock : Wrap.block name s.settings.indent.text content =
      Wrap.leadingIndent content ++ (Wrap.openTag name ++
        ('\n' :: (Wrap.indentLines s.settings.indent.text content ++
          '\n' :: Wrap.leadingIndent content) ++ Wrap.closeTag name)) := by
    simp [Wrap.block, Text.ofLines_cons_cons]
  have hinline : Wrap.inline name content =
      Wrap.openTag name ++ (content ++ Wrap.closeTag name) := List.append_assoc _ _ _
  cases shape with
  | empty => exact absurd rfl h
  | withinLine => exact congrArg (·, 1) hinline
  | acrossLines => exact congrArg (·, 1) hinline
  | wholeLine => exact congrArg (·, (Wrap.leadingIndent content).length + 1) hblock
  | wholeLines => exact congrArg (·, (Wrap.leadingIndent content).length + 1) hblock

/-- The session once a content of some shape is wrapped, by the text in front of the content and
the text behind it. -/
def wrapAt (s : Session) (name : Text) (shape : Shape) (pre content post : Text) : Session where
  document := ⟨pre ++ (Wrap.margin shape content ++ (Wrap.openTag name ++
    (Wrap.body shape s.settings.indent.text content ++ (Wrap.closeTag name ++ post)))),
    s.document.ending⟩
  selections :=
    [.caret ((Position.origin.afterText (pre ++ Wrap.margin shape content)).right 1)]
  settings := s.settings
  dialect := s.dialect

/-- Wrapping the one selection in a tag of a given name is never refused. -/
theorem execute_surroundWithTag (hs : s.selections = [selection])
    (hcut : s.document.CutAt (s.wrapRange selection) pre content post)
    (hsome : ¬(s.wrapRange selection).isEmpty) (name : Text) :
    s.execute (.surroundWithTag (some name)) = .ok (.applied 1 s.settings.autoRename,
      s.wrapAt name (s.document.shape (s.wrapRange selection)) pre content post) := by
  let shape := s.document.shape (s.wrapRange selection)
  let margin := Wrap.margin shape content
  let text : Text := margin ++ (Wrap.openTag name ++
    (Wrap.body shape s.settings.indent.text content ++ Wrap.closeTag name))
  have hedit : s.wrapEdit (some name) selection = (⟨s.wrapRange selection, text⟩,
      .place (s.document.offsetAt (s.wrapRange selection).start) (margin.length + 1)) := by
    have hwrapped := s.wrapped_eq name content (Document.shape_ne_empty (d := s.document) hsome)
    rw [wrapEdit]
    simp only [wrapName, Option.getD_some, hcut.slice_eq, hwrapped]
    rfl
  have hplan : (EditPlan.empty.add ⟨s.wrapRange selection, text⟩).edits =
      [⟨s.wrapRange selection, text⟩] := by
    rw [EditPlan.add, dif_neg]
    · rfl
    · simp [Edit.isNoop, hsome]
  have hadvance : margin.length + 1 ≤ text.length := by
    simp only [text, Wrap.openTag, List.length_append, List.length_cons]
    omega
  have htake : text.take (margin.length + 1) = margin ++ ['<'] :=
    List.take_length_add_append 1
  have hcaret : Position.origin.afterText (pre ++ (margin ++ ['<'])) =
      (Position.origin.afterText (pre ++ margin)).right 1 := by
    rw [← List.append_assoc, Position.afterText_append]
    exact Position.after_of_ne (c := '<') (by decide)
  have hcommit := commit_singleton hcut hplan hadvance
  rw [htake, hcaret] at hcommit
  have htext : text ++ post = margin ++ (Wrap.openTag name ++
      (Wrap.body shape s.settings.indent.text content ++ (Wrap.closeTag name ++ post))) := by
    simp only [text, List.append_assoc]
  rw [execute_of_ne_nil (hs ▸ List.cons_ne_nil _ _), action, result_surroundWithTag,
    result_insertTags, hs, List.map_singleton, hedit, wrapAt, ← htext, List.map_singleton,
    List.foldl_cons, List.foldl_nil, hcommit]
  rfl

end Session

end MarkupPairs
