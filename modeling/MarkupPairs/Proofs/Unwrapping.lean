import MarkupPairs.Proofs.BareElement
import MarkupPairs.Proofs.FlatDeletion
import MarkupPairs.Proofs.PairDeletion
import MarkupPairs.Proofs.Wrapping

/-!
# Unwrapping what was wrapped

Right after a selection is wrapped, deleting the surrounding pair takes the two new tags away again.
Inline this gives the text back. A block loses the lines of its tags, and what stays is the
indentation of its content.
-/

namespace MarkupPairs

/-- To change the lines between two numbers is to change a part of the lines. -/
theorem Text.mapIdx_between {above inside below : List Text} {first last : Nat} (unit : Text)
    (hfirst : above.length = first) (hlast : first + inside.length = last + 1) :
    (above ++ (inside ++ below)).mapIdx
        (fun n l => if first ≤ n ∧ n ≤ last then unit ++ l else l) =
      above ++ (inside.map (unit ++ ·) ++ below) := by
  have hcongr {f : Nat → Text → Text} {g : Text → Text} {ls : List Text}
      (h : ∀ n < ls.length, ∀ l, f n l = g l) : ls.mapIdx f = ls.map g := by
    apply List.ext_getElem
    · simp
    · intro n hn hlt
      simp [h n (by simpa using hlt)]
  rw [List.mapIdx_append, List.mapIdx_append, hcongr (g := id), hcongr (g := (unit ++ ·)),
    hcongr (g := id), List.map_id, List.map_id]
  · intro n hn l
    exact if_neg (by omega)
  · intro n hn l
    exact if_pos (by omega)
  · intro n hn l
    exact if_neg (by omega)

namespace Document

variable {d : Document} {p : Position} {r : Range} {pre a mid b post : Text}

/-- Two parts of a text that do not touch leave what is around them. -/
theorem keptText_pair (hdiv : d.DividedAt p pre (a ++ (mid ++ (b ++ post)))) (hmid : mid ≠ []) :
    Cell.keptText [Range.spanning p a, Range.spanning ((p.afterText a).afterText mid) b] d.cells =
      pre ++ (mid ++ post) := by
  have hinside := hdiv.append
  have hbehind := hinside.append
  have hlast := hbehind.append
  let first : Range := Range.spanning p a
  let second : Range := Range.spanning ((p.afterText a).afterText mid) b
  let splice (r : Range) : Splice := ⟨d.offsetAt r.start, d.offsetAt r.stop, []⟩
  have hkept : Splice.applyAll ([first, second].map splice) d.text =
      Cell.keptText [first, second] d.cells := by
    apply Splice.applyAll_eq_keptText
    · rw [List.forall_mem_cons, List.forall_mem_singleton]
      exact ⟨exists_cutsOut hdiv.isValid hinside.isValid,
        exists_cutsOut hbehind.isValid hlast.isValid⟩
    · rw [List.pairwise_pair]
      exact Position.lt_afterText hmid
  have hsecond : (splice second).apply d.text = pre ++ (a ++ (mid ++ post)) := by
    have hcut : d.CutAt second (pre ++ a ++ mid) b post := ⟨hbehind, rfl⟩
    have happly := hcut.apply_spliceOf []
    rw [List.append_assoc, List.append_assoc, List.nil_append] at happly
    exact happly
  have hfirst : (splice first).apply (pre ++ (a ++ (mid ++ post))) = pre ++ (mid ++ post) := by
    have hstart : d.offsetAt first.start = pre.length := hdiv.offsetAt
    have hstop : d.offsetAt first.stop = (pre ++ a).length := hinside.offsetAt
    simp only [splice, Splice.apply, hstart, hstop]
    rw [List.take_left, ← List.append_assoc pre a, List.drop_left, List.append_nil]
  rw [← hkept, ← hfirst, ← hsecond]
  rfl

/-- Without the tags of an element with bare tags, the lines of the rest survive, but not those that
had a tag and are not worth keeping any more. -/
theorem survivors_bare {n : TagName}
    (hdiv : d.DividedAt p pre (n.bare.opening.angled ++ (mid ++ (n.bare.closing.angled ++ post))))
    (hmid : mid ≠ []) :
    d.survivors [(n.bare.openingTag p).range, (n.bare.closingTag
        ((p.afterText n.bare.opening.angled).afterText mid)).range] =
      Text.dropResidue [p.line, p.line + mid.count '\n'] 0 (Text.lines (pre ++ (mid ++ post))) := by
  let q := (p.afterText n.bare.opening.angled).afterText mid
  let ranges : List Range :=
    [Range.spanning p n.bare.opening.angled, Range.spanning q n.bare.closing.angled]
  have hclosing : d.DividedAt q _ (n.bare.closing.angled ++ post) := hdiv.append.append
  have hflat : ∀ r ∈ ranges, r.start ≠ r.stop ∧ r.start.line = r.stop.line := by
    rw [List.forall_mem_cons, List.forall_mem_singleton]
    exact ⟨flat_spanning (List.cons_ne_nil _ _) n.lineFeed_not_mem_opening,
      flat_spanning (List.cons_ne_nil _ _) n.lineFeed_not_mem_closing⟩
  have hfeeds : ∀ cell ∈ d.cells, cell.char = '\n' →
      ranges.any (·.covers cell.position) = false := by
    intro cell hcell hchar
    rw [List.any_cons, List.any_cons, List.any_nil,
      not_covers_lineFeed hdiv n.lineFeed_not_mem_opening hcell hchar,
      not_covers_lineFeed hclosing n.lineFeed_not_mem_closing hcell hchar]
    rfl
  have hline : q.line = p.line + mid.count '\n' := by
    rw [Position.line_afterText, Position.line_afterText,
      List.count_eq_zero_of_not_mem n.lineFeed_not_mem_opening]
    rfl
  have hnumbers : ranges.map (·.start.line) = [p.line, p.line + mid.count '\n'] :=
    congrArg (fun line => [p.line, line]) hline
  rw [← keptText_pair hdiv hmid, ← hnumbers]
  exact survivors_of_flat hflat hfeeds

/-- Whatever stands in place of complete lines, the lines above and below stay. -/
theorem CutAt.exists_lines_eq (h : d.CutAt r pre mid post) (hblock : (d.shape r).isBlock) :
    ∃ above below, above.length = r.start.line ∧
      ∀ t : Text, Text.lines (pre ++ (t ++ post)) = above ++ (t.lines ++ below) := by
  obtain ⟨hstart, hstop⟩ := ends_of_isBlock hblock
  have hleft : (Text.lines pre).getLast (Text.lines_ne_nil pre) = [] := by
    apply List.eq_nil_of_length_eq_zero
    rw [← h.divided.character_eq, hstart]
  have hright : (Text.lines post).head (Text.lines_ne_nil post) = [] := by
    apply List.eq_nil_of_length_eq_zero
    have hline := congrArg List.length h.dividedAt_stop.line_eq
    have hcharacter := congrArg Position.character hstop
    rw [List.length_append, ← h.dividedAt_stop.character_eq, hcharacter] at hline
    simpa [lineStop, lineLength] using hline
  refine ⟨(Text.lines pre).dropLast, (Text.lines post).tail, ?_, ?_⟩
  · rw [h.divided.position_eq, Text.afterText_origin]
  · intro t
    rw [Text.lines_append_of_getLast hleft, Text.lines_append_of_head hright]

/-- The document with a unit of indentation in front of every line of a range. -/
def indented (d : Document) (unit : Text) (r : Range) : Document :=
  ⟨Text.ofLines (d.lines.mapIdx fun n l =>
    if r.start.line ≤ n ∧ n ≤ r.stop.line then unit ++ l else l), d.ending⟩

end Document

namespace Session

variable {s : Session} {selection : Selection} {t : Tag} {shape : Shape} {n : TagName}
  {pre content post : Text}

/-- The element around the primary caret is unwrapped line by line: its tag and the partner of that
go. -/
theorem exists_execute_deleteSurroundingPair {ranges : List Range}
    (htag : (s.selections.head?.map Selection.active).bind
      (s.document.surroundingTag? s.settings.limits) = some t)
    (hpartner : t.isSelfClosing ∨ (s.document.partner? s.settings.limits t).isSome)
    (hranges : t.range :: (s.document.partner? s.settings.limits t).toList.map Tag.range = ranges)
    (hvalid : RangeSet.AllEnds (s.document.isValid ·) ranges) :
    ∃ count after, s.execute .deleteSurroundingPair = .ok (.applied count false, after) ∧
      after.document = ⟨Text.ofLines (s.document.survivors ranges), s.document.ending⟩ := by
  have hsome : s.selections ≠ [] := by
    intro hnil
    rw [hnil] at htag
    cases htag
  have hfound : (!t.isSelfClosing && (s.document.partner? s.settings.limits t).isNone) = false := by
    rw [← Option.not_isSome, ← Bool.not_or, Bool.not_eq_false', Bool.or_eq_true]
    exact hpartner
  obtain ⟨count, after, hcommit, hafter⟩ := s.exists_commit_deleteAll
    (Document.allEnds_deletedRanges hvalid) (s.selections.map s.keep)
  rw [Document.keptText_deletedRanges hvalid] at hafter
  refine ⟨count, after, ?_, hafter⟩
  rw [execute_of_ne_nil hsome, action, result_deleteSurroundingPair, htag]
  simp only [hfound, hranges, Bool.false_eq_true, if_false]
  rw [Document.deletionPlan, hcommit]
  rfl

/-- An element with bare tags is unwrapped from right behind the `<` of its opening tag. -/
theorem exists_execute_deleteSurroundingPair_bare {p : Position} {mid : Text}
    (hdiv : s.document.DividedAt p pre
      (n.bare.opening.angled ++ (mid ++ (n.bare.closing.angled ++ post))))
    (hcaret : s.selections.head?.map Selection.active = some (p.right 1)) (hmid : mid ≠ [])
    (hopen : '<' ∉ mid) (henclosing : 1 ≤ s.settings.limits.enclosing)
    (hpaired : mid.count '\n' < s.settings.limits.paired) :
    ∃ count after, s.execute .deleteSurroundingPair = .ok (.applied count false, after) ∧
      after.document = ⟨Text.ofLines (Text.dropResidue [p.line, p.line + mid.count '\n'] 0
        (Text.lines (pre ++ (mid ++ post)))), s.document.ending⟩ := by
  rw [← Document.survivors_bare hdiv hmid]
  have hpartner := Document.partner?_bare hdiv hopen hpaired
  apply exists_execute_deleteSurroundingPair (t := n.bare.openingTag p)
  · rw [hcaret, Option.bind_some]
    exact Document.surroundingTag?_bare hdiv henclosing
  · exact .inr (Option.isSome_of_eq_some hpartner)
  · rw [hpartner]
    rfl
  · rw [RangeSet.allEnds_cons, RangeSet.AllEnds, List.forall_mem_singleton]
    exact ⟨⟨hdiv.isValid, hdiv.append.isValid⟩, hdiv.append.append.isValid,
      hdiv.append.append.append.isValid⟩

/-- Where the opening tag of a wrapped content stands. -/
theorem dividedAt_wrapAt (s : Session) (n : TagName) (shape : Shape) (pre content post : Text) :
    (s.wrapAt n.text shape pre content post).document.DividedAt
      (Position.origin.afterText (pre ++ Wrap.margin shape content))
      (pre ++ Wrap.margin shape content)
      (n.bare.opening.angled ++ (Wrap.body shape s.settings.indent.text content ++
        (n.bare.closing.angled ++ post))) := by
  refine ⟨?_, rfl⟩
  rw [wrapAt, n.angled_opening_bare, n.angled_closing_bare, List.append_assoc]

/-- What is left of a content that is wrapped once the tags are deleted, by the text in front of the
content and the text behind it. -/
def unwrapped (unit : Text) (shape : Shape) (pre content post : Text) : Text :=
  let first := (Position.origin.afterText (pre ++ Wrap.margin shape content)).line
  let body := Wrap.body shape unit content
  Text.ofLines (Text.dropResidue [first, first + body.count '\n'] 0
    (Text.lines ((pre ++ Wrap.margin shape content) ++ (body ++ post))))

/-- The new tags go from the lines that they are on, and a line with nothing else on it goes. -/
theorem exists_execute_deleteSurroundingPair_wrapAt (s : Session) (n : TagName) (shape : Shape)
    (pre post : Text) (hcontent : content ≠ []) (hopen : '<' ∉ content)
    (henclosing : 1 ≤ s.settings.limits.enclosing)
    (hpaired : content.count '\n' + 2 < s.settings.limits.paired) :
    ∃ count after, (s.wrapAt n.text shape pre content post).execute .deleteSurroundingPair =
        .ok (.applied count false, after) ∧
      after.document =
        ⟨unwrapped s.settings.indent.text shape pre content post, s.document.ending⟩ := by
  have hunit {c : Char} (hspace : c ≠ ' ') (htab : c ≠ '\t') : c ∉ s.settings.indent.text :=
    s.settings.indent.not_mem_text hspace htab
  apply exists_execute_deleteSurroundingPair_bare (s.dividedAt_wrapAt n shape pre content post) rfl
  · exact Wrap.body_ne_nil hcontent
  · exact Wrap.open_not_mem_body (hunit (by decide) (by decide)) hopen
  · exact henclosing
  · exact Nat.lt_of_le_of_lt (Wrap.count_body_le (hunit (by decide) (by decide)) shape content)
      hpaired

/-- Inline, nothing but the tags goes, unless one of their lines is not worth keeping. -/
theorem unwrapped_inline {d : Document} {r : Range} (hcut : d.CutAt r pre content post)
    (hshape : shape.isBlock = false) (unit : Text)
    (hlines : ∀ k ∈ [r.start.line, r.stop.line], LineDeletion.isResidue (d.line k) = false) :
    unwrapped unit shape pre content post = d.text := by
  have hmargin : Wrap.margin shape content = [] := by rw [Wrap.margin, hshape]; rfl
  have hbody : Wrap.body shape unit content = content := by rw [Wrap.body, hshape]; rfl
  simp only [unwrapped, hmargin, hbody, List.append_nil]
  rw [← hcut.divided.position_eq, ← hcut.stop_line_eq, ← hcut.text_eq, Text.dropResidue_eq_self,
    Text.ofLines_lines]
  intro k hk l hl _
  have hline : d.line k = l := by
    rw [Document.line, Document.lines, ← Nat.sub_zero k, hl]
    rfl
  exact hline ▸ hlines k hk

/-- Of a block the lines of the tags go as well. -/
theorem unwrapped_block {d : Document} {r : Range} (hcut : d.CutAt r pre content post)
    (hblock : (d.shape r).isBlock) {unit : Text} (hunit : '\n' ∉ unit) :
    (⟨unwrapped unit (d.shape r) pre content post, d.ending⟩ : Document) = d.indented unit r := by
  let indent := Wrap.leadingIndent content
  let body := Wrap.body (d.shape r) unit content
  let inside := content.lines.map (unit ++ ·)
  obtain ⟨above, below, habove, hlines⟩ := hcut.exists_lines_eq hblock
  have horiginal : d.lines = above ++ (content.lines ++ below) := by
    rw [Document.lines, hcut.text_eq, hlines]
  have hmargin : Wrap.margin (d.shape r) content = indent := if_pos hblock
  have hbody : body = '\n' :: (Wrap.indentLines unit content ++ '\n' :: indent) := if_pos hblock
  have hbare : Text.lines ((pre ++ indent) ++ (body ++ post)) =
      above ++ indent :: (inside ++ indent :: below) := by
    have hparts : (pre ++ indent) ++ (body ++ post) = pre ++ ((indent ++ body) ++ post) := by
      simp only [List.append_assoc]
    rw [hparts, hlines, hbody, Wrap.lines_block hunit]
    simp [inside, indent]
  have hfirst : (Position.origin.afterText (pre ++ indent)).line = above.length := by
    rw [Position.afterText_append, Position.line_afterText, ← hcut.divided.position_eq, habove,
      List.count_eq_zero_of_not_mem (Wrap.flat_leadingIndent content), Nat.add_zero]
  have hlast : above.length + body.count '\n' = above.length + 1 + inside.length := by
    rw [Wrap.count_body_of_isBlock hunit hblock, List.length_map, Text.length_lines]
    omega
  have hleft : unwrapped unit (d.shape r) pre content post =
      Text.ofLines (above ++ (inside ++ below)) := by
    have hresidue : LineDeletion.isResidue indent := Wrap.isResidue_leadingIndent content
    simp only [unwrapped, hmargin]
    rw [hfirst, hlast, hbare, Text.dropResidue_pair hresidue hresidue]
  rw [hleft, Document.indented, horiginal, Text.mapIdx_between unit habove]
  rw [Text.length_lines, hcut.stop_line_eq]
  omega

/-- Wrapping a selection in a tag and deleting the surrounding pair takes the tags away again. It
gives back an inline selection as it was, where the lines of the tags are worth keeping without
them, and leaves complete lines indented. -/
theorem execute_surroundWithTag_deleteSurroundingPair (s : Session) (selection : Selection)
    (n : TagName) (hs : s.selections = [selection]) (hvalid : s.IsValid)
    (hsome : ¬(s.wrapRange selection).isEmpty)
    (hopen : '<' ∉ s.document.slice (s.wrapRange selection))
    (henclosing : 1 ≤ s.settings.limits.enclosing)
    (hpaired : (s.wrapRange selection).stop.line - (s.wrapRange selection).start.line + 1 + 2 <
      s.settings.limits.paired) :
    ∃ (count : Nat) (wrapped after : Session),
      s.execute (.surroundWithTag (some n.text)) =
        .ok (.applied 1 s.settings.autoRename, wrapped) ∧
      wrapped.execute .deleteSurroundingPair = .ok (.applied count false, after) ∧
      let r := s.wrapRange selection
      let shape := s.document.shape r
      (shape = .withinLine ∨ shape = .acrossLines →
        (∀ k ∈ [r.start.line, r.stop.line],
          (s.document.line k).trim ≠ [] ∧ (s.document.line k).trim ≠ [';']) →
        after.document = s.document) ∧
      (shape = .wholeLine ∨ shape = .wholeLines →
        after.document = s.document.indented s.settings.indent.text r) := by
  obtain ⟨hanchor, hactive⟩ := hvalid selection (hs ▸ List.mem_singleton_self selection)
  obtain ⟨hstart, hstop⟩ := Selection.isValid_range hanchor hactive
  obtain ⟨hstart, hstop⟩ := Document.isValid_trimLineStart hstart hstop
  obtain ⟨pre, post, hcut⟩ : ∃ pre post, s.document.CutAt (s.wrapRange selection) pre
      (s.document.slice (s.wrapRange selection)) post := Document.exists_cutAt hstart hstop
  have hcontent : s.document.slice (s.wrapRange selection) ≠ [] := by
    intro hnil
    have heq := hcut.stop_eq
    rw [hnil] at heq
    exact hsome (beq_iff_eq.mpr heq.symm)
  have hwindow : (s.document.slice (s.wrapRange selection)).count '\n' + 2 <
      s.settings.limits.paired := by
    have hlines := hcut.stop_line_eq
    omega
  have hwrap := execute_surroundWithTag hs hcut hsome n.text
  obtain ⟨count, after, hdelete, hafter⟩ :=
    s.exists_execute_deleteSurroundingPair_wrapAt n (s.document.shape (s.wrapRange selection)) pre
      post hcontent hopen henclosing hwindow
  refine ⟨count, _, after, hwrap, hdelete, ?_, ?_⟩
  · intro hinline hlines
    have hshape : (s.document.shape (s.wrapRange selection)).isBlock = false := by
      rcases hinline with heq | heq <;> rw [heq] <;> rfl
    have hkept : ∀ k ∈ [(s.wrapRange selection).start.line, (s.wrapRange selection).stop.line],
        LineDeletion.isResidue (s.document.line k) = false := by
      intro k hk
      rw [LineDeletion.isResidue, Bool.or_eq_false_iff, beq_eq_false_iff_ne, beq_eq_false_iff_ne]
      exact hlines k hk
    rw [hafter]
    exact congrArg (fun text => (⟨text, s.document.ending⟩ : Document))
      (unwrapped_inline hcut hshape s.settings.indent.text hkept)
  · intro hshape
    have hblock : (s.document.shape (s.wrapRange selection)).isBlock := by
      rcases hshape with heq | heq <;> rw [heq] <;> rfl
    rw [hafter]
    exact unwrapped_block hcut hblock
      (s.settings.indent.not_mem_text (by decide) (by decide))

/-- The two lines ` a>` and an empty one, selected up to the start of the line behind them. -/
theorem execute_surroundWithTag_deleteSurroundingPair_lines :
    let s : Session := ⟨⟨['x', '\n', ' ', 'a', '>', '\n', '\n', 'b'], .lf⟩,
      [⟨⟨1, 0⟩, ⟨3, 0⟩⟩], .default, .other⟩
    s.IsValid ∧ ¬(s.wrapRange ⟨⟨1, 0⟩, ⟨3, 0⟩⟩).isEmpty ∧
      '<' ∉ s.document.slice (s.wrapRange ⟨⟨1, 0⟩, ⟨3, 0⟩⟩) ∧
      1 ≤ s.settings.limits.enclosing ∧
      (s.wrapRange ⟨⟨1, 0⟩, ⟨3, 0⟩⟩).stop.line - (s.wrapRange ⟨⟨1, 0⟩, ⟨3, 0⟩⟩).start.line + 1 + 2 <
        s.settings.limits.paired ∧
      ∃ (count : Nat) (wrapped after : Session),
        s.execute (.surroundWithTag (some ['h', '1'])) = .ok (.applied 1 false, wrapped) ∧
        wrapped.execute .deleteSurroundingPair = .ok (.applied count false, after) ∧
        after.document.text =
          ['x', '\n', ' ', ' ', ' ', 'a', '>', '\n', ' ', ' ', '\n', 'b'] := by
  intro s
  have hvalid : s.IsValid := by decide
  have hsome : ¬(s.wrapRange ⟨⟨1, 0⟩, ⟨3, 0⟩⟩).isEmpty := by decide
  have hopen : '<' ∉ s.document.slice (s.wrapRange ⟨⟨1, 0⟩, ⟨3, 0⟩⟩) := by decide
  have henclosing : 1 ≤ s.settings.limits.enclosing := by decide
  have hpaired : (s.wrapRange ⟨⟨1, 0⟩, ⟨3, 0⟩⟩).stop.line -
      (s.wrapRange ⟨⟨1, 0⟩, ⟨3, 0⟩⟩).start.line + 1 + 2 < s.settings.limits.paired := by decide
  obtain ⟨count, wrapped, after, hwrap, hdelete, -, hblock⟩ :=
    execute_surroundWithTag_deleteSurroundingPair s ⟨⟨1, 0⟩, ⟨3, 0⟩⟩
      ⟨'h', ['1'], by decide, by decide⟩ rfl hvalid hsome hopen henclosing hpaired
  refine ⟨hvalid, hsome, hopen, henclosing, hpaired, count, wrapped, after, hwrap, hdelete, ?_⟩
  rw [hblock (.inr (by decide))]
  rfl

end Session

end MarkupPairs
