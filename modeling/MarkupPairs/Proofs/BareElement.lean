import MarkupPairs.Proofs.Lines
import MarkupPairs.Proofs.Partner
import MarkupPairs.Proofs.Surrounding
import MarkupPairs.Wrap

/-!
# Elements with bare tags

Two tags that say nothing but a name, on one line each, with no `<` between them. Whatever the text
around them and the `>` between them say, the opening tag is found right behind its `<`, and the
closing tag is its partner.
-/

namespace MarkupPairs

namespace TagName

/-- The tags of a name without attributes and blanks. -/
def bare (n : TagName) : Shell :=
  .element n ⟨⟨[], rfl, List.forall_mem_nil _⟩, nofun⟩ ⟨[], rfl⟩

theorem angled_opening_bare (n : TagName) : n.bare.opening.angled = Wrap.openTag n.text := by
  change Text.angled (n.text ++ []) = _
  rw [List.append_nil]
  rfl

theorem angled_closing_bare (n : TagName) : n.bare.closing.angled = Wrap.closeTag n.text := by
  change Text.angled ('/' :: n.text ++ []) = _
  rw [List.append_nil]
  rfl

theorem lineFeed_not_mem (n : TagName) : '\n' ∉ n.text := fun h =>
  Unicode.ne_of_isAlphanum (n.isAlphanum h) (by decide) rfl

theorem lineFeed_not_mem_opening (n : TagName) : '\n' ∉ n.bare.opening.angled := by
  rw [angled_opening_bare]
  simp [Wrap.openTag, n.lineFeed_not_mem]

theorem lineFeed_not_mem_closing (n : TagName) : '\n' ∉ n.bare.closing.angled := by
  rw [angled_closing_bare]
  simp [Wrap.closeTag, n.lineFeed_not_mem]

end TagName

/-- A window over some lines holds a text that stops on one of them. -/
theorem Cell.takeWhile_layOut_line {p : Position} {t rest : Text} {bound : Nat}
    (h : (p.afterText t).line < bound) :
    (layOut p (t ++ rest)).takeWhile (·.position.line < bound) =
      layOut p t ++ (layOut (p.afterText t) rest).takeWhile (·.position.line < bound) := by
  rw [layOut_append, List.takeWhile_append_of_pos]
  intro cell hcell
  have hlt := position_lt_of_mem_layOut hcell
  rw [Position.lt_def] at hlt
  rw [decide_eq_true_eq]
  omega

/-- Text without `<` leaves the search forward outside of tags. -/
theorem seekClosing_outside {t : Text} (ht : '<' ∉ t) (wanted : Text) (depth : Nat)
    (p : Position) (ink : Option Char) (rest : List Cell) :
    ∃ ink', seekClosing wanted depth .outside ink (Cell.layOut p t ++ rest) =
      seekClosing wanted depth .outside ink' rest := by
  induction t generalizing p ink with
  | nil => exact ⟨ink, rfl⟩
  | cons c t ih =>
      obtain ⟨hopen, hrest⟩ := not_or.mp (List.mem_cons.not.mp ht)
      rw [Cell.layOut_cons, List.cons_append]
      by_cases hclose : c = '>'
      · subst c
        exact ih hrest _ _
      · rw [seekClosing_other rfl (Ne.symm hopen) hclose]
        exact ih hrest _ _

namespace Document

variable {d : Document} {limits : ScanLimits} {p : Position} {n : TagName}
  {pre content rest post : Text}

/-- Right behind its `<` an opening tag is found, in a window of one line. -/
theorem surroundingTag?_bare (hdiv : d.DividedAt p pre (n.bare.opening.angled ++ rest))
    (hlimits : 1 ≤ limits.enclosing) :
    d.surroundingTag? limits (p.right 1) = some (n.bare.openingTag p) := by
  apply surroundingTag?_of_tagAt?
  have hafter : p.after '<' = p.right 1 := Position.after_of_ne (by decide)
  have hname : ∀ c ∈ n.bare.opening, c ≠ '\n' := by
    intro c hc heq
    apply n.lineFeed_not_mem_opening
    rw [Text.angled, ← heq]
    simp [hc]
  have hinside : d.DividedAt (p.right 1) (pre ++ ['<']) (n.bare.opening ++ '>' :: rest) := by
    rw [Text.angled_append] at hdiv
    exact hafter ▸ hdiv.next
  have hopen : d.openAngle? limits (p.right 1) = some p := by
    have hchar : d.charAt (p.right 1) ≠ some '<' := by
      have hfirst : n.first ≠ '<' := (n.isPlain _ List.mem_cons_self).1
      rw [hinside.charAt]
      intro h
      exact hfirst (Option.some.inj (Option.filter_eq_some_iff.mp h).1)
    have hposition : Position.origin.afterText pre = p := hdiv.position_eq.symm
    rw [openAngle?, if_neg hchar, hinside.cellsBefore, Cell.layOut_append, List.reverse_append,
      hposition, Cell.layOut_cons, Cell.layOut_nil, List.reverse_singleton, List.singleton_append,
      List.takeWhile_cons_of_pos (by simp [Position.right])]
    rfl
  have hclose : d.closeAngle? limits p = some ((p.after '<').afterText n.bare.opening) := by
    have hline : ((p.after '<').afterText (n.bare.opening ++ ['>'])).line <
        p.line + limits.enclosing := by
      have hflat : ∀ c ∈ n.bare.opening ++ ['>'], c ≠ '\n' := by
        rw [List.forall_mem_append]
        exact ⟨hname, List.forall_mem_singleton.mpr (by decide)⟩
      rw [Position.afterText_of_flat hflat, hafter]
      exact Nat.lt_add_of_pos_right hlimits
    have hcells : d.cellsAfter p =
        Cell.layOut (p.after '<') ((n.bare.opening ++ ['>']) ++ rest) := by
      rw [Text.angled, List.cons_append, List.cons_append] at hdiv
      exact hdiv.cellsAfter
    rw [closeAngle?, hcells, Cell.takeWhile_layOut_line hline, Cell.layOut_append,
      List.append_assoc, Cell.seek_layOut n.bare.isPlain_opening.isBalanced]
    rfl
  rw [tagAt?_eq hopen hclose hdiv, if_neg, n.bare.parse?_opening]
  · rfl
  · rw [hafter, Position.not_lt]
    exact Position.le_afterText _ _

/-- From a bare opening tag on, the closing tag is found if it is in the window. -/
theorem partner?_bare
    (hdiv : d.DividedAt p pre
      (n.bare.opening.angled ++ (content ++ (n.bare.closing.angled ++ post))))
    (hcontent : '<' ∉ content) (hlimits : content.count '\n' < limits.paired) :
    d.partner? limits (n.bare.openingTag p) =
      some (n.bare.closingTag ((p.afterText n.bare.opening.angled).afterText content)) := by
  have hstop : d.DividedAt (p.afterText n.bare.opening.angled) _ _ := hdiv.append
  have hline : ((p.afterText n.bare.opening.angled).afterText
      (content ++ n.bare.closing.angled)).line <
        (p.afterText n.bare.opening.angled).line + limits.paired := by
    rw [Position.line_afterText, List.count_append,
      List.count_eq_zero_of_not_mem n.lineFeed_not_mem_closing]
    omega
  change d.closingTag? limits n.bare.name (p.afterText n.bare.opening.angled) = _
  rw [← List.append_assoc] at hstop
  obtain ⟨ink, hpass⟩ := seekClosing_outside hcontent n.bare.name 0
    (p.afterText n.bare.opening.angled) none _
  rw [closingTag?, hstop.cellsFrom, Cell.takeWhile_layOut_line hline, Cell.layOut_append,
    List.append_assoc, hpass, n.bare.seekClosing_own]

end Document

end MarkupPairs
