import MarkupPairs.Proofs.FoundTags
import MarkupPairs.Proofs.Lines
import MarkupPairs.Tag.ClassList

/-!
# The place after the name of a tag

Where a tag has no class list, the place for the caret is counted out from the start of the tag: one
character for the `<`, one for the slash of a closing tag, and the length of the name. That is the
end of the name as long as nothing else stands in front of it. Reading a tag passes over blanks and
line feeds there as well, and behind these the place is inside the name, in front of it, or on no
line of the document at all.
-/

namespace MarkupPairs

namespace Tag

/-- How the head of a tag is spelled when the name stands right behind the `<` and the slash. -/
def head (t : Tag) : Text := '<' :: ((if t.kind = .closing then ['/'] else []) ++ t.name)

theorem length_head (t : Tag) :
    t.head.length = 1 + (if t.kind = .closing then 1 else 0) + t.name.length := by
  rw [head, List.length_cons, List.length_append]
  split
  next => simp only [List.length_singleton]; omega
  next => simp only [List.length_nil]; omega

theorem name_suffix_head (t : Tag) : t.name <:+ t.head :=
  (List.suffix_append _ _).trans (List.suffix_cons _ _)

theorem not_mem_head {t : Tag} (h : IsName t.name) {c : Char} (hc : isNameRest c = false)
    (hopen : c ≠ '<') (hslash : c ≠ '/') : c ∉ t.head := by
  have hname : c ∉ t.name := fun hmem => by simp [h.isNameRest c hmem] at hc
  rw [head]
  split
  next => simp [hopen, hslash, hname]
  next => simp [hopen, hname]

/-- A slash that is not the first character has only blanks in front of it. -/
theorem splitSlash_cons {c : Char} {s : Text} (hc : c ≠ '/') (h : (splitSlash (c :: s)).1 = true) :
    (splitSlash s).1 = true := by
  by_cases hwhite : Unicode.isWhite c
  · have htrim : Text.trimStart (c :: s) = Text.trimStart s := by
      rw [Text.trimStart, List.dropWhile_cons, if_pos hwhite]
      rfl
    rw [splitSlash, htrim] at h
    exact h
  · have htrim : Text.trimStart (c :: s) = c :: s := by
      rw [Text.trimStart, List.dropWhile_cons, if_neg hwhite]
    rw [splitSlash, htrim] at h
    split at h
    next heq => exact absurd (List.cons.inj heq).1 hc
    next => cases h

/-- In a closing tag with one character in front of the name, that is the slash. -/
theorem eq_slash_of_closing {s rest : Text} {c : Char} {r : Range} {t : Tag}
    (h : parse? s.angled r = some t) (hkind : t.kind = .closing)
    (hs : s ++ ['>'] = c :: (t.name ++ rest)) : c = '/' := by
  by_cases hopening : s = []
  · rw [hopening, parse?_angled_nil] at h
    rw [← Option.some.inj h] at hkind
    cases hkind
  by_cases hclosing : s = ['/']
  · rw [hclosing] at hs
    exact (List.cons.inj hs).1.symm
  rw [parse?_angled hopening hclosing] at h
  obtain ⟨name, hname, rfl⟩ := Option.map_eq_some_iff.mp h
  obtain ⟨first, more, -, hfirst, rfl⟩ := leadingName_eq_some_iff.mp hname
  have hsplit : (splitSlash (s ++ ['>'])).1 = true := by
    by_contra hnone
    rw [if_neg hnone] at hkind
    split at hkind
    next => cases hkind
    next => cases hkind
  by_contra hc
  rw [hs] at hsplit
  have hrest := splitSlash_cons hc hsplit
  rw [List.cons_append, splitSlash_of_isAlpha hfirst] at hrest
  cases hrest

/-- As many characters of a tag as its head has, with the name at the end, are the head. -/
theorem eq_head_of_suffix {s near rest : Text} {r : Range} {t : Tag}
    (h : parse? s.angled r = some t) (hs : s.angled = near ++ rest)
    (hlength : near.length = t.head.length) (hname : t.name <:+ near) : near = t.head := by
  obtain ⟨front, rfl⟩ := hname
  rw [length_head, List.length_append, Nat.add_right_cancel_iff] at hlength
  obtain ⟨c, front, rfl⟩ : ∃ c more, front = c :: more :=
    List.exists_cons_of_length_pos (by omega)
  rw [List.length_cons, Nat.add_comm 1, Nat.add_right_cancel_iff] at hlength
  obtain ⟨rfl, hinner⟩ : '<' = c ∧ s ++ ['>'] = front ++ t.name ++ rest := List.cons.inj hs
  rw [head]
  by_cases hkind : t.kind = .closing
  · rw [if_pos hkind] at hlength ⊢
    obtain ⟨x, rfl⟩ := List.length_eq_one_iff.mp hlength
    rw [eq_slash_of_closing h hkind hinner]
    rfl
  · rw [if_neg hkind] at hlength ⊢
    rw [List.length_eq_zero_iff.mp hlength]
    rfl

end Tag

namespace Document

variable {d : Document} {t : Tag}

/-- Whether a position is behind the name of a tag: it is inside the tag, and the text from the
start of the tag ends with the name there. -/
def IsBehindName (d : Document) (t : Tag) (p : Position) : Prop :=
  d.isValid p ∧ t.range.start < p ∧ p < t.range.stop ∧
    t.name <:+ d.slice (Range.between t.range.start p)

instance (d : Document) (t : Tag) (p : Position) : Decidable (d.IsBehindName t p) :=
  inferInstanceAs (Decidable (_ ∧ _ ∧ _ ∧ _))

theorem position_of_endOfName (h : (d.classPlace t).kind = .endOfName) :
    (d.classPlace t).position = d.nameStop t := by
  rw [classPlace] at h ⊢
  split at h
  next => cases h
  next => rfl

theorem nameStop_eq (h : d.isValid t.range.start) :
    d.nameStop t = t.range.start.right t.head.length := by
  rw [nameStop, if_pos h, Tag.length_head]

/-- The place after the name of a tag is behind the name if and only if the tag is spelled with its
name right behind the `<`, or behind the slash of a closing tag. -/
theorem isBehindName_classPlace_iff (h : d.Finds t)
    (hkind : (d.classPlace t).kind = .endOfName) :
    d.IsBehindName t (d.classPlace t).position ↔ t.head <+: d.slice t.range := by
  obtain ⟨pre, inner, post, hwritten⟩ := h.exists_writtenIn
  have hname := h.isName
  rw [position_of_endOfName hkind, nameStop_eq hwritten.divided.isValid, hwritten.slice_eq]
  constructor
  · rintro ⟨hvalid, hlt, hstop, hsuffix⟩
    rw [hwritten.stop_eq] at hstop
    obtain ⟨near, rest, hsplit, -, hposition, -⟩ :=
      hwritten.divided.exists_split hvalid (Position.le_of_lt hlt) hstop
    obtain ⟨-, hlength⟩ := Position.afterText_eq_right hposition.symm
    have hdiv := hwritten.divided
    rw [hsplit, List.append_assoc] at hdiv
    rw [hposition, Range.between_afterText, hdiv.slice] at hsuffix
    refine ⟨rest, ?_⟩
    rw [← Tag.eq_head_of_suffix hwritten.parse_eq hsplit hlength hsuffix, hsplit]
  · rintro ⟨rest, hrest⟩
    have hdiv := hwritten.divided
    rw [← hrest, List.append_assoc] at hdiv
    have hflat : ∀ c ∈ t.head, c ≠ '\n' := fun c hc heq =>
      Tag.not_mem_head hname (by decide) (by decide) (by decide) (heq ▸ hc)
    have hbehind : rest ≠ [] := by
      rintro rfl
      have hclose : '>' ∈ t.head := by
        rw [← List.append_nil t.head, hrest, Text.angled]
        simp
      exact Tag.not_mem_head hname (by decide) (by decide) (by decide) hclose
    rw [← Position.afterText_of_flat hflat]
    refine ⟨hdiv.append.isValid, Position.lt_afterText (List.cons_ne_nil _ _), ?_, ?_⟩
    · rw [hwritten.stop_eq, ← hrest, Position.afterText_append]
      exact Position.lt_afterText hbehind
    · rw [Range.between_afterText, hdiv.slice]
      exact t.name_suffix_head

/-- In a closing tag with a line feed behind its name. -/
theorem isBehindName_classPlace_iff_closing :
    let d : Document := ⟨['<', '/', 'a', '\n', '>'], .lf⟩
    let t : Tag := ⟨['a'], .closing, ⟨⟨0, 0⟩, ⟨1, 1⟩, by decide⟩⟩
    d.Finds t ∧ (d.classPlace t).kind = .endOfName ∧ t.head <+: d.slice t.range ∧
      d.IsBehindName t (d.classPlace t).position := by
  intro d t
  have htag : d.enclosingTag? .default ⟨0, 2⟩ = some t := by decide
  have hkind : (d.classPlace t).kind = .endOfName := by decide
  have hhead : t.head <+: d.slice t.range := by decide
  exact ⟨.under htag, hkind, hhead, (isBehindName_classPlace_iff (.under htag) hkind).mpr hhead⟩

/-- In `< div>` the place after the name is in front of the last letter, and in a tag with a line
feed in front of its name the place is not in the document. -/
theorem not_isBehindName_classPlace :
    (let d : Document := ⟨['<', ' ', 'd', 'i', 'v', '>'], .lf⟩
    let t : Tag := ⟨['d', 'i', 'v'], .opening, ⟨⟨0, 0⟩, ⟨0, 6⟩, by decide⟩⟩
    d.Finds t ∧ d.classPlace t = ⟨⟨0, 4⟩, .endOfName⟩ ∧ ¬d.IsBehindName t ⟨0, 4⟩) ∧
    let d : Document := ⟨['<', '\n', 'a', '>'], .lf⟩
    let t : Tag := ⟨['a'], .opening, ⟨⟨0, 0⟩, ⟨1, 2⟩, by decide⟩⟩
    d.Finds t ∧ d.classPlace t = ⟨⟨0, 2⟩, .endOfName⟩ ∧ d.isValid ⟨0, 2⟩ = false := by
  constructor
  · intro d t
    have htag : d.enclosingTag? .default ⟨0, 1⟩ = some t := by decide
    exact ⟨.under htag, by decide, by decide⟩
  · intro d t
    have htag : d.enclosingTag? .default ⟨0, 0⟩ = some t := by decide
    exact ⟨.under htag, by decide, by decide⟩

end Document

end MarkupPairs
