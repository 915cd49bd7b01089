import MarkupPairs.Proofs.Ancestor
import MarkupPairs.Proofs.TagReading

/-!
# The search for the ancestor in a forest

Going backward over a whole forest the search for the ancestor ends in the state that it started in:
the count goes up and down again with each element and each element by itself, and a comment is
entered at its `-->` and left at its own `<!--`. So the search stops at the opening tag of the
element that it started in.
-/

namespace MarkupPairs

/-- The characters just before the `>` of a text in angles. -/
theorem Cell.take_reverse_layOut (inner : Text) (p q : Position) (before : List Cell) :
    (((layOut p inner).reverse ++ ⟨q, '<'⟩ :: before).take 2).map char =
      (inner.reverse ++ '<' :: text before).take 2 := by
  rw [List.map_take, List.map_append, List.map_reverse, ← text, text_layOut]
  rfl

section Tags

variable {depth : Nat} {behind : Text} {p : Position} {before : List Cell}

/-- The `>` of a tag that is no element by itself changes nothing, unless dashes stand before it. -/
theorem seekAncestor_angled {inner : Text} (hplain : inner.IsPlain)
    (hslash : ¬['/'] <:+ inner ∨ inner = ['/']) (hdashes : ¬['-', '-'] <:+ inner) :
    seekAncestor depth false behind ((Cell.layOut p inner.angled).reverse ++ before) =
      seekAncestor depth false (inner ++ '>' :: behind) (⟨p, '<'⟩ :: before) := by
  rw [Cell.reverse_layOut_angled, List.cons_append, List.append_assoc, List.singleton_append]
  refine Eq.trans ?_ (hplain.seekAncestor depth false ('>' :: behind) (p.after '<') _)
  apply seekAncestor_close_other
  · rw [Cell.take_reverse_layOut]
    intro htake
    apply hdashes
    apply List.reverse_prefix.mp
    cases hreverse : inner.reverse with
    | nil => simp [hreverse] at htake
    | cons x rest =>
        cases rest with
        | nil => simp [hreverse] at htake
        | cons y rest =>
            obtain ⟨rfl, rfl⟩ : x = '-' ∧ y = '-' := by simpa [hreverse] using htake
            exact ⟨rest, rfl⟩
  · rw [Cell.take_reverse_layOut]
    intro hhead
    cases hreverse : inner.reverse with
    | nil => simp [hreverse] at hhead
    | cons x rest =>
        obtain rfl : x = '/' := by simpa [hreverse] using hhead
        have hends : ['/'] <:+ inner := List.reverse_prefix.mp ⟨rest, by rw [hreverse]; rfl⟩
        have hinner := hslash.resolve_left (not_not_intro hends)
        rw [hinner] at hreverse
        obtain ⟨-, rfl⟩ := List.cons.inj hreverse
        rfl

/-- A `<` before a letter or a `>` is what the search stops at, or one element less to close. -/
theorem seekAncestor_open_of_isAlpha {c : Char} {u : Text} (hc : c.isAlpha ∨ c = '>') :
    seekAncestor depth false (c :: u) (⟨p, '<'⟩ :: before) =
      match depth with
      | 0 => some p
      | depth + 1 => seekAncestor depth false ('<' :: c :: u) before := by
  have hslash : c ≠ '/' := by
    rintro rfl
    exact absurd hc (by decide)
  cases depth <;> rw [seekAncestor_open, if_neg hslash, if_pos hc]

theorem TagName.seekAncestor_single (n : TagName) (a : Attributes) :
    seekAncestor depth false behind ((Cell.layOut p (n.single a).angled).reverse ++ before) =
      seekAncestor depth false ((n.single a).angled ++ behind) before := by
  have hsingle : n.single a = (n.text ++ a.text) ++ ['/'] := by rw [single, List.append_assoc]
  have hnil : n.text ++ a.text ≠ [] := List.cons_ne_nil _ _
  have hplain := n.isPlain_single a
  rw [hsingle] at hplain ⊢
  rw [seekAncestor_selfClosing hnil hplain, Text.angled_append]
  exact seekAncestor_open_of_isAlpha (.inl n.first_isAlpha)

namespace Shell

theorem isAlphanum_name (s : Shell) {c : Char} (h : c ∈ s.name) : c.isAlphanum := by
  cases s with
  | element name attributes blank => exact name.isAlphanum h
  | fragment => cases h

theorem isWhite_blank (s : Shell) {c : Char} (h : c ∈ s.blank) : Unicode.isWhite c := by
  cases s with
  | element name attributes blank => exact blank.isWhite h
  | fragment => cases h

/-- Dashes at the end of an opening tag are at the end of its attributes. -/
theorem dashes_not_suffix_opening (s : Shell) (h : ¬['-', '-'] <:+ s.attributes) :
    ¬['-', '-'] <:+ s.opening := by
  intro hdashes
  rcases List.suffix_or_suffix_of_suffix hdashes (List.suffix_append s.name s.attributes) with
    hsuffix | hsuffix
  · exact h hsuffix
  · cases hattributes : s.attributes with
    | nil =>
        rw [opening, hattributes, List.append_nil] at hdashes
        have hname := s.isAlphanum_name (hdashes.subset List.mem_cons_self)
        exact absurd hname (by decide)
    | cons c rest =>
        have hc : c ∈ ['-', '-'] := hsuffix.subset (by rw [hattributes]; exact List.mem_cons_self)
        obtain rfl : c = '-' := by simpa using hc
        have hends := s.readsAs_opening.endsName '-' (by rw [hattributes]; rfl)
        exact absurd hends (by decide)

theorem not_mem_closing (s : Shell) {c : Char} (halnum : c.isAlphanum = false)
    (hwhite : Unicode.isWhite c = false) : c ∉ s.name ++ s.blank := by
  intro h
  rcases List.mem_append.mp h with h | h
  · exact absurd (s.isAlphanum_name h) (by simp [halnum])
  · exact absurd (s.isWhite_blank h) (by simp [hwhite])

theorem dashes_not_suffix_closing (s : Shell) : ¬['-', '-'] <:+ s.closing := by
  intro hdashes
  have hmem : '-' ∈ '/' :: (s.name ++ s.blank) := hdashes.subset List.mem_cons_self
  rcases List.mem_cons.mp hmem with heq | hmem
  · cases heq
  · exact s.not_mem_closing (by decide) (by decide) hmem

theorem slash_suffix_closing (s : Shell) : ¬['/'] <:+ s.closing ∨ s.closing = ['/'] := by
  by_cases hslash : ['/'] <:+ s.closing
  · obtain ⟨init, hinit⟩ := hslash
    cases init with
    | nil => exact .inr hinit.symm
    | cons c init =>
        have hrest : init ++ ['/'] = s.name ++ s.blank := (List.cons.inj hinit).2
        have hmem : '/' ∈ s.name ++ s.blank := hrest ▸ List.mem_append_right _ List.mem_cons_self
        exact absurd hmem (s.not_mem_closing (by decide) (by decide))
  · exact .inl hslash

/-- A closing tag is one element more to close. -/
theorem seekAncestor_closing (s : Shell) :
    seekAncestor depth false behind ((Cell.layOut p s.closing.angled).reverse ++ before) =
      seekAncestor (depth + 1) false (s.closing.angled ++ behind) before := by
  rw [seekAncestor_angled s.isPlain_closing s.slash_suffix_closing s.dashes_not_suffix_closing,
    Text.angled_append, closing, List.cons_append, List.cons_append, seekAncestor_open, if_pos rfl]

/-- An opening tag is what the search stops at, or one element less to close. -/
theorem seekAncestor_opening (s : Shell) (h : ¬['-', '-'] <:+ s.attributes) :
    seekAncestor depth false behind ((Cell.layOut p s.opening.angled).reverse ++ before) =
      match depth with
      | 0 => some p
      | depth + 1 => seekAncestor depth false (s.opening.angled ++ behind) before := by
  obtain ⟨c, u, hu, hc⟩ : ∃ c u, s.opening ++ '>' :: behind = c :: u ∧ (c.isAlpha ∨ c = '>') := by
    cases s with
    | element name attributes blank => exact ⟨_, _, rfl, .inl name.first_isAlpha⟩
    | fragment => exact ⟨_, _, rfl, .inr rfl⟩
  rw [seekAncestor_angled s.isPlain_opening (.inl s.slash_not_suffix_opening)
    (s.dashes_not_suffix_opening h), Text.angled_append, hu, seekAncestor_open_of_isAlpha hc]

end Shell

/-! ## Comments -/

/-- Inside a comment only its own `<!--` counts. -/
theorem seekAncestor_commented {t : Text}
    (h : ∀ u v, t = u ++ '<' :: v → ¬['!', '-', '-'] <+: v ++ behind) :
    seekAncestor depth true behind ((Cell.layOut p t).reverse ++ before) =
      seekAncestor depth true (t ++ behind) before := by
  induction t using List.reverseRecOn generalizing behind with
  | nil => rfl
  | append_singleton t c ih =>
      have hstep : seekAncestor depth true behind
          (⟨p.afterText t, c⟩ :: ((Cell.layOut p t).reverse ++ before)) =
            seekAncestor depth true (c :: behind) ((Cell.layOut p t).reverse ++ before) := by
        by_cases hc : c = '<'
        · subst c
          have hbehind : ['!', '-', '-'].isPrefixOf behind = false := by
            rw [Bool.eq_false_iff, ne_eq, List.isPrefixOf_iff_prefix]
            exact h t [] rfl
          rw [seekAncestor.eq_def]
          simp only [hbehind, Bool.and_false, Bool.not_false]
        · have hchar : (c == '<') = false := beq_eq_false_iff_ne.mpr hc
          rw [seekAncestor.eq_def]
          simp only [hchar, Bool.false_and, Bool.not_false]
      rw [Cell.layOut_append, List.reverse_append, Cell.layOut_cons, Cell.layOut_nil,
        List.reverse_singleton, List.singleton_append, List.cons_append, hstep, ih,
        List.append_assoc]
      · rfl
      · intro u v ht
        have hlonger := h u (v ++ [c]) (by rw [ht]; simp)
        rwa [List.append_assoc] at hlonger

namespace CommentBody

/-- No `<` of a comment starts another comment, not even with the dashes behind the comment. -/
theorem not_isPrefix (c : CommentBody) {u v : Text} (hc : c.text = u ++ '<' :: v) (rest : Text) :
    ¬['!', '-', '-'] <+: v ++ (['-', '-'] ++ '>' :: rest) := by
  intro hprefix
  by_cases hlong : 3 ≤ v.length
  · -- the characters behind the `<` are all of the comment
    have hwithin : ['!', '-', '-'] <+: v :=
      List.prefix_of_prefix_length_le hprefix (List.prefix_append v _) hlong
    obtain ⟨w, rfl⟩ := hwithin
    exact c.not_opening ⟨u, w, by rw [hc]; simp⟩
  · -- the `<` is closed by a `>` of the comment, so more than dashes stands between
    have hclose : '>' ∉ v := by
      intro hmem
      obtain ⟨w, hw⟩ := hprefix
      match v, hlong, hmem, hw with
      | [x], _, hmem, hw =>
        obtain rfl : '>' = x := by simpa using hmem
        exact absurd (List.cons.inj hw).1 (by decide)
      | [x, y], _, hmem, hw =>
        obtain ⟨hx, hw⟩ := List.cons.inj hw
        obtain ⟨hy, -⟩ := List.cons.inj hw
        simp [← hx, ← hy] at hmem
      | x :: y :: z :: _, hlong, _, _ => simp at hlong
    have hbalanced := c.isBalanced
    rw [hc, Text.IsBalanced, Bracket.IsBalanced, Bracket.depth?_append] at hbalanced
    obtain ⟨n, -, hn⟩ := Option.bind_eq_some_iff.mp hbalanced
    rw [Text.depth?_open] at hn
    exact absurd (Text.le_of_depth? hn hclose) (Nat.not_succ_le_zero n)

theorem seekAncestor_dashed (c : CommentBody) :
    seekAncestor depth false behind ((Cell.layOut p c.dashed.angled).reverse ++ before) =
      seekAncestor depth false (c.dashed.angled ++ behind) before := by
  have hopening : Text.IsPlain ['!', '-', '-'] := by decide
  have hclosing : Text.IsPlain ['-', '-'] := by decide
  rw [Cell.reverse_layOut_angled, List.cons_append, List.append_assoc, List.singleton_append,
    seekAncestor_close, Cell.take_reverse_layOut]
  have hdashes : (c.dashed.reverse ++ '<' :: Cell.text before).take 2 = ['-', '-'] := by
    simp [dashed]
  rw [hdashes]
  simp only
  rw [dashed, Cell.layOut_append, Cell.layOut_append, List.reverse_append, List.reverse_append,
    List.append_assoc, List.append_assoc, hclosing.seekAncestor,
    seekAncestor_commented fun u v hc => c.not_isPrefix hc behind, hopening.seekAncestor,
    Text.angled_append]
  simp only [List.append_assoc]
  rfl

end CommentBody

/-- The search passes a whole forest. -/
theorem Forest.seekAncestor_toText {f : Forest} (hf : f.IsUndashed) :
    seekAncestor depth false behind ((Cell.layOut p f.toText).reverse ++ before) =
      seekAncestor depth false (f.toText ++ behind) before := by
  induction f generalizing depth p behind before with
  | nil => rfl
  | text t rest ih =>
      rw [toText, Cell.layOut_append, List.reverse_append, List.append_assoc, ih hf,
        t.isPlain.seekAncestor, List.append_assoc]
  | single n a rest ih =>
      rw [toText, Cell.layOut_append, List.reverse_append, List.append_assoc, ih hf,
        n.seekAncestor_single, List.append_assoc]
  | node s content rest ihContent ih =>
      obtain ⟨hdashes, hcontent, hrest⟩ := hf
      simp only [toText, Cell.layOut_append, List.reverse_append, List.append_assoc]
      rw [ih hrest, s.seekAncestor_closing, ihContent hcontent, s.seekAncestor_opening hdashes]
  | comment c rest ih =>
      rw [toText, Cell.layOut_append, List.reverse_append, List.append_assoc, ih hf,
        c.seekAncestor_dashed, List.append_assoc]

end Tags

end MarkupPairs
