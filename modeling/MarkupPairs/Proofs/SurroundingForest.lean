import MarkupPairs.Proofs.ForestAncestor
import MarkupPairs.Proofs.ForestTags
import MarkupPairs.Proofs.Surrounding

/-!
# The tag around a position in a forest

A position in a forest is on a tag, inside a comment, or in a gap. A gap has an owner, the innermost
element that it is in the content of, and it is the opening tag of the owner that the search for the
ancestor stops at.
-/

namespace MarkupPairs

/-- One text and then another, cut in two: the cut is within the first text, or behind it. -/
theorem Text.append_eq_append_cases {x y pre post : Text} (h : x ++ y = pre ++ post) :
    (∃ far, far ≠ [] ∧ x = pre ++ far ∧ post = far ++ y) ∨
      ∃ more, pre = x ++ more ∧ y = more ++ post := by
  rcases List.append_eq_append_iff.mp h with ⟨more, hpre, hy⟩ | ⟨far, hx, hpost⟩
  · exact .inr ⟨more, hpre, hy⟩
  · cases far with
    | nil => exact .inr ⟨[], by simpa using hx.symm, by simpa using hpost.symm⟩
    | cons c far => exact .inl ⟨c :: far, List.cons_ne_nil c far, hx, hpost⟩

namespace Forest

/-- Whether a position is in the content between two tags. -/
def Holds (x : Tag × Tag) (p : Position) : Prop := x.1.range.stop ≤ p ∧ p ≤ x.2.range.start

instance (x : Tag × Tag) (p : Position) : Decidable (Holds x p) :=
  inferInstanceAs (Decidable (_ ∧ _))

/-- The tag around a position of a forest: the tag that the position is on, or else the opening tag
of the innermost element that has the position in its content. -/
def IsAround (f : Forest) (p : Position) (t : Tag) : Prop :=
  t ∈ f.tags Position.origin ∧ t.range.covers p ∨
    (∀ t' ∈ f.tags Position.origin, ¬t'.range.covers p) ∧
      ∃ c, (t, c) ∈ f.pairs Position.origin ∧ Holds (t, c) p ∧
        ∀ x ∈ f.pairs Position.origin, Holds x p → x.1.range.start ≤ t.range.start

/-- A gap in a forest that starts at `p`, by the text of the forest before the gap and behind it.
The owner is the opening tag of the innermost element around the gap, if any. -/
inductive Gap : Forest → Position → Option Tag → Text → Text → Prop
  | stop {p : Position} : Gap nil p none [] []
  | insideText {t : PlainText} {rest : Forest} {p : Position} {pre far : Text}
      (text_eq : t.text = pre ++ far) (far_ne_nil : far ≠ []) :
      Gap (text t rest) p none pre (far ++ rest.toText)
  | afterText {t : PlainText} {rest : Forest} {p : Position} {owner : Option Tag} {pre post : Text}
      (gap : Gap rest (p.afterText t.text) owner pre post) :
      Gap (text t rest) p owner (t.text ++ pre) post
  | afterSingle {n : TagName} {a : Attributes} {rest : Forest} {p : Position} {owner : Option Tag}
      {pre post : Text} (gap : Gap rest (p.afterText (n.single a).angled) owner pre post) :
      Gap (single n a rest) p owner ((n.single a).angled ++ pre) post
  | insideNode {s : Shell} {content rest : Forest} {p : Position} {owner : Option Tag}
      {pre post : Text} (gap : Gap content (contentStart s p) owner pre post)
      (post_ne_nil : post ≠ []) :
      Gap (node s content rest) p (owner.or (some (s.openingTag p))) (s.opening.angled ++ pre)
        (post ++ (s.closing.angled ++ rest.toText))
  | afterNode {s : Shell} {content rest : Forest} {p : Position} {owner : Option Tag}
      {pre post : Text} (gap : Gap rest (nodeStop s content p) owner pre post) :
      Gap (node s content rest) p owner
        (s.opening.angled ++ (content.toText ++ (s.closing.angled ++ pre))) post
  | beforeComment {c : CommentBody} {rest : Forest} {p : Position} :
      Gap (comment c rest) p none [] (c.dashed.angled ++ rest.toText)
  | afterComment {c : CommentBody} {rest : Forest} {p : Position} {owner : Option Tag}
      {pre post : Text} (gap : Gap rest (p.afterText c.dashed.angled) owner pre post) :
      Gap (comment c rest) p owner (c.dashed.angled ++ pre) post

/-- A tag that starts at a place covers the places before its text is over. -/
theorem covers_spanning {p : Position} {near far : Text} (hfar : far ≠ []) :
    (Range.spanning p (near ++ far)).covers (p.afterText near) := by
  refine Range.covers_iff.mpr ⟨p.le_afterText near, ?_⟩
  change p.afterText near < p.afterText (near ++ far)
  rw [Position.afterText_append]
  exact Position.lt_afterText hfar

/-- A position in a forest that is not inside a comment is on a tag or in a gap. -/
theorem exists_tag_or_gap {f : Forest} {p : Position} {pre post : Text}
    (htext : f.toText = pre ++ post)
    (houtside : ∀ r ∈ f.comments p, ¬(r.start < p.afterText pre ∧ p.afterText pre < r.stop)) :
    (∃ t ∈ f.tags p, t.range.covers (p.afterText pre)) ∨ ∃ owner, f.Gap p owner pre post := by
  induction f generalizing p pre post with
  | nil =>
      obtain ⟨rfl, rfl⟩ := List.append_eq_nil_iff.mp htext.symm
      exact .inr ⟨none, .stop⟩
  | text t rest ih =>
      rcases Text.append_eq_append_cases htext with ⟨far, hfar, ht, rfl⟩ | ⟨more, rfl, hrest⟩
      · exact .inr ⟨none, .insideText ht hfar⟩
      · rw [Position.afterText_append] at houtside ⊢
        rcases ih hrest houtside with htag | ⟨owner, hgap⟩
        · exact .inl htag
        · exact .inr ⟨owner, .afterText hgap⟩
  | single n a rest ih =>
      rcases Text.append_eq_append_cases htext with ⟨far, hfar, ht, rfl⟩ | ⟨more, rfl, hrest⟩
      · refine .inl ⟨n.singleTag a p, List.mem_cons_self, ?_⟩
        rw [TagName.singleTag, ht]
        exact covers_spanning hfar
      · rw [Position.afterText_append] at houtside ⊢
        rcases ih hrest houtside with ⟨t, ht, hcovers⟩ | ⟨owner, hgap⟩
        · exact .inl ⟨t, List.mem_cons_of_mem _ ht, hcovers⟩
        · exact .inr ⟨owner, .afterSingle hgap⟩
  | node s content rest ihContent ih =>
      -- the cut is in the opening tag, in the content, in the closing tag or behind the element
      rw [comments] at houtside
      obtain ⟨hcontent, hbehind⟩ := List.forall_mem_append.mp houtside
      simp only [tags, List.cons_append, List.mem_cons, List.mem_append]
      rcases Text.append_eq_append_cases htext with ⟨far, hfar, ht, rfl⟩ | ⟨inside, rfl, hinside⟩
      · refine .inl ⟨s.openingTag p, .inl rfl, ?_⟩
        rw [Shell.openingTag, ht]
        exact covers_spanning hfar
      rw [Position.afterText_append] at hcontent hbehind ⊢
      rcases Text.append_eq_append_cases hinside with
        ⟨far, hfar, ht, rfl⟩ | ⟨closing, rfl, hclosing⟩
      · rcases ihContent ht hcontent with ⟨t, ht, hcovers⟩ | ⟨owner, hgap⟩
        · exact .inl ⟨t, .inr (.inl ht), hcovers⟩
        · exact .inr ⟨_, .insideNode hgap hfar⟩
      rw [Position.afterText_append] at hbehind ⊢
      rcases Text.append_eq_append_cases hclosing with ⟨far, hfar, ht, rfl⟩ | ⟨more, rfl, hrest⟩
      · refine .inl ⟨s.closingTag (contentStop s content p), .inr (.inr (.inl rfl)), ?_⟩
        rw [Shell.closingTag, ht]
        exact covers_spanning hfar
      rw [Position.afterText_append] at hbehind ⊢
      rcases ih hrest hbehind with ⟨t, ht, hcovers⟩ | ⟨owner, hgap⟩
      · exact .inl ⟨t, .inr (.inr (.inr ht)), hcovers⟩
      · exact .inr ⟨owner, .afterNode hgap⟩
  | comment c rest ih =>
      obtain ⟨hcomment, hrest⟩ := List.forall_mem_cons.mp houtside
      rcases Text.append_eq_append_cases htext with ⟨far, hfar, ht, rfl⟩ | ⟨more, rfl, hmore⟩
      · cases pre with
        | nil =>
            obtain rfl : c.dashed.angled = far := ht
            exact .inr ⟨none, .beforeComment⟩
        | cons x pre =>
            refine absurd ⟨Position.lt_afterText (List.cons_ne_nil x pre), ?_⟩ hcomment
            rw [ht]
            exact (Range.covers_iff.mp (covers_spanning hfar)).2
      · rw [Position.afterText_append] at hrest ⊢
        rcases ih hmore hrest with htag | ⟨owner, hgap⟩
        · exact .inl htag
        · exact .inr ⟨owner, .afterComment hgap⟩

/-- Before a forest starts no element of it has a position in its content. -/
theorem not_holds_of_le_start {f : Forest} {p q : Position} {x : Tag × Tag} (hx : x ∈ f.pairs p)
    (hq : q ≤ p) : ¬Holds x q := by
  rintro ⟨hstop, -⟩
  obtain ⟨hstart, hlt, -⟩ := within_of_mem_tags (mem_tags_of_mem_pairs hx).1
  exact Position.not_lt.mpr hstop
    (Position.lt_of_le_of_lt (Position.le_trans hq hstart) hlt)

/-- Once a forest is over no element of it has a position in its content. -/
theorem not_holds_of_stop_le {f : Forest} {p q : Position} {x : Tag × Tag} (hx : x ∈ f.pairs p)
    (hq : p.afterText f.toText ≤ q) : ¬Holds x q := by
  rintro ⟨-, hstart⟩
  obtain ⟨-, hlt, hstop⟩ := within_of_mem_tags (mem_tags_of_mem_pairs hx).2
  exact Position.not_lt.mpr hstart
    (Position.lt_of_lt_of_le hlt (Position.le_trans hstop hq))

namespace Gap

variable {f : Forest} {p : Position} {owner : Option Tag} {pre post : Text}

theorem text_eq (h : f.Gap p owner pre post) : f.toText = pre ++ post := by
  induction h with
  | stop => rfl
  | insideText htext hfar => rw [toText, htext, List.append_assoc]
  | afterText hgap ih => rw [toText, ih, List.append_assoc]
  | afterSingle hgap ih => rw [toText, ih, List.append_assoc]
  | insideNode hgap hpost ih =>
      rw [toText, ih]
      simp only [List.append_assoc]
  | afterNode hgap ih =>
      rw [toText, ih]
      simp only [List.append_assoc]
  | beforeComment => rfl
  | afterComment hgap ih => rw [toText, ih, List.append_assoc]

/-- Every angle before a gap has its counterpart there. -/
theorem isBalanced (h : f.Gap p owner pre post) : pre.IsBalanced := by
  induction h with
  | stop => rfl
  | @insideText t rest p pre far htext hfar =>
      have hplain := t.isPlain
      rw [htext, Text.isPlain_append] at hplain
      exact hplain.1.isBalanced
  | @afterText t rest p owner pre post hgap ih => exact t.isPlain.isBalanced.append ih
  | @afterSingle n a rest p owner pre post hgap ih =>
      exact (n.isPlain_single a).isBalanced.enclose.append ih
  | @insideNode s content rest p owner pre post hgap hpost ih =>
      exact s.isPlain_opening.isBalanced.enclose.append ih
  | @afterNode s content rest p owner pre post hgap ih =>
      exact s.isPlain_opening.isBalanced.enclose.append
        (content.isBalanced_toText.append (s.isPlain_closing.isBalanced.enclose.append ih))
  | beforeComment => rfl
  | @afterComment c rest p owner pre post hgap ih => exact c.isBalanced_dashed.enclose.append ih

/-- A `<` behind a gap is that of a comment. -/
theorem exists_comment (h : f.Gap p owner pre post) (hpost : post.head? = some '<') :
    ∃ (c : CommentBody) (rest : Text), post = c.dashed.angled ++ rest := by
  induction h with
  | stop => cases hpost
  | @insideText t rest p pre far htext hfar =>
      cases far with
      | nil => exact absurd rfl hfar
      | cons x far =>
          have hx := t.isPlain x (by rw [htext]; simp)
          exact absurd (Option.some.inj hpost) hx.1
  | afterText hgap ih => exact ih hpost
  | afterSingle hgap ih => exact ih hpost
  | @insideNode s content rest p owner pre post hgap hne ih =>
      rw [List.head?_append_of_ne_nil _ hne] at hpost
      obtain ⟨c, u, rfl⟩ := ih hpost
      exact ⟨c, _, List.append_assoc _ _ _⟩
  | afterNode hgap ih => exact ih hpost
  | @beforeComment c rest p => exact ⟨c, _, rfl⟩
  | afterComment hgap ih => exact ih hpost

/-- From a gap the search for the ancestor stops at the owner, or passes all that is before. -/
theorem seekAncestor (h : f.Gap p owner pre post) (hf : f.IsUndashed) (behind : Text)
    (before : List Cell) :
    MarkupPairs.seekAncestor 0 false behind ((Cell.layOut p pre).reverse ++ before) =
      match owner with
      | some t => some t.range.start
      | none => MarkupPairs.seekAncestor 0 false (pre ++ behind) before := by
  -- what is nearest to the gap is passed first; once an owner is found, the rest does not matter
  induction h generalizing before with
  | stop => rfl
  | @insideText t rest p pre far htext hfar =>
      have hplain := t.isPlain
      rw [htext, Text.isPlain_append] at hplain
      exact hplain.1.seekAncestor 0 false behind p before
  | @afterText t rest p owner pre post hgap ih =>
      rw [Cell.layOut_append, List.reverse_append, List.append_assoc, ih hf]
      cases owner with
      | some t => rfl
      | none =>
          simp only
          rw [t.isPlain.seekAncestor, List.append_assoc]
  | @afterSingle n a rest p owner pre post hgap ih =>
      rw [Cell.layOut_append, List.reverse_append, List.append_assoc, ih hf]
      cases owner with
      | some t => rfl
      | none =>
          simp only
          rw [n.seekAncestor_single, List.append_assoc]
  | @insideNode s content rest p owner pre post hgap hpost ih =>
      obtain ⟨hdashes, hcontent, -⟩ := hf
      rw [Cell.layOut_append, List.reverse_append, List.append_assoc]
      refine (ih hcontent _).trans ?_
      cases owner with
      | some t => rfl
      | none => exact s.seekAncestor_opening hdashes
  | @afterNode s content rest p owner pre post hgap ih =>
      obtain ⟨hdashes, hcontent, hrest⟩ := hf
      simp only [Cell.layOut_append, List.reverse_append, List.append_assoc]
      refine (ih hrest _).trans ?_
      cases owner with
      | some t => rfl
      | none =>
          simp only
          rw [s.seekAncestor_closing, content.seekAncestor_toText hcontent,
            s.seekAncestor_opening hdashes]
  | beforeComment => rfl
  | @afterComment c rest p owner pre post hgap ih =>
      rw [Cell.layOut_append, List.reverse_append, List.append_assoc, ih hf]
      cases owner with
      | some t => rfl
      | none =>
          simp only
          rw [c.seekAncestor_dashed, List.append_assoc]

/-- A gap in the content of a node is no further on than the closing tag. -/
theorem le_contentStop {s : Shell} {content : Forest}
    (h : Gap content (contentStart s p) owner pre post) :
    (contentStart s p).afterText pre ≤ contentStop s content p := by
  rw [contentStop, h.text_eq, Position.afterText_append]
  exact Position.le_afterText _ post

/-- The owner of a gap has the gap in its content. -/
theorem exists_pair (h : f.Gap p owner pre post) {t : Tag} (ht : owner = some t) :
    ∃ c, (t, c) ∈ f.pairs p ∧ Holds (t, c) (p.afterText pre) := by
  induction h with
  | stop => cases ht
  | insideText htext hfar => cases ht
  | afterText hgap ih =>
      rw [Position.afterText_append]
      exact ih ht
  | afterSingle hgap ih =>
      rw [Position.afterText_append]
      exact ih ht
  | @insideNode s content rest p owner pre post hgap hpost ih =>
      rw [Position.afterText_append]
      cases owner with
      | some t' =>
          obtain ⟨c, hpair, hholds⟩ := ih ht
          exact ⟨c, List.mem_cons_of_mem _ (List.mem_append_left _ hpair), hholds⟩
      | none =>
          obtain rfl : s.openingTag p = t := Option.some.inj ht
          refine ⟨s.closingTag (contentStop s content p), List.mem_cons_self, ?_, ?_⟩
          · exact Position.le_afterText _ pre
          · exact hgap.le_contentStop
  | afterNode hgap ih =>
      obtain ⟨c, hpair, hholds⟩ := ih ht
      refine ⟨c, List.mem_cons_of_mem _ (List.mem_append_right _ hpair), ?_⟩
      simp only [Position.afterText_append]
      exact hholds
  | beforeComment => cases ht
  | afterComment hgap ih =>
      rw [Position.afterText_append]
      exact ih ht

/-- Of the elements that have a gap in their content, the owner starts last. -/
theorem start_le (h : f.Gap p owner pre post) {x : Tag × Tag} (hx : x ∈ f.pairs p)
    (hholds : Holds x (p.afterText pre)) :
    ∃ t, owner = some t ∧ x.1.range.start ≤ t.range.start := by
  induction h with
  | stop => cases hx
  | @insideText t rest p pre far htext hfar =>
      have hrest : x ∈ rest.pairs (p.afterText t.text) := hx
      refine absurd hholds (not_holds_of_le_start hrest ?_)
      rw [htext, Position.afterText_append]
      exact Position.le_afterText _ far
  | afterText hgap ih =>
      rw [Position.afterText_append] at hholds
      exact ih hx hholds
  | afterSingle hgap ih =>
      rw [Position.afterText_append] at hholds
      exact ih hx hholds
  | @insideNode s content rest p owner pre post hgap hpost ih =>
      rw [Position.afterText_append] at hholds
      rw [pairs, List.cons_append, List.mem_cons, List.mem_append] at hx
      -- the element is the node itself, one of its content, or one behind it
      rcases hx with rfl | hx | hx
      · cases howner : owner with
        | none => exact ⟨s.openingTag p, rfl, Position.le_refl _⟩
        | some t =>
            obtain ⟨c, hpair, -⟩ := hgap.exists_pair howner
            obtain ⟨hstart, -⟩ := within_of_mem_tags (mem_tags_of_mem_pairs hpair).1
            exact ⟨t, rfl, Position.le_trans (Position.le_afterText p _) hstart⟩
      · obtain ⟨t, ht, hle⟩ := ih hx hholds
        exact ⟨t, by rw [ht]; rfl, hle⟩
      · refine absurd hholds (not_holds_of_le_start hx ?_)
        exact Position.le_trans hgap.le_contentStop (Position.le_afterText _ _)
  | @afterNode s content rest p owner pre post hgap ih =>
      have hstop : contentStop s content p < nodeStop s content p :=
        Position.lt_afterText (List.cons_ne_nil _ _)
      have hle : nodeStop s content p ≤ (nodeStop s content p).afterText pre :=
        Position.le_afterText _ pre
      simp only [Position.afterText_append] at hholds
      rw [pairs, List.cons_append, List.mem_cons, List.mem_append] at hx
      rcases hx with rfl | hx | hx
      · exact absurd hholds.2 (Position.not_le.mpr (Position.lt_of_lt_of_le hstop hle))
      · refine absurd hholds (not_holds_of_stop_le hx ?_)
        exact Position.le_trans (Position.le_of_lt hstop) hle
      · exact ih hx hholds
  | @beforeComment c rest p =>
      have hrest : x ∈ rest.pairs (p.afterText c.dashed.angled) := hx
      exact absurd hholds (not_holds_of_le_start hrest (Position.le_afterText p _))
  | afterComment hgap ih =>
      rw [Position.afterText_append] at hholds
      exact ih hx hholds

end Gap

variable {d : Document} {limits : ScanLimits} {f : Forest} {p : Position}

/-- In a gap no tag is found under the position. -/
theorem Gap.tagAt?_eq_none {owner : Option Tag} {pre post : Text}
    (h : f.Gap Position.origin owner pre post) (hdiv : d.DividedAt p pre post) :
    d.tagAt? limits p = none := by
  apply Option.eq_none_iff_forall_ne_some.mpr
  intro t ht
  obtain ⟨⟨before, inner, behind, hwritten⟩, -, -, hopen⟩ := Document.exists_of_tagAt? ht
  by_cases hchar : d.charAt p = some '<'
  · -- a `<` behind a gap is that of a comment, which is no tag
    have hstart := hwritten.divided
    rw [Document.start_of_tagAt? ht hchar] at hstart
    obtain ⟨-, hpost⟩ := hdiv.unique hstart
    rw [hdiv.charAt] at hchar
    obtain ⟨c, rest, hcomment⟩ := h.exists_comment (Option.filter_eq_some_iff.mp hchar).1
    rw [hcomment, Text.angled_append, Text.angled_append] at hpost
    obtain rfl : c.dashed = inner :=
      c.isBalanced_dashed.unique hwritten.isBalanced (List.cons.inj hpost).2
    exact absurd hwritten.parse_eq (by rw [c.parse?_dashed]; exact Option.some_ne_none _ |>.symm)
  · -- a `<` that is found further back would stay open up to the gap
    obtain ⟨-, before, mid, hstart, hmid⟩ := Document.exists_of_openAngle?_of_ne hchar hopen
    rw [hdiv.cellsFrom, Cell.text_layOut] at hstart
    have hpre : pre = before ++ '<' :: mid := by
      have hwhole := hdiv.text_eq.symm.trans hstart.text_eq
      rw [← List.cons_append, ← List.append_assoc] at hwhole
      exact List.append_cancel_right hwhole
    exact Text.not_isBalanced_open hmid (hpre ▸ h.isBalanced)

/-- In a gap the tag around the position is the owner. -/
theorem Gap.surroundingTag?_eq {owner : Option Tag} {pre post : Text}
    (h : f.Gap Position.origin owner pre post) (htext : d.text = f.toText) (hf : f.IsUndashed)
    (hdiv : d.DividedAt p pre post) (henclosing : d.lineCount < limits.enclosing)
    (hsurrounding : d.lineCount < limits.surrounding) :
    d.surroundingTag? limits p = owner := by
  have hoff : d.IsOffTags limits p := by
    intro t ht
    rcases Document.enclosingTag?_cases ht with htag | ⟨-, hstop, -⟩
    · rw [h.tagAt?_eq_none hdiv] at htag
      cases htag
    · exact Position.le_of_eq hstop
  have hangle : d.ancestorAngle? limits p = owner.map (·.range.start) := by
    rw [Document.ancestorAngle?, Document.takeWhile_le_line (Nat.le_of_lt hdiv.line_lt)
      (Nat.le_of_lt hsurrounding), hdiv.cellsBefore, hdiv.cellsFrom, Cell.text_layOut,
      ← List.append_nil (Cell.layOut Position.origin pre).reverse, h.seekAncestor hf]
    cases owner with
    | some t => rfl
    | none => rfl
  rw [Document.surroundingTag?_of_isOffTags hoff, hangle]
  cases howner : owner with
  | none => rfl
  | some t =>
      obtain ⟨c, hpair, -⟩ := h.exists_pair howner
      have hmem := (mem_tags_of_mem_pairs hpair).1
      exact Document.enclosingTag?_of_tagAt? (tagAt?_start_of_mem_tags htext henclosing hmem)

/-- In a document that is a forest, at every position that is not inside a comment, the tag around
the position is what is found, and nothing is found where there is none. -/
theorem surrounding_eq_some_iff (htext : d.text = f.toText) (hf : f.IsUndashed)
    (hvalid : d.isValid p)
    (houtside : ∀ r ∈ f.comments Position.origin, ¬(r.start < p ∧ p < r.stop))
    (henclosing : d.lineCount < limits.enclosing) (hsurrounding : d.lineCount < limits.surrounding)
    (t : Tag) : d.surroundingTag? limits p = some t ↔ f.IsAround p t := by
  have hon {t : Tag} (ht : t ∈ f.tags Position.origin) (hcovers : t.range.covers p) :
      d.surroundingTag? limits p = some t :=
    Document.surroundingTag?_of_tagAt? (tagAt?_of_mem_tags htext henclosing ht hvalid hcovers)
  obtain ⟨pre, post, hdiv⟩ := Document.exists_dividedAt hvalid
  have hp := hdiv.position_eq
  by_cases hcovered : ∃ t ∈ f.tags Position.origin, t.range.covers p
  · obtain ⟨t', ht', hcovers'⟩ := hcovered
    constructor
    · intro h
      obtain rfl := Option.some.inj ((hon ht' hcovers').symm.trans h)
      exact .inl ⟨ht', hcovers'⟩
    · rintro (⟨ht, hcovers⟩ | ⟨hnone, -⟩)
      · exact hon ht hcovers
      · exact absurd hcovers' (hnone t' ht')
  · have hnone : ∀ t' ∈ f.tags Position.origin, ¬t'.range.covers p :=
      fun t' ht' hcovers => hcovered ⟨t', ht', hcovers⟩
    obtain ⟨owner, hgap⟩ : ∃ owner, f.Gap Position.origin owner pre post := by
      refine (exists_tag_or_gap (htext.symm.trans hdiv.text_eq) ?_).resolve_left ?_
      · rwa [← hp]
      · rwa [← hp]
    rw [hgap.surroundingTag?_eq htext hf hdiv henclosing hsurrounding]
    constructor
    · intro howner
      obtain ⟨c, hpair, hholds⟩ := hgap.exists_pair howner
      refine .inr ⟨hnone, c, hpair, hp ▸ hholds, ?_⟩
      intro x hx hholds
      obtain ⟨t', ht', hle⟩ := hgap.start_le hx (hp ▸ hholds)
      obtain rfl := Option.some.inj (ht'.symm.trans howner)
      exact hle
    · rintro (⟨ht, hcovers⟩ | ⟨-, c, hpair, hholds, hlast⟩)
      · exact absurd hcovers (hnone t ht)
      · obtain ⟨t', howner, hle⟩ := hgap.start_le hpair (hp ▸ hholds)
        obtain ⟨c', hpair', hholds'⟩ := hgap.exists_pair howner
        have hstart := Position.le_antisymm hle (hlast _ hpair' (hp ▸ hholds'))
        have ht := tagAt?_start_of_mem_tags htext henclosing (mem_tags_of_mem_pairs hpair).1
        have ht' := tagAt?_start_of_mem_tags htext henclosing (mem_tags_of_mem_pairs hpair').1
        rw [howner, ← ht', ← hstart]
        exact ht

theorem surrounding_eq_some_iff_commented :
    commented.IsUndashed ∧ (⟨commented.toText, .lf⟩ : Document).isValid ⟨0, 17⟩ ∧
      (∀ r ∈ commented.comments Position.origin, ¬(r.start < ⟨0, 17⟩ ∧ ⟨0, 17⟩ < r.stop)) ∧
      (⟨commented.toText, .lf⟩ : Document).lineCount < 2 ∧
      (⟨commented.toText, .lf⟩ : Document).surroundingTag? ⟨2, 1, 2⟩ ⟨0, 17⟩ =
        some ⟨['a'], .opening, ⟨⟨0, 0⟩, ⟨0, 3⟩, by decide⟩⟩ := by
  have hundashed : commented.IsUndashed := ⟨by decide, trivial, trivial⟩
  have hvalid : (⟨commented.toText, .lf⟩ : Document).isValid ⟨0, 17⟩ := by decide
  have houtside : ∀ r ∈ commented.comments Position.origin,
      ¬(r.start < ⟨0, 17⟩ ∧ ⟨0, 17⟩ < r.stop) := by decide
  have hlines : (⟨commented.toText, .lf⟩ : Document).lineCount < 2 := by decide
  refine ⟨hundashed, hvalid, houtside, hlines, ?_⟩
  rw [surrounding_eq_some_iff (f := commented) rfl hundashed hvalid houtside hlines hlines]
  refine .inr ⟨by decide, ⟨['a'], .closing, ⟨⟨0, 18⟩, ⟨0, 22⟩, by decide⟩⟩, ?_, ?_, ?_⟩
  · decide
  · decide
  · decide

end Forest

end MarkupPairs
