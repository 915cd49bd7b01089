import MarkupPairs.Proofs.RangeCover
import MarkupPairs.Proofs.TagReading

/-!
# The tags of a forest in its text

Each tag of a forest is written in the text of the forest and read from it again, and lies within
the part that the forest takes up. The tags that make a pair are tags of the forest.
-/

namespace MarkupPairs

theorem CommentBody.isBalanced_dashed (c : CommentBody) : c.dashed.IsBalanced := by
  have hopening : Text.IsBalanced ['!', '-', '-'] := by decide
  have hclosing : Text.IsBalanced ['-', '-'] := by decide
  exact (hopening.append c.isBalanced).append hclosing

namespace Forest

theorem isBalanced_toText (f : Forest) : f.toText.IsBalanced := by
  induction f with
  | nil => rfl
  | text t rest ih => exact t.isPlain.isBalanced.append ih
  | single n a rest ih => exact (n.isPlain_single a).isBalanced.enclose.append ih
  | node s content rest ihContent ih =>
      exact s.isPlain_opening.isBalanced.enclose.append
        (ihContent.append (s.isPlain_closing.isBalanced.enclose.append ih))
  | comment c rest ih => exact c.isBalanced_dashed.enclose.append ih

/-- A tag of a text that starts at a place, by what the text says before it, between its angles and
behind it. -/
structure TagOf (t : Tag) (p : Position) (text pre inner post : Text) : Prop where
  text_eq : text = pre ++ (inner.angled ++ post)
  isPlain : inner.IsPlain
  range_eq : t.range = Range.spanning (p.afterText pre) inner.angled
  parse_eq : Tag.parse? inner.angled t.range = some t

namespace TagOf

variable {t : Tag} {p : Position} {text pre inner post : Text}

/-- More text before a tag. -/
theorem prepend {before : Text} (h : TagOf t (p.afterText before) text pre inner post) :
    TagOf t p (before ++ text) (before ++ pre) inner post where
  text_eq := by simp [h.text_eq]
  isPlain := h.isPlain
  range_eq := by rw [h.range_eq, Position.afterText_append]
  parse_eq := h.parse_eq

/-- More text behind a tag. -/
theorem append (h : TagOf t p text pre inner post) (behind : Text) :
    TagOf t p (text ++ behind) pre inner (post ++ behind) where
  text_eq := by simp [h.text_eq]
  isPlain := h.isPlain
  range_eq := h.range_eq
  parse_eq := h.parse_eq

theorem le_start (h : TagOf t p text pre inner post) : p ≤ t.range.start := by
  rw [h.range_eq]
  exact p.le_afterText pre

theorem start_lt_stop (h : TagOf t p text pre inner post) : t.range.start < t.range.stop := by
  rw [h.range_eq]
  exact Position.lt_afterText (List.cons_ne_nil _ _)

theorem stop_le (h : TagOf t p text pre inner post) : t.range.stop ≤ p.afterText text := by
  have hstop : t.range.stop = p.afterText (pre ++ inner.angled) := by
    rw [h.range_eq, Position.afterText_append]
    rfl
  rw [hstop, h.text_eq, ← List.append_assoc, Position.afterText_append p (pre ++ inner.angled)]
  exact Position.le_afterText _ post

end TagOf

/-- Where a tag of a forest stands in the text of the forest. -/
theorem exists_of_mem_tags {f : Forest} {p : Position} {t : Tag} (h : t ∈ f.tags p) :
    ∃ pre inner post, TagOf t p f.toText pre inner post := by
  induction f generalizing p with
  | nil => cases h
  | text u rest ih =>
      obtain ⟨pre, inner, post, ht⟩ := ih h
      exact ⟨_, inner, _, ht.prepend⟩
  | single n a rest ih =>
      rcases List.mem_cons.mp h with rfl | h
      · exact ⟨[], n.single a, rest.toText, rfl, n.isPlain_single a, rfl, n.parse?_single a _⟩
      · obtain ⟨pre, inner, post, ht⟩ := ih h
        exact ⟨_, inner, _, ht.prepend⟩
  | node s content rest ihContent ih =>
      rw [tags, List.cons_append, List.mem_cons, List.mem_append, List.mem_cons] at h
      rcases h with rfl | h | rfl | h
      · exact ⟨[], s.opening, _, rfl, s.isPlain_opening, rfl, s.parse?_opening _⟩
      · obtain ⟨pre, inner, post, ht⟩ := ihContent h
        exact ⟨_, inner, _, (ht.append (s.closing.angled ++ rest.toText)).prepend⟩
      · have hclosing : TagOf (s.closingTag (contentStop s content p)) (contentStop s content p)
            (s.closing.angled ++ rest.toText) [] s.closing rest.toText :=
          ⟨rfl, s.isPlain_closing, rfl, s.parse?_closing _⟩
        exact ⟨_, _, _, hclosing.prepend.prepend⟩
      · obtain ⟨pre, inner, post, ht⟩ := ih h
        exact ⟨_, inner, _, ht.prepend.prepend.prepend⟩
  | comment c rest ih =>
      obtain ⟨pre, inner, post, ht⟩ := ih h
      exact ⟨_, inner, _, ht.prepend⟩

/-- The tags of a pair are tags of the forest. -/
theorem mem_tags_of_mem_pairs {f : Forest} {p : Position} {x : Tag × Tag} (h : x ∈ f.pairs p) :
    x.1 ∈ f.tags p ∧ x.2 ∈ f.tags p := by
  induction f generalizing p with
  | nil => cases h
  | text u rest ih => exact ih h
  | single n a rest ih =>
      obtain ⟨hopening, hclosing⟩ := ih h
      exact ⟨List.mem_cons_of_mem _ hopening, List.mem_cons_of_mem _ hclosing⟩
  | node s content rest ihContent ih =>
      rw [pairs, List.cons_append, List.mem_cons, List.mem_append] at h
      rw [tags, List.cons_append]
      simp only [List.mem_cons, List.mem_append]
      rcases h with rfl | h | h
      · exact ⟨.inl rfl, .inr (.inr (.inl rfl))⟩
      · obtain ⟨hopening, hclosing⟩ := ihContent h
        exact ⟨.inr (.inl hopening), .inr (.inl hclosing)⟩
      · obtain ⟨hopening, hclosing⟩ := ih h
        exact ⟨.inr (.inr (.inr hopening)), .inr (.inr (.inr hclosing))⟩
  | comment c rest ih => exact ih h

/-- The tags of a forest lie within its text. -/
theorem within_of_mem_tags {f : Forest} {p : Position} {t : Tag} (h : t ∈ f.tags p) :
    p ≤ t.range.start ∧ t.range.start < t.range.stop ∧ t.range.stop ≤ p.afterText f.toText := by
  obtain ⟨pre, inner, post, ht⟩ := exists_of_mem_tags h
  exact ⟨ht.le_start, ht.start_lt_stop, ht.stop_le⟩

/-- A tag that is no element by itself is one of a pair. -/
theorem exists_mem_pairs {f : Forest} {p : Position} {t : Tag} (h : t ∈ f.tags p)
    (hkind : t.kind ≠ .selfClosing) : ∃ x ∈ f.pairs p, t = x.1 ∨ t = x.2 := by
  induction f generalizing p with
  | nil => cases h
  | text u rest ih => exact ih h
  | single n a rest ih =>
      rcases List.mem_cons.mp h with rfl | h
      · exact absurd rfl hkind
      · exact ih h
  | node s content rest ihContent ih =>
      rw [tags, List.cons_append, List.mem_cons, List.mem_append, List.mem_cons] at h
      rw [pairs]
      rcases h with rfl | h | rfl | h
      · exact ⟨_, List.mem_cons_self, .inl rfl⟩
      · obtain ⟨x, hx, ht⟩ := ihContent h
        exact ⟨x, List.mem_cons_of_mem _ (List.mem_append_left _ hx), ht⟩
      · exact ⟨_, List.mem_cons_self, .inr rfl⟩
      · obtain ⟨x, hx, ht⟩ := ih h
        exact ⟨x, List.mem_cons_of_mem _ (List.mem_append_right _ hx), ht⟩
  | comment c rest ih => exact ih h

/-- Each tag of a forest stops before the next one starts. -/
theorem pairwise_tags (f : Forest) (p : Position) :
    (f.tags p).Pairwise fun t u => t.range.stop ≤ u.range.start := by
  induction f generalizing p with
  | nil => exact .nil
  | text u rest ih => exact ih _
  | single n a rest ih =>
      exact List.pairwise_cons.mpr ⟨fun u hu => (within_of_mem_tags hu).1, ih _⟩
  | node s content rest ihContent ih =>
      have hclosing :
          ∀ u ∈ s.closingTag (contentStop s content p) :: rest.tags (nodeStop s content p),
            contentStop s content p ≤ u.range.start := by
        intro u hu
        rcases List.mem_cons.mp hu with rfl | hu
        · exact Position.le_refl _
        · exact Position.le_trans (Position.le_afterText _ _) (within_of_mem_tags hu).1
      rw [tags, List.cons_append, List.pairwise_cons, List.pairwise_append, List.pairwise_cons]
      refine ⟨?_, ihContent _, ⟨fun u hu => (within_of_mem_tags hu).1, ih _⟩, ?_⟩
      · intro u hu
        rcases List.mem_append.mp hu with hu | hu
        · exact (within_of_mem_tags hu).1
        · exact Position.le_trans (Position.le_afterText _ content.toText) (hclosing u hu)
      · intro t ht u hu
        exact Position.le_trans (within_of_mem_tags ht).2.2 (hclosing u hu)
  | comment c rest ih => exact ih _

/-- No two tags of a forest are on one place. -/
theorem eq_of_covers {f : Forest} {p q : Position} {t u : Tag} (ht : t ∈ f.tags p)
    (hu : u ∈ f.tags p) (htq : t.range.covers q) (huq : u.range.covers q) : t = u := by
  have hapart {t u : Tag} (hle : t.range.stop ≤ u.range.start) (ht : t.range.covers q) :
      ¬u.range.covers q := by
    intro hu
    have hlt := Position.lt_of_lt_of_le (Range.covers_iff.mp ht).2 hle
    exact Position.not_le.mpr hlt (Range.covers_iff.mp hu).1
  exact List.Pairwise.forall_of_forall_of_flip
    (R := fun t u => t.range.covers q → u.range.covers q → t = u) (fun _ _ _ _ => rfl)
    ((f.pairwise_tags p).imp fun hle ht hu => (hapart hle ht hu).elim)
    ((f.pairwise_tags p).imp fun hle hu ht => (hapart hle ht hu).elim) ht hu htq huq

theorem comments_eq_nil {f : Forest} (hf : f.IsUncommented) (p : Position) :
    f.comments p = [] := by
  induction f generalizing p with
  | nil => rfl
  | text u rest ih => exact ih hf _
  | single n a rest ih => exact ih hf _
  | node s content rest ihContent ih => rw [comments, ihContent hf.1, ih hf.2, List.nil_append]
  | comment c rest ih => exact hf.elim

theorem covers_spanning_of_mem_layOut {p : Position} {t : Text} {cell : Cell}
    (h : cell ∈ Cell.layOut p t) : (Range.spanning p t).covers cell.position :=
  Range.covers_iff.mpr ⟨Cell.le_position_of_mem_layOut h, Cell.position_lt_of_mem_layOut h⟩

/-- Without comments, every angle of a forest is on one of its tags. -/
theorem exists_tag_of_angle {f : Forest} {p : Position} {cell : Cell} (hf : f.IsUncommented)
    (hcell : cell ∈ Cell.layOut p f.toText) (hangle : cell.char = '<' ∨ cell.char = '>') :
    ∃ t ∈ f.tags p, t.range.covers cell.position := by
  induction f generalizing p with
  | nil => cases hcell
  | text u rest ih =>
      rw [toText, Cell.layOut_append, List.mem_append] at hcell
      rcases hcell with hcell | hcell
      · have hmem : cell.char ∈ u.text := by
          rw [← Cell.text_layOut p u.text]
          exact List.mem_map_of_mem hcell
        obtain ⟨hopen, hclose⟩ := u.isPlain _ hmem
        exact (hangle.elim hopen hclose).elim
      · exact ih hf hcell
  | single n a rest ih =>
      rw [toText, Cell.layOut_append, List.mem_append] at hcell
      rcases hcell with hcell | hcell
      · exact ⟨_, List.mem_cons_self, covers_spanning_of_mem_layOut hcell⟩
      · obtain ⟨t, ht, hcovers⟩ := ih hf hcell
        exact ⟨t, List.mem_cons_of_mem _ ht, hcovers⟩
  | node s content rest ihContent ih =>
      simp only [toText, Cell.layOut_append, List.mem_append] at hcell
      rw [tags, List.cons_append]
      simp only [List.exists_mem_cons_iff, List.mem_append, or_and_right, exists_or]
      rcases hcell with hcell | hcell | hcell | hcell
      · exact .inl (covers_spanning_of_mem_layOut hcell)
      · exact .inr (.inl (ihContent hf.1 hcell))
      · exact .inr (.inr (.inl (covers_spanning_of_mem_layOut hcell)))
      · exact .inr (.inr (.inr (ih hf.2 hcell)))
  | comment c rest ih => exact hf.elim

variable {d : Document} {limits : ScanLimits} {f : Forest} {p : Position} {t : Tag}

/-- The tags of a forest start and stop at places of its document. -/
theorem isValid_of_mem_tags (htext : d.text = f.toText) (ht : t ∈ f.tags Position.origin) :
    d.isValid t.range.start ∧ d.isValid t.range.stop := by
  obtain ⟨pre, inner, post, htag⟩ := exists_of_mem_tags ht
  have hdiv : d.DividedAt (Position.origin.afterText pre) pre (inner.angled ++ post) :=
    ⟨htext.trans htag.text_eq, rfl⟩
  rw [htag.range_eq]
  exact ⟨hdiv.isValid, hdiv.append.isValid⟩

/-- Wherever a position is on a tag of a forest, the tag is found. -/
theorem tagAt?_of_mem_tags (htext : d.text = f.toText) (hlimits : d.lineCount < limits.enclosing)
    (ht : t ∈ f.tags Position.origin) (hvalid : d.isValid p) (hcovers : t.range.covers p) :
    d.tagAt? limits p = some t := by
  obtain ⟨pre, inner, post, htag⟩ := exists_of_mem_tags ht
  obtain ⟨hle, hlt⟩ := Range.covers_iff.mp hcovers
  have hdiv : d.DividedAt (Position.origin.afterText pre) pre (inner.angled ++ post) :=
    ⟨htext.trans htag.text_eq, rfl⟩
  rw [htag.range_eq] at hle hlt
  rw [Document.tagAt?_of_isPlain hdiv htag.isPlain (Nat.le_of_lt hlimits) hvalid hle hlt,
    ← htag.range_eq]
  exact htag.parse_eq

/-- A tag of a forest is found where it starts. -/
theorem tagAt?_start_of_mem_tags (htext : d.text = f.toText)
    (hlimits : d.lineCount < limits.enclosing) (ht : t ∈ f.tags Position.origin) :
    d.tagAt? limits t.range.start = some t := by
  obtain ⟨pre, inner, post, htag⟩ := exists_of_mem_tags ht
  have hstart : d.DividedAt t.range.start pre (inner.angled ++ post) :=
    ⟨htext.trans htag.text_eq, by rw [htag.range_eq]; rfl⟩
  exact tagAt?_of_mem_tags htext hlimits ht hstart.isValid
    (Range.covers_iff.mpr ⟨Position.le_refl _, htag.start_lt_stop⟩)

end Forest

end MarkupPairs
