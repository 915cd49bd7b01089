import MarkupPairs.Proofs.Ancestor
import MarkupPairs.Proofs.RangeCover

/-!
# When the tag around a position is around it

The search for the ancestor counts tags by single characters, and what it stops at is then read as a
tag on its own. The two disagree in two ways: on a `<` that has not become a tag yet and stands
right behind a tag that opens nothing, and on an element by itself that has another angle inside. In
all other cases the tag that is found is around the position.
-/

namespace MarkupPairs

/-- Whether a tag is around a position: the position is on the tag, or the tag is an opening tag
that stops before the position. -/
def Tag.Surrounds (t : Tag) (p : Position) : Prop :=
  t.range.covers p ∨ t.kind = .opening ∧ t.range.stop ≤ p

instance (t : Tag) (p : Position) : Decidable (t.Surrounds p) :=
  inferInstanceAs (Decidable (_ ∨ _ ∧ _))

namespace Document

/-- The `<` at which the search for the ancestor of a position stops. -/
def ancestorAngle? (d : Document) (limits : ScanLimits) (p : Position) : Option Position :=
  seekAncestor 0 false (Cell.text (d.cellsFrom p))
    ((d.cellsBefore p).takeWhile (p.line - limits.surrounding ≤ ·.position.line))

/-- Whether the tag found under a position, if any, stops at or before the position. -/
def IsOffTags (d : Document) (limits : ScanLimits) (p : Position) : Prop :=
  ∀ t, d.enclosingTag? limits p = some t → t.range.stop ≤ p

/-- How the search around a position is misled by the `<` that it stops at. -/
inductive Misled (d : Document) (limits : ScanLimits) (p : Position) : Prop where
  /-- No `>` takes the `<`, and a tag that opens nothing stops right before it. -/
  | unfinished {q : Position} {t : Tag} (isOffTags : d.IsOffTags limits p)
      (angle : d.ancestorAngle? limits p = some q) (unclosed : d.closeAngle? limits q = none)
      (behind : d.tagAt? limits ⟨q.line, q.character - 1⟩ = some t) (stop : t.range.stop = q)
      (kind : t.kind ≠ .opening)
  /-- The `<` starts an element by itself that has another `<` inside. -/
  | nested {q : Position} {t : Tag} (isOffTags : d.IsOffTags limits p)
      (angle : d.ancestorAngle? limits p = some q) (tagged : d.tagAt? limits q = some t)
      (stop : t.range.stop ≤ p) (kind : t.kind = .selfClosing)
      (inside : '<' ∈ (d.slice t.range).tail)

variable {d : Document} {limits : ScanLimits} {p q : Position} {t : Tag}

theorem surroundingTag?_of_isOffTags (h : d.IsOffTags limits p) :
    d.surroundingTag? limits p = (d.ancestorAngle? limits p).bind (d.enclosingTag? limits) := by
  unfold surroundingTag?
  split
  next t ht => exact if_neg (Position.not_lt.mpr (h t ht))
  next => rfl

/-- A tag under a position is around it. -/
theorem surroundingTag?_of_tagAt? (h : d.tagAt? limits p = some t) :
    d.surroundingTag? limits p = some t := by
  obtain ⟨-, -, hlt, -⟩ := exists_of_tagAt? h
  rw [surroundingTag?, enclosingTag?_of_tagAt? h]
  exact if_pos hlt

theorem isOffTags_or (d : Document) (limits : ScanLimits) (p : Position) :
    d.IsOffTags limits p ∨ ∃ t, d.tagAt? limits p = some t ∧ p < t.range.stop ∧
      d.surroundingTag? limits p = some t := by
  cases htag : d.enclosingTag? limits p with
  | none => exact .inl fun t ht => by rw [htag] at ht; cases ht
  | some t =>
      by_cases hlt : p < t.range.stop
      · refine .inr ⟨t, ?_, hlt, ?_⟩
        · rcases enclosingTag?_cases htag with ht | ⟨-, hstop, -⟩
          · exact ht
          · exact absurd (hstop ▸ hlt) (Position.lt_irrefl _)
        · rw [surroundingTag?, htag]
          exact if_pos hlt
      · left
        intro t' ht'
        obtain rfl := Option.some.inj (htag.symm.trans ht')
        exact Position.not_lt.mp hlt

/-- What stands at and before the `<` that the search for the ancestor stops at. -/
theorem exists_of_ancestorAngle? (h : d.ancestorAngle? limits p = some q) :
    q < p ∧ d.charAt q = some '<' ∧ ∃ pre next post,
      d.DividedAt q pre ('<' :: next :: post) ∧ (next.isAlpha ∨ next = '>') := by
  obtain ⟨cut, near, post, htext, hwindow, hlt, hfrom⟩ := d.exists_takeWhile_cellsBefore p
    (p.line - limits.surrounding ≤ ·.position.line)
  rw [ancestorAngle?, hwindow, hfrom, Cell.text_layOut] at h
  obtain ⟨pre, mid, rfl, hq, next, hnext, hchar⟩ := exists_of_seekAncestor h
  obtain ⟨u, hu⟩ := List.head?_eq_some_iff.mp hnext
  have hdiv : d.DividedAt q (cut ++ pre) ('<' :: next :: u) := by
    refine ⟨?_, by rw [hq, Position.afterText_append]⟩
    rw [htext, ← hu]
    simp
  refine ⟨hlt ⟨q, '<'⟩ ?_, ?_, cut ++ pre, next, u, hdiv, hchar⟩
  · rw [Cell.layOut_append, ← hq]
    exact List.mem_append_right _ List.mem_cons_self
  · rw [hdiv.charAt]
    rfl

/-- Where the search for the ancestor stops there is a tag, unless no `>` takes the `<`. -/
theorem tagAt?_eq_none_iff (h : d.ancestorAngle? limits p = some q) :
    d.tagAt? limits q = none ↔ d.closeAngle? limits q = none := by
  obtain ⟨-, hopen, pre, next, post, hdiv, hchar⟩ := exists_of_ancestorAngle? h
  have hopenAngle : d.openAngle? limits q = some q := openAngle?_of_charAt hopen
  cases hclose : d.closeAngle? limits q with
  | none => simp [tagAt?, hopenAngle, hclose]
  | some s =>
      obtain ⟨inner, rest, hinner, hbalanced, rfl⟩ := exists_of_closeAngle? hdiv hclose
      have hnext : (inner ++ ['>']).head? = some next := by
        simpa [List.head?_append] using (congrArg List.head? hinner).symm
      obtain ⟨t, ht⟩ := Tag.exists_parse? hbalanced hnext hchar (Range.spanning q inner.angled)
      have hangled : '<' :: (inner ++ '>' :: rest) = inner.angled ++ rest := by simp [Text.angled]
      rw [hinner, hangled] at hdiv
      have hafter : ¬(q.after '<').afterText inner < q :=
        Position.not_lt.mpr (Position.le_trans (Position.le_of_lt (q.lt_after '<'))
          (Position.le_afterText _ inner))
      rw [tagAt?_eq hopenAngle hclose hdiv, if_neg hafter, ht]
      simp

/-- A tag where the search for the ancestor stops is no closing tag. -/
theorem kind_ne_closing_of_ancestorAngle? (h : d.ancestorAngle? limits p = some q)
    (ht : d.tagAt? limits q = some t) : t.kind ≠ .closing := by
  obtain ⟨-, hopen, pre, next, post, hdiv, hchar⟩ := exists_of_ancestorAngle? h
  obtain ⟨⟨pre', inner, post', hwritten⟩, -, -, -⟩ := exists_of_tagAt? ht
  have hstart := hwritten.divided
  rw [start_of_tagAt? ht hopen] at hstart
  obtain ⟨-, htext⟩ := hstart.unique hdiv
  have hinner : (inner ++ ['>']) ++ post' = next :: post := (List.cons.inj htext).2
  have hnext : (inner ++ ['>']).head? = some next := by
    simpa [List.head?_append] using congrArg List.head? hinner
  exact Tag.kind_ne_closing hwritten.parse_eq hwritten.isBalanced hnext hchar

/-- A text that starts at the `<` and stops at or before the position is among the cells that the
search has seen. -/
theorem exists_seekAncestor_of_stop_le {pre s post : Text} (h : d.ancestorAngle? limits p = some q)
    (hdiv : d.DividedAt q pre (s ++ post)) (hstop : q.afterText s ≤ p) :
    ∃ cut near rest : Text, q = (Position.origin.afterText cut).afterText near ∧
      seekAncestor 0 false (Cell.text (d.cellsFrom p))
        (Cell.layOut (Position.origin.afterText cut) (near ++ (s ++ rest))).reverse = some q := by
  obtain ⟨cut, near, post', htext, hwindow, -, hfrom⟩ := d.exists_takeWhile_cellsBefore p
    (p.line - limits.surrounding ≤ ·.position.line)
  rw [ancestorAngle?, hwindow] at h
  obtain ⟨pre', mid, rfl, hq, -⟩ := exists_of_seekAncestor h
  have hdiv' : d.DividedAt q (cut ++ pre') ('<' :: mid ++ post') := by
    refine ⟨?_, by rw [hq, Position.afterText_append]⟩
    rw [htext]
    simp
  obtain ⟨-, hbehind⟩ := hdiv.unique hdiv'
  have hwithin : s <+: '<' :: mid := by
    rcases List.append_eq_append_iff.mp hbehind with ⟨rest, hrest, -⟩ | ⟨rest, hrest, hpost⟩
    · exact ⟨rest, hrest.symm⟩
    · cases rest with
      | nil => exact ⟨[], by simpa using hrest⟩
      | cons c rest =>
          -- the cells from the position on would start before the position
          rw [hpost, List.cons_append, Cell.layOut_cons] at hfrom
          have hle := le_of_cellsFrom_eq_cons hfrom
          have hlt : Position.origin.afterText (cut ++ (pre' ++ '<' :: mid)) < q.afterText s := by
            rw [← List.append_assoc, Position.afterText_append, ← hdiv'.position_eq, hrest,
              Position.afterText_append q ('<' :: mid)]
            exact Position.lt_afterText (List.cons_ne_nil c rest)
          exact absurd hstop (Position.not_le.mpr (Position.lt_of_le_of_lt hle hlt))
  obtain ⟨rest, hrest⟩ := hwithin
  refine ⟨cut, pre', rest, hq, ?_⟩
  rw [hrest]
  exact h

/-- An element by itself where the search for the ancestor stops has another `<` inside. -/
theorem mem_of_ancestorAngle? (h : d.ancestorAngle? limits p = some q)
    (ht : d.tagAt? limits q = some t) (hstop : t.range.stop ≤ p) (hkind : t.kind = .selfClosing) :
    '<' ∈ (d.slice t.range).tail := by
  obtain ⟨-, hopen, -⟩ := exists_of_ancestorAngle? h
  obtain ⟨⟨pre, inner, post, hwritten⟩, -, -, -⟩ := exists_of_tagAt? ht
  have hstart := hwritten.divided
  have hrange := hwritten.range_eq
  rw [start_of_tagAt? ht hopen] at hstart hrange
  rw [hrange] at hstop
  rw [hrange, hstart.slice]
  apply List.mem_append_left
  by_contra hinside
  -- without another angle inside, the search does not stop at the element
  obtain ⟨body, hbody, rfl⟩ := Tag.exists_of_selfClosing hwritten.parse_eq hkind
  have hplain := hwritten.isBalanced.isPlain hinside
  obtain ⟨cut, near, rest, hq, hseek⟩ := exists_seekAncestor_of_stop_le h hstart hstop
  rw [hq] at hseek
  exact seekAncestor_ne_of_selfClosing hbody hplain _ _ _ _ _ _ hseek

/-- The search for the tag around a position finds tags around the position only, unless it is
misled. -/
theorem forall_surrounds_iff (d : Document) (limits : ScanLimits) (p : Position) :
    (∀ t, d.surroundingTag? limits p = some t → t.Surrounds p) ↔ ¬d.Misled limits p := by
  constructor
  · intro hall hmisled
    have hapart {t : Tag} (hkind : t.kind ≠ .opening) (hstop : t.range.stop ≤ p) :
        ¬t.Surrounds p := by
      rintro (hcovers | ⟨hopening, -⟩)
      · exact Position.not_lt.mpr hstop (Range.covers_iff.mp hcovers).2
      · exact hkind hopening
    cases hmisled with
    | unfinished hoff hangle hunclosed hbehind hstop hkind =>
        obtain ⟨hlt, -⟩ := exists_of_ancestorAngle? hangle
        have hnone := (tagAt?_eq_none_iff hangle).mpr hunclosed
        apply hapart hkind (hstop ▸ Position.le_of_lt hlt)
        apply hall
        rw [surroundingTag?_of_isOffTags hoff, hangle]
        exact enclosingTag?_of_behind hnone hbehind hstop
    | @nested q t hoff hangle htag hstop hkind hinside =>
        have hopening : t.kind ≠ .opening := by
          rw [hkind]
          decide
        apply hapart hopening hstop
        apply hall
        rw [surroundingTag?_of_isOffTags hoff, hangle]
        exact enclosingTag?_of_tagAt? htag
  · intro hguided t ht
    rcases d.isOffTags_or limits p with hoff | ⟨t', htag, hlt, ht'⟩
    · rw [surroundingTag?_of_isOffTags hoff] at ht
      obtain ⟨q, hangle, ht⟩ := Option.bind_eq_some_iff.mp ht
      obtain ⟨hlt, hopen, -⟩ := exists_of_ancestorAngle? hangle
      by_contra hapart
      rcases enclosingTag?_cases ht with htag | ⟨hnone, hstop, hbehind⟩
      · have hstart : t.range.start ≤ p := start_of_tagAt? htag hopen ▸ Position.le_of_lt hlt
        have hstop : t.range.stop ≤ p := Position.not_lt.mp fun h =>
          hapart (.inl (Range.covers_iff.mpr ⟨hstart, h⟩))
        have hkind : t.kind = .selfClosing := by
          cases hkind : t.kind with
          | opening => exact absurd (.inr ⟨hkind, hstop⟩) hapart
          | closing => exact absurd hkind (kind_ne_closing_of_ancestorAngle? hangle htag)
          | selfClosing => rfl
        exact hguided (.nested hoff hangle htag hstop hkind
          (mem_of_ancestorAngle? hangle htag hstop hkind))
      · have hkind : t.kind ≠ .opening := fun hkind =>
          hapart (.inr ⟨hkind, hstop ▸ Position.le_of_lt hlt⟩)
        have hunclosed := (tagAt?_eq_none_iff hangle).mp hnone
        exact hguided (.unfinished hoff hangle hunclosed hbehind hstop hkind)
    · obtain rfl := Option.some.inj (ht'.symm.trans ht)
      exact .inl (Range.covers_iff.mpr ⟨(exists_of_tagAt? htag).2.1, hlt⟩)

/-- Behind `<a/><b` the search finds the element by itself, which is over. -/
theorem not_surrounds_typing :
    ∃ t, (⟨['<', 'a', '/', '>', '<', 'b'], .lf⟩ : Document).surroundingTag? .default ⟨0, 6⟩ =
      some t ∧ ¬t.Surrounds ⟨0, 6⟩ :=
  ⟨⟨['a'], .selfClosing, ⟨⟨0, 0⟩, ⟨0, 4⟩, by decide⟩⟩, by decide, by decide⟩

/-- Behind `<a <b> />` too, where the search takes the `<` for one that is open. -/
example : (⟨['<', 'a', ' ', '<', 'b', '>', ' ', '/', '>', 'x'], .lf⟩ : Document).surroundingTag?
    .default ⟨0, 9⟩ = some ⟨['a'], .selfClosing, ⟨⟨0, 0⟩, ⟨0, 9⟩, by decide⟩⟩ := by decide

end Document

end MarkupPairs
