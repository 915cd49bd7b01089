import MarkupPairs.Proofs.SurroundingForest
import MarkupPairs.Proofs.Unwrapping

/-!
# Unwrapping an element of a forest

In a forest the tag that is found around a position is that of one of its elements, and the partner
that is found for it is the other tag of the same element. So exactly the tags of that element go,
and what it holds stays.
-/

namespace MarkupPairs

namespace Forest

/-- Whether two tags are those of the innermost element or fragment of a forest that has a position
in its content. -/
def IsInnermost (f : Forest) (p : Position) (x : Tag × Tag) : Prop :=
  x ∈ f.pairs .origin ∧ Holds x p ∧
    ∀ y ∈ f.pairs .origin, Holds y p → y.1.range.start ≤ x.1.range.start

instance (f : Forest) (p : Position) (x : Tag × Tag) : Decidable (f.IsInnermost p x) :=
  inferInstanceAs (Decidable (_ ∧ _ ∧ _))

/-- The ranges of the tags that go when a forest is unwrapped at a position. -/
inductive Unwraps (f : Forest) (p : Position) : List Range → Prop
  /-- The position is on an element by itself. -/
  | single {t : Tag} (mem : t ∈ f.tags .origin) (kind : t.kind = .selfClosing)
      (covers : t.range.covers p) : Unwraps f p [t.range]
  /-- The position is on one of the two tags of an element. -/
  | tagged {x : Tag × Tag} (mem : x ∈ f.pairs .origin)
      (covers : x.1.range.covers p ∨ x.2.range.covers p) : Unwraps f p [x.1.range, x.2.range]
  /-- The position is on no tag, and in the content of an element. -/
  | held {x : Tag × Tag} (off : ∀ t ∈ f.tags .origin, ¬t.range.covers p)
      (innermost : f.IsInnermost p x) : Unwraps f p [x.1.range, x.2.range]

/-- Whether a position of a forest is on a tag or in the content of an element. -/
def IsInside (f : Forest) (p : Position) : Prop :=
  (∃ t ∈ f.tags .origin, t.range.covers p) ∨ ∃ x ∈ f.pairs .origin, Holds x p

variable {d : Document} {f : Forest} {p : Position} {t : Tag} {x : Tag × Tag}

/-- The owner of a gap is the opening tag of the innermost element around it. -/
theorem Gap.owner_eq_of_isInnermost {owner : Option Tag} {pre post : Text}
    (h : f.Gap .origin owner pre post) (hx : f.IsInnermost (Position.origin.afterText pre) x) :
    owner = some x.1 := by
  obtain ⟨hpair, hholds, hlast⟩ := hx
  obtain ⟨t, howner, hle⟩ := h.start_le hpair hholds
  obtain ⟨c, hpair', hholds'⟩ := h.exists_pair howner
  have ht : t ∈ f.tags .origin := (mem_tags_of_mem_pairs hpair').1
  have hx : x.1 ∈ f.tags .origin := (mem_tags_of_mem_pairs hpair).1
  -- of two tags that start at one place both are on it
  have hstart : t.range.start = x.1.range.start :=
    Position.le_antisymm (hlast _ hpair' hholds') hle
  have hcovers {t : Tag} (ht : t ∈ f.tags .origin) : t.range.covers t.range.start :=
    Range.covers_iff.mpr ⟨Position.le_refl _, (within_of_mem_tags ht).2.1⟩
  rw [howner, eq_of_covers ht hx (hcovers ht) (hstart ▸ hcovers hx)]

theorem Gap.exists_isInnermost {owner : Option Tag} {pre post : Text}
    (h : f.Gap .origin owner pre post) (ht : owner = some t) :
    ∃ c, f.IsInnermost (Position.origin.afterText pre) (t, c) := by
  obtain ⟨c, hpair, hholds⟩ := h.exists_pair ht
  refine ⟨c, hpair, hholds, ?_⟩
  intro y hy hholds
  obtain ⟨t', ht', hle⟩ := h.start_le hy hholds
  obtain rfl := Option.some.inj (ht'.symm.trans ht)
  exact hle

/-- A position that is on no tag of a forest without comments is in a gap. -/
theorem exists_gap (htext : d.text = f.toText) (hf : f.IsUncommented) (hvalid : d.isValid p)
    (hoff : ∀ t ∈ f.tags .origin, ¬t.range.covers p) :
    ∃ owner pre post, f.Gap .origin owner pre post ∧ d.DividedAt p pre post := by
  obtain ⟨pre, post, hdiv⟩ := Document.exists_dividedAt hvalid
  have hp := hdiv.position_eq
  have hcases := exists_tag_or_gap (p := .origin) (htext.symm.trans hdiv.text_eq)
    (by simp [comments_eq_nil hf])
  rcases hcases with ⟨t, ht, hcovers⟩ | ⟨owner, hgap⟩
  · exact absurd (hp ▸ hcovers) (hoff t ht)
  · exact ⟨owner, pre, post, hgap, hdiv⟩

/-- There is something to unwrap at the positions that are on a tag or in the content of an element,
and nowhere else. -/
theorem exists_unwraps_iff (htext : d.text = f.toText) (hf : f.IsUncommented)
    (hvalid : d.isValid p) : (∃ ranges, f.Unwraps p ranges) ↔ f.IsInside p := by
  constructor
  · rintro ⟨ranges, hunwraps⟩
    cases hunwraps with
    | single mem kind covers => exact .inl ⟨_, mem, covers⟩
    | tagged mem covers =>
        obtain ⟨hopening, hclosing⟩ := mem_tags_of_mem_pairs mem
        rcases covers with covers | covers
        · exact .inl ⟨_, hopening, covers⟩
        · exact .inl ⟨_, hclosing, covers⟩
    | held off innermost => exact .inr ⟨_, innermost.1, innermost.2.1⟩
  · intro hinside
    by_cases hon : ∃ t ∈ f.tags .origin, t.range.covers p
    · obtain ⟨t, ht, hcovers⟩ := hon
      by_cases hkind : t.kind = .selfClosing
      · exact ⟨_, .single ht hkind hcovers⟩
      · obtain ⟨x, hx, rfl | rfl⟩ := exists_mem_pairs ht hkind
        · exact ⟨_, .tagged hx (.inl hcovers)⟩
        · exact ⟨_, .tagged hx (.inr hcovers)⟩
    · have hoff : ∀ t ∈ f.tags .origin, ¬t.range.covers p :=
        fun t ht hcovers => hon ⟨t, ht, hcovers⟩
      obtain ⟨x, hx, hholds⟩ := hinside.resolve_left hon
      obtain ⟨owner, pre, post, hgap, hdiv⟩ := exists_gap htext hf hvalid hoff
      obtain rfl := hdiv.position_eq
      obtain ⟨t, ht, -⟩ := hgap.start_le hx hholds
      obtain ⟨c, hinnermost⟩ := hgap.exists_isInnermost ht
      exact ⟨_, .held hoff hinnermost⟩

end Forest

/-- A session in a forest without comments, in which the first caret is at a place of the text and no
window is smaller than the document. -/
structure Session.CaretInForest (s : Session) (f : Forest) (p : Position) : Prop where
  text_eq : s.document.text = f.toText
  isUncommented : f.IsUncommented
  isUndashed : f.IsUndashed
  active_eq : s.selections.head?.map Selection.active = some p
  isValid : s.document.isValid p
  lineCount_lt_enclosing : s.document.lineCount < s.settings.limits.enclosing
  lineCount_lt_paired : s.document.lineCount < s.settings.limits.paired
  lineCount_lt_surrounding : s.document.lineCount < s.settings.limits.surrounding

namespace Session

variable {s : Session} {f : Forest} {p : Position} {t : Tag} {x : Tag × Tag} {ranges : List Range}

namespace CaretInForest

/-- The tag that is found under the caret is the one of the forest that the caret is on. -/
theorem surroundingTag?_of_covers (h : s.CaretInForest f p) (ht : t ∈ f.tags .origin)
    (hcovers : t.range.covers p) :
    s.document.surroundingTag? s.settings.limits p = some t :=
  Document.surroundingTag?_of_tagAt?
    (Forest.tagAt?_of_mem_tags h.text_eq h.lineCount_lt_enclosing ht h.isValid hcovers)

/-- On no tag, what is found is the owner of the gap that the caret is in. -/
theorem exists_gap (h : s.CaretInForest f p) (hoff : ∀ t ∈ f.tags .origin, ¬t.range.covers p) :
    ∃ owner pre post, f.Gap .origin owner pre post ∧ p = Position.origin.afterText pre ∧
      s.document.surroundingTag? s.settings.limits p = owner := by
  obtain ⟨owner, pre, post, hgap, hdiv⟩ :=
    Forest.exists_gap h.text_eq h.isUncommented h.isValid hoff
  exact ⟨owner, pre, post, hgap, hdiv.position_eq,
    hgap.surroundingTag?_eq h.text_eq h.isUndashed hdiv h.lineCount_lt_enclosing
      h.lineCount_lt_surrounding⟩

theorem partner?_of_mem_pairs (h : s.CaretInForest f p) (hx : x ∈ f.pairs .origin) :
    s.document.partner? s.settings.limits x.1 = some x.2 ∧
      s.document.partner? s.settings.limits x.2 = some x.1 :=
  Forest.partner?_of_mem_pairs h.text_eq h.isUncommented h.lineCount_lt_paired hx

/-- What is unwrapped starts and stops at places of the text. -/
theorem allEnds_of_unwraps (h : s.CaretInForest f p) (hunwraps : f.Unwraps p ranges) :
    RangeSet.AllEnds (s.document.isValid ·) ranges := by
  have hpair {x : Tag × Tag} (hx : x ∈ f.pairs .origin) :
      RangeSet.AllEnds (s.document.isValid ·) [x.1.range, x.2.range] := by
    obtain ⟨hopening, hclosing⟩ := Forest.mem_tags_of_mem_pairs hx
    rw [RangeSet.allEnds_cons, RangeSet.AllEnds, List.forall_mem_singleton]
    exact ⟨Forest.isValid_of_mem_tags h.text_eq hopening,
      Forest.isValid_of_mem_tags h.text_eq hclosing⟩
  cases hunwraps with
  | single mem kind covers =>
      rw [RangeSet.AllEnds, List.forall_mem_singleton]
      exact Forest.isValid_of_mem_tags h.text_eq mem
  | tagged mem covers => exact hpair mem
  | held off innermost => exact hpair innermost.1

/-- The tag that is found around the caret goes together with its partner, and these are the tags of
the element. -/
theorem exists_surroundingTag? (h : s.CaretInForest f p) (hunwraps : f.Unwraps p ranges) :
    ∃ t, s.document.surroundingTag? s.settings.limits p = some t ∧
      (t.isSelfClosing ∨ (s.document.partner? s.settings.limits t).isSome) ∧
      (t.range :: (s.document.partner? s.settings.limits t).toList.map Tag.range).Perm ranges := by
  cases hunwraps with
  | @single t mem kind covers =>
      have hpartner : s.document.partner? s.settings.limits t = none := by
        rw [Document.partner?, kind]
      refine ⟨t, h.surroundingTag?_of_covers mem covers, .inl (beq_iff_eq.mpr kind), ?_⟩
      rw [hpartner]
      exact .refl _
  | @tagged x mem covers =>
      obtain ⟨hopening, hclosing⟩ := Forest.mem_tags_of_mem_pairs mem
      obtain ⟨hforth, hback⟩ := h.partner?_of_mem_pairs mem
      rcases covers with covers | covers
      · refine ⟨x.1, h.surroundingTag?_of_covers hopening covers, ?_⟩
        rw [hforth]
        exact ⟨.inr rfl, .refl _⟩
      · refine ⟨x.2, h.surroundingTag?_of_covers hclosing covers, ?_⟩
        rw [hback]
        exact ⟨.inr rfl, .swap _ _ _⟩
  | @held x off innermost =>
      obtain ⟨owner, pre, post, hgap, rfl, hfound⟩ := h.exists_gap off
      obtain ⟨hforth, -⟩ := h.partner?_of_mem_pairs innermost.1
      refine ⟨x.1, hfound.trans (hgap.owner_eq_of_isInnermost innermost), ?_⟩
      rw [hforth]
      exact ⟨.inr rfl, .refl _⟩

/-- Neither on a tag nor in the content of an element, nothing is found. -/
theorem surroundingTag?_eq_none (h : s.CaretInForest f p) (houtside : ¬f.IsInside p) :
    s.document.surroundingTag? s.settings.limits p = none := by
  obtain ⟨owner, pre, post, hgap, rfl, hfound⟩ :=
    h.exists_gap fun t ht hcovers => houtside (.inl ⟨t, ht, hcovers⟩)
  rw [hfound]
  cases howner : owner with
  | none => rfl
  | some t =>
      obtain ⟨c, hpair, hholds⟩ := hgap.exists_pair howner
      exact absurd (.inr ⟨(t, c), hpair, hholds⟩) houtside

end CaretInForest

/-- With no tag around the caret there is nothing to unwrap. -/
theorem execute_deleteSurroundingPair_eq_notFound
    (hactive : s.selections.head?.map Selection.active = some p)
    (hnone : s.document.surroundingTag? s.settings.limits p = none) :
    s.execute .deleteSurroundingPair = .ok (.notFound .surroundingTag, s) := by
  have hsome : s.selections ≠ [] := by
    intro hnil
    rw [hnil] at hactive
    cases hactive
  rw [execute_of_ne_nil hsome, action, result_deleteSurroundingPair]
  simp only [hactive, Option.bind_some, hnone]

/-- In a forest, with the caret on a tag or in the content of an element, exactly the tags of the
element go, with the lines that they drop: that on whose tag the caret is, or else the innermost one
that has the caret in its content. Otherwise nothing changes. -/
theorem execute_deleteSurroundingPair_forest (h : s.CaretInForest f p) :
    (∀ ranges, f.Unwraps p ranges → ∃ count after,
      s.execute .deleteSurroundingPair = .ok (.applied count false, after) ∧
      after.document = ⟨Text.ofLines (s.document.survivors ranges), s.document.ending⟩) ∧
    ((∃ ranges, f.Unwraps p ranges) ↔ f.IsInside p) ∧
    (¬f.IsInside p → s.execute .deleteSurroundingPair = .ok (.notFound .surroundingTag, s)) := by
  refine ⟨?_, Forest.exists_unwraps_iff h.text_eq h.isUncommented h.isValid, ?_⟩
  · intro ranges hunwraps
    obtain ⟨t, htag, hpartner, hperm⟩ := h.exists_surroundingTag? hunwraps
    have hvalid : RangeSet.AllEnds (s.document.isValid ·)
        (t.range :: (s.document.partner? s.settings.limits t).toList.map Tag.range) :=
      fun r hr => h.allEnds_of_unwraps hunwraps r (hperm.mem_iff.mp hr)
    rw [← Document.survivors_perm s.document hperm]
    apply exists_execute_deleteSurroundingPair _ hpartner rfl hvalid
    rw [h.active_eq, Option.bind_some, htag]
  · intro houtside
    exact execute_deleteSurroundingPair_eq_notFound h.active_eq (h.surroundingTag?_eq_none houtside)

/-- In the content of the fragment of the sample, the tags of the fragment go. -/
theorem execute_deleteSurroundingPair_forest_sample :
    let s : Session := ⟨⟨Forest.sample.toText, .lf⟩, [.caret ⟨1, 8⟩], .default, .other⟩
    s.CaretInForest Forest.sample ⟨1, 8⟩ ∧
      ∃ (count : Nat) (after : Session),
        s.execute .deleteSurroundingPair = .ok (.applied count false, after) ∧
        after.document.text = ['<', 'a', '1', ' ', 'b', '\n', '>', '<', 'a', '1', '/', '>', 'x',
          '<', '/', 'a', '1', '\n', '>'] := by
  intro s
  have h : s.CaretInForest Forest.sample ⟨1, 8⟩ :=
    { text_eq := rfl
      isUncommented := ⟨⟨trivial, trivial⟩, trivial⟩
      isUndashed := ⟨by decide, ⟨by decide, trivial, trivial⟩, trivial⟩
      active_eq := rfl
      isValid := by decide
      lineCount_lt_enclosing := by decide
      lineCount_lt_paired := by decide
      lineCount_lt_surrounding := by decide }
  have hinnermost : Forest.sample.IsInnermost ⟨1, 8⟩
      (⟨[], .opening, ⟨⟨1, 6⟩, ⟨1, 8⟩, by decide⟩⟩,
        ⟨[], .closing, ⟨⟨1, 9⟩, ⟨1, 12⟩, by decide⟩⟩) := by decide
  obtain ⟨count, after, hexecute, hafter⟩ :=
    (execute_deleteSurroundingPair_forest h).1 _ (.held (by decide) hinnermost)
  refine ⟨h, count, after, hexecute, ?_⟩
  rw [hafter]
  decide

end Session

end MarkupPairs
