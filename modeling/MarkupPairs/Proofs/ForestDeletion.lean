import MarkupPairs.Proofs.BracketBalance
import MarkupPairs.Proofs.ForestPruning
import MarkupPairs.Proofs.Partner

/-!
# Deleting pairs from a forest

In a forest, a deletion together with partners takes tags as wholes and in pairs, so a forest is
left. A tag that it does not take stays as it is: no range covers a part of it, no line break in it
is next to such a range, and its angles keep the lines that it starts and stops on.
-/

namespace MarkupPairs

/-! ## A tag that ranges leave alone -/

namespace Document

variable {d : Document} {p : Position} {pre inner post : Text} {ranges : List Range} {r : Range}
  {cell : Cell} {n : Nat}

/-- The `>` of a text in angles, at the place before the one where the text stops. -/
theorem dividedAt_close (hdiv : d.DividedAt p pre (inner.angled ++ post)) :
    d.DividedAt ((p.after '<').afterText inner) (pre ++ ['<'] ++ inner) ('>' :: post) := by
  rw [Text.angled_append] at hdiv
  exact hdiv.next.append

theorem charAt_open (hdiv : d.DividedAt p pre (inner.angled ++ post)) : d.charAt p = some '<' := by
  rw [Text.angled_append] at hdiv
  exact hdiv.charAt_cons (by decide)

theorem stop_eq_close (p : Position) (inner : Text) :
    (Range.spanning p inner.angled).stop = ((p.after '<').afterText inner).right 1 := by
  rw [← Position.after_of_ne (c := '>') (by decide)]
  exact Text.afterText_angled p inner

/-- An angle on a tag without angles inside is the `<` that it starts with or the `>` that it stops
with. -/
theorem position_of_angle (hdiv : d.DividedAt p pre (inner.angled ++ post))
    (hinner : inner.IsPlain) (hcell : cell ∈ d.cells)
    (hcovers : (Range.spanning p inner.angled).covers cell.position)
    (hangle : cell.char = '<' ∨ cell.char = '>') :
    cell.position = p ∨ cell.position = (p.after '<').afterText inner := by
  have hmem := mem_layOut_of_covers hdiv hcell hcovers
  rw [Text.angled, List.cons_append, Cell.layOut_cons, List.mem_cons, Cell.layOut_append,
    List.mem_append, Cell.layOut_cons, Cell.layOut_nil, List.mem_singleton] at hmem
  rcases hmem with rfl | hmem | rfl
  · exact .inl rfl
  · have hchar : cell.char ∈ inner := by
      rw [← Cell.text_layOut (p.after '<') inner]
      exact List.mem_map_of_mem hmem
    obtain ⟨hopen, hclose⟩ := hinner _ hchar
    exact (hangle.elim hopen hclose).elim
  · exact .inr rfl

/-- A line feed on a tag is behind the `<` of the tag, and the next line starts before its stop. -/
theorem lineFeed_between (hdiv : d.DividedAt p pre (inner.angled ++ post)) (hcell : cell ∈ d.cells)
    (hchar : cell.char = '\n') (hcovers : (Range.spanning p inner.angled).covers cell.position) :
    p < cell.position ∧
      cell.position.after '\n' < (Range.spanning p inner.angled).stop := by
  have hne {q : Position} {c : Char} (hq : d.charAt q = some c) : cell.position ≠ q := by
    rintro rfl
    obtain ⟨before, behind, hat⟩ := exists_dividedAt_of_mem_cells hcell
    rw [hat.charAt, hchar] at hq
    cases hq
  obtain ⟨hstart, hstop⟩ := Range.covers_iff.mp hcovers
  have hclose := dividedAt_close hdiv
  rw [stop_eq_close, Position.lt_right_one] at hstop
  rw [stop_eq_close, Position.lt_right_one, Position.after, if_pos rfl]
  have hopen := hne (charAt_open hdiv)
  have hbefore := hne (hclose.charAt_cons (by decide))
  obtain ⟨-, hend, -⟩ :=
    (cases_of_mem_cells hcell).resolve_left fun hother => hother.1 hchar
  -- the line of the line feed ends there, so the `>` is on a later line
  have hlength := (isValid_iff.mp hclose.isValid).2
  rw [Position.ext_iff', lineStop] at hend
  rw [ne_eq, Position.ext_iff'] at hopen hbefore
  have hsame : ((p.after '<').afterText inner).line = cell.position.line →
      d.lineLength ((p.after '<').afterText inner).line = d.lineLength cell.position.line :=
    fun heq => heq ▸ rfl
  simp only [Range.spanning, Position.le_def, Position.lt_def] at hstart hstop hend ⊢
  omega

/-- A range that only a line feed of a tag keeps apart from the tag covers a part of it. -/
theorem exists_covers_beside (hdiv : d.DividedAt p pre (inner.angled ++ post))
    (hcell : cell ∈ d.cells) (hchar : cell.char = '\n')
    (hcovers : (Range.spanning p inner.angled).covers cell.position) (hsome : r.start < r.stop)
    (hbeside : cell.position = r.stop ∨ cell.position.after '\n' = r.start) :
    ∃ q, (Range.spanning p inner.angled).covers q ∧ r.covers q := by
  obtain ⟨hbehind, hbefore⟩ := lineFeed_between hdiv hcell hchar hcovers
  obtain ⟨-, hstop⟩ := Range.covers_iff.mp hcovers
  have hstart : r.covers r.start := Range.covers_iff.mpr ⟨Position.le_refl _, hsome⟩
  rcases hbeside with hbeside | hbeside
  · -- one of the two starts is covered by both
    rw [hbeside] at hbehind hstop
    rcases Position.le_total r.start p with hle | hle
    · refine ⟨p, Range.covers_iff.mpr ⟨Position.le_refl p, ?_⟩,
        Range.covers_iff.mpr ⟨hle, hbehind⟩⟩
      exact Position.lt_of_lt_of_le hbehind (Position.le_of_lt hstop)
    · refine ⟨r.start, Range.covers_iff.mpr ⟨hle, ?_⟩, hstart⟩
      exact Position.lt_of_lt_of_le hsome (Position.le_of_lt hstop)
  · rw [hbeside] at hbefore
    refine ⟨r.start, Range.covers_iff.mpr ⟨?_, hbefore⟩, hstart⟩
    rw [← hbeside]
    exact Position.le_trans (Position.le_of_lt hbehind) (Position.le_of_lt (Position.lt_after _ _))

/-- A range that covers nothing from one position to another touches no line between them. -/
theorem not_touches_of_disjoint {q : Position} (hdisjoint : ∀ x, p ≤ x → x ≤ q → ¬r.covers x)
    (hfirst : p.line < n) (hlast : n < q.line) : ¬r.Encloses n ∧ ¬r.Bounds n := by
  have hinside {x : Position} (hx : x.line = n) : ¬r.covers x :=
    hdisjoint x (.inl (hx ▸ hfirst)) (.inl (hx ▸ hlast))
  constructor
  · intro hencloses
    refine hinside (x := ⟨n, 0⟩) rfl (Range.covers_iff.mpr ?_)
    exact ⟨.inl hencloses.1, .inl hencloses.2⟩
  · rintro ⟨hne, hbounds⟩
    have hlt : r.start < r.stop :=
      Position.not_le.mp fun hge => hne (Position.le_antisymm r.start_le_stop hge)
    have hstart : r.covers r.start := Range.covers_iff.mpr ⟨Position.le_refl _, hlt⟩
    rcases hbounds with hbegin | hend
    · exact hinside hbegin hstart
    · -- it would have to start in front of the two positions, and so to cover the first of them
      have hbefore : r.start < p := by
        apply Position.not_le.mp
        intro hle
        apply hdisjoint _ hle _ hstart
        exact Position.le_trans r.start_le_stop (.inl (hend ▸ hlast))
      apply hdisjoint p (Position.le_refl p) (.inl (Nat.lt_trans hfirst hlast))
      exact Range.covers_iff.mpr ⟨Position.le_of_lt hbefore, .inl (hend ▸ hfirst)⟩

/-- Ranges that cover no part of a tag drop no line that the tag is on. -/
theorem not_isDropped_of_disjoint (hdiv : d.DividedAt p pre (inner.angled ++ post))
    (hranges : ∀ e ∈ ranges, ∀ q, (Range.spanning p inner.angled).covers q → ¬e.covers q)
    (hfirst : p.line ≤ n) (hlast : n ≤ (Range.spanning p inner.angled).stop.line) :
    ¬d.IsDropped ranges n := by
  have hclose := dividedAt_close hdiv
  have hlt : p < (p.after '<').afterText inner :=
    Position.lt_of_lt_of_le (p.lt_after '<') (Position.le_afterText _ inner)
  have hstop := stop_eq_close p inner
  have hcovers {q : Position} (hstart : p ≤ q) (hend : q ≤ (p.after '<').afterText inner) :
      (Range.spanning p inner.angled).covers q :=
    Range.covers_iff.mpr ⟨hstart, hstop ▸ Position.lt_right_one.mpr hend⟩
  -- the two angles would be left on their lines
  have hangle {q : Position} {c : Char} (hchar : d.charAt q = some c)
      (hq : (Range.spanning p inner.angled).covers q) (hwhite : Unicode.isWhite c = false)
      (hc : c ≠ ';') : ¬d.IsDropped ranges q.line := by
    intro hdropped
    obtain ⟨e, he, hecovers⟩ := hdropped.covers_of_stays hchar hwhite hc
    exact hranges e he q hq hecovers
  by_cases hopen : n = p.line
  · rw [hopen]
    exact hangle (charAt_open hdiv) (hcovers (Position.le_refl p) (Position.le_of_lt hlt))
      (by decide) (by decide)
  by_cases hline : n = ((p.after '<').afterText inner).line
  · rw [hline]
    exact hangle (hclose.charAt_cons (by decide)) (hcovers (Position.le_of_lt hlt)
      (Position.le_refl _)) (by decide) (by decide)
  · replace hlast : n < ((p.after '<').afterText inner).line := by
      rw [hstop] at hlast
      exact Nat.lt_of_le_of_ne hlast hline
    have htouches {e : Range} (he : e ∈ ranges) : ¬e.Encloses n ∧ ¬e.Bounds n := by
      apply not_touches_of_disjoint _ (Nat.lt_of_le_of_ne hfirst (Ne.symm hopen)) hlast
      exact fun x hstart hend => hranges e he x (hcovers hstart hend)
    rintro (⟨e, he, hencloses⟩ | ⟨⟨e, he, hbounds⟩, -⟩)
    · exact (htouches he).1 hencloses
    · exact (htouches he).2 hbounds

end Document

/-- A tag that a selection and its partners cover no part of keeps all its characters. -/
theorem Session.Removal.not_covers {s : Session} {selection : Selection} {cell : Cell}
    {p : Position} {pre inner post : Text} (h : s.Removal selection cell)
    (hdiv : s.document.DividedAt p pre (inner.angled ++ post)) (hcell : cell ∈ s.document.cells)
    (hsome : (s.reach selection).1.start < (s.reach selection).1.stop)
    (hreach : ∀ q, (Range.spanning p inner.angled).covers q → ¬(s.reach selection).1.covers q)
    (hapart : ∀ e ∈ (s.reach selection).2, ∀ q, (Range.spanning p inner.angled).covers q →
      ¬e.covers q) :
    ¬(Range.spanning p inner.angled).covers cell.position := by
  intro hcovers
  cases h with
  | reached covers => exact hreach _ hcovers covers
  | apart mem covers => exact hapart _ mem _ hcovers covers
  | lineBreak hchar beside =>
      obtain ⟨q, hq, hreached⟩ :=
        Document.exists_covers_beside hdiv hcell hchar hcovers hsome beside
      exact hreach q hq hreached
  | @dropped n isDropped line =>
      obtain ⟨hstart, hstop⟩ := Range.covers_iff.mp hcovers
      refine Document.not_isDropped_of_disjoint hdiv hapart ?_ ?_ isDropped
      · change p ≤ _ at hstart
        rw [Position.le_def] at hstart
        omega
      · rcases line with hline | ⟨hchar, hline⟩
        · rw [Position.lt_def] at hstop
          omega
        · obtain ⟨-, hbefore⟩ := Document.lineFeed_between hdiv hcell hchar hcovers
          rw [Position.after, if_pos rfl] at hbefore
          simp only [Position.lt_def] at hbefore
          omega

/-! ## What a selection takes of a forest -/

/-- A session in a forest without comments, quotes and brackets, with selections that are not empty
and do not start or stop inside a tag. -/
structure Session.EditsForest (s : Session) (f : Forest) : Prop where
  text_eq : s.document.text = f.toText
  isUncommented : f.IsUncommented
  unquoted : ∀ c ∈ f.toText, Bracket.isQuote c = false
  unbracketed : ∀ c ∈ f.toText, ∀ b : Bracket, b ≠ .angle → c ≠ b.opener ∧ c ≠ b.closer
  lineCount_lt : s.document.lineCount < s.settings.limits.paired
  isValid : s.IsValid
  isSome : ∀ selection ∈ s.selections, selection.anchor ≠ selection.active
  outside : ∀ selection ∈ s.selections, ∀ t ∈ f.tags .origin,
    ∀ p ∈ [selection.anchor, selection.active], ¬(t.range.start < p ∧ p < t.range.stop)

/-- Whether a selection takes a tag of a forest: it has the tag or the other one of its pair within
it. -/
def Forest.IsTaken (f : Forest) (selection : Selection) (t : Tag) : Prop :=
  selection.range.contains t.range ∨ ∃ x ∈ f.pairs .origin,
    t = x.1 ∧ selection.range.contains x.2.range ∨ t = x.2 ∧ selection.range.contains x.1.range

/-- Whether one of the selections takes a tag of a forest. -/
def Session.TakesTag (s : Session) (f : Forest) (t : Tag) : Prop :=
  ∃ selection ∈ s.selections, f.IsTaken selection t

instance (f : Forest) (selection : Selection) (t : Tag) : Decidable (f.IsTaken selection t) :=
  inferInstanceAs (Decidable (_ ∨ _))

instance (s : Session) (f : Forest) : DecidablePred (s.TakesTag f) := fun t =>
  inferInstanceAs (Decidable (∃ selection ∈ s.selections, f.IsTaken selection t))

namespace Session.EditsForest

variable {s : Session} {f : Forest} {selection : Selection} {t u : Tag} {p q : Position}
  {cell : Cell} {x y : Tag × Tag} {r : Range}

theorem exists_writtenIn (h : s.EditsForest f) (ht : t ∈ f.tags .origin) :
    ∃ pre inner post, t.WrittenIn s.document pre inner post ∧ inner.IsPlain := by
  obtain ⟨pre, inner, post, htag⟩ := Forest.exists_of_mem_tags ht
  have hstart : t.range.start = Position.origin.afterText pre := congrArg Range.start htag.range_eq
  have hrange : t.range = Range.spanning t.range.start inner.angled := hstart ▸ htag.range_eq
  exact ⟨pre, inner, post, ⟨⟨h.text_eq.trans htag.text_eq, hstart⟩, hrange,
    htag.isPlain.isBalanced, htag.parse_eq⟩, htag.isPlain⟩

theorem mem_layOut (h : s.EditsForest f) (hcell : cell ∈ s.document.cells) :
    cell ∈ Cell.layOut .origin f.toText := by
  rwa [Document.cells, h.text_eq] at hcell

/-- The tags that are reported for a range are the tags of the forest within it. -/
theorem mem_tagsIn (h : s.EditsForest f) :
    t ∈ s.document.tagsIn r ↔ t ∈ f.tags .origin ∧ r.contains t.range := by
  let limits : ScanLimits := ⟨s.document.lineCount + 1, 1, 1⟩
  have hlimits : s.document.lineCount < limits.enclosing := Nat.lt_succ_self _
  have hsound {t : Tag} (ht : t ∈ s.document.tagsIn r) : t ∈ f.tags .origin := by
    obtain ⟨pre, inner, post, hwritten⟩ := Document.exists_writtenIn_of_mem_tagsIn ht
    have hchar := Document.charAt_open hwritten.divided
    obtain ⟨u, hu, hcovers⟩ := Forest.exists_tag_of_angle h.isUncommented
      (h.mem_layOut (Document.mem_cells_of_charAt hchar)) (.inl rfl)
    have hfound := Document.tagAt?_of_begins hwritten.divided (hwritten.begins post)
      (Nat.le_of_lt hlimits)
    rw [Forest.tagAt?_of_mem_tags h.text_eq hlimits hu hwritten.divided.isValid hcovers] at hfound
    exact Option.some.inj hfound ▸ hu
  constructor
  · intro ht
    exact ⟨hsound ht, Document.contains_of_mem_tagsIn ht⟩
  · rintro ⟨ht, hr⟩
    obtain ⟨before, inner, behind, hwritten, -⟩ := h.exists_writtenIn ht
    rcases Document.mem_tagsIn_or_exists hwritten hr with hmem | ⟨u, hu, hbefore, hbehind⟩
    · exact hmem
    · -- a tag of the forest is not inside another one
      have hstart : t.range.covers t.range.start := by
        apply Range.covers_iff.mpr
        exact ⟨Position.le_refl _, (Forest.within_of_mem_tags ht).2.1⟩
      have hinside : u.range.covers t.range.start :=
        Range.covers_iff.mpr ⟨Position.le_of_lt hbefore, hbehind⟩
      rw [Forest.eq_of_covers ht (hsound hu) hstart hinside] at hbefore
      exact absurd hbefore (Position.lt_irrefl _)

theorem partner?_of_mem_pairs (h : s.EditsForest f) (hx : x ∈ f.pairs .origin) :
    s.document.partner? s.settings.limits x.1 = some x.2 ∧
      s.document.partner? s.settings.limits x.2 = some x.1 :=
  Forest.partner?_of_mem_pairs h.text_eq h.isUncommented h.lineCount_lt hx

/-- The other tag of a pair is the partner that is found. -/
theorem exists_mem_pairs_of_partner? (h : s.EditsForest f) (ht : t ∈ f.tags .origin)
    (hu : s.document.partner? s.settings.limits t = some u) :
    ∃ x ∈ f.pairs .origin, t = x.1 ∧ u = x.2 ∨ t = x.2 ∧ u = x.1 := by
  have hkind : t.kind ≠ .selfClosing := by
    intro hkind
    rw [Document.partner?, hkind] at hu
    cases hu
  obtain ⟨x, hx, rfl | rfl⟩ := Forest.exists_mem_pairs ht hkind
  · rw [(h.partner?_of_mem_pairs hx).1] at hu
    exact ⟨x, hx, .inl ⟨rfl, (Option.some.inj hu).symm⟩⟩
  · rw [(h.partner?_of_mem_pairs hx).2] at hu
    exact ⟨x, hx, .inr ⟨rfl, (Option.some.inj hu).symm⟩⟩

/-- A selection that covers a part of a tag has the tag within it. -/
theorem contains_of_takes (h : s.EditsForest f) (hselection : selection ∈ s.selections)
    (ht : t ∈ f.tags .origin) (hcovers : t.range.covers p)
    (htakes : selection.Takes s.document p) : selection.range.contains t.range := by
  rw [Selection.takes_iff (h.isSome _ hselection)] at htakes
  obtain ⟨htstart, htstop⟩ := Range.covers_iff.mp hcovers
  obtain ⟨hstart, hstop⟩ := Range.covers_iff.mp htakes
  have houtside := h.outside _ hselection t ht
  have hends : selection.range.start ∈ [selection.anchor, selection.active] ∧
      selection.range.stop ∈ [selection.anchor, selection.active] :=
    Range.ends_between (P := (· ∈ [selection.anchor, selection.active])) (by simp) (by simp)
  apply Range.contains_iff.mpr
  constructor
  · rw [← Position.not_lt]
    intro hlt
    exact houtside _ hends.1 ⟨hlt, Position.lt_of_le_of_lt hstart htstop⟩
  · rw [← Position.not_lt]
    intro hlt
    exact houtside _ hends.2 ⟨Position.lt_of_le_of_lt htstart hstop, hlt⟩

/-- All brackets of the document are angles. -/
theorem bracket_eq_angle (h : s.EditsForest f) {b : BracketAt} (hb : b.StandsIn s.document) :
    b.bracket = .angle ∧ (b.char = '<' ∨ b.char = '>') := by
  have hmem : b.char ∈ f.toText := by
    rw [← Cell.text_layOut .origin f.toText]
    exact List.mem_map_of_mem (h.mem_layOut (Document.mem_cells_of_charAt hb))
  have hbracket : b.bracket = .angle := by
    by_contra hne
    obtain ⟨hopener, hcloser⟩ := h.unbracketed _ hmem _ hne
    rw [BracketAt.char] at hopener hcloser
    cases hside : b.side with
    | opening => exact hopener (congrArg b.bracket.char hside)
    | closing => exact hcloser (congrArg b.bracket.char hside)
  rw [BracketAt.char, hbracket]
  cases b.side with
  | opening => exact ⟨rfl, .inl rfl⟩
  | closing => exact ⟨rfl, .inr rfl⟩

/-- The partner of a bracket is on the same tag. -/
theorem covers_of_bracketPartner? (h : s.EditsForest f) {b : BracketAt}
    (hb : b.StandsIn s.document) (ht : t ∈ f.tags .origin) (hcovers : t.range.covers b.position)
    (hpartner : s.document.bracketPartner? b = some q) : t.range.covers q := by
  have hcell : ⟨b.position, b.char⟩ ∈ s.document.cells := Document.mem_cells_of_charAt hb
  obtain ⟨-, hangle⟩ := h.bracket_eq_angle hb
  obtain ⟨pre, inner, post, hwritten, hinner⟩ := h.exists_writtenIn ht
  have hdiv := hwritten.divided
  have hquotes : ∀ c ∈ s.document.text, Bracket.isQuote c = false := h.text_eq ▸ h.unquoted
  have hcloses : t.range.stop = ((t.range.start.after '<').afterText inner).right 1 :=
    hwritten.stop_eq.trans (Document.stop_eq_close _ inner)
  have hbetween : t.range.start < (t.range.start.after '<').afterText inner :=
    Position.lt_of_lt_of_le (Position.lt_after _ '<') (Position.le_afterText _ inner)
  rw [hwritten.range_eq] at hcovers
  have hplace := Document.position_of_angle hdiv hinner hcell hcovers hangle
  rw [Text.angled_append] at hdiv
  have hmates := BracketAt.mates_of_nests (b := .angle) hdiv hinner.nests hquotes
  rw [Range.covers_iff, hcloses, Position.lt_right_one]
  rcases hplace with hopening | hclosing
  · obtain rfl := hb.unique hmates.left hopening
    obtain rfl := Option.some.inj (hmates.forth.symm.trans hpartner)
    exact ⟨Position.le_of_lt hbetween, Position.le_refl _⟩
  · obtain rfl := hb.unique hmates.right hclosing
    obtain rfl := Option.some.inj (hmates.back.symm.trans hpartner)
    exact ⟨Position.le_refl _, Position.le_of_lt hbetween⟩

/-- A tag of which a selection or a partner covers a part is taken. -/
theorem isTaken_of_covers (h : s.EditsForest f) (hselection : selection ∈ s.selections)
    (ht : t ∈ f.tags .origin) (hcovers : t.range.covers p)
    (htaken : selection.Takes s.document p ∨ ∃ r, s.IsPartner selection r ∧ r.covers p) :
    f.IsTaken selection t := by
  rcases htaken with htakes | ⟨r, hpartner, hr⟩
  · exact .inl (h.contains_of_takes hselection ht hcovers htakes)
  cases hpartner with
  | @tag u v within partner =>
      obtain ⟨hu, hcontains⟩ := h.mem_tagsIn.mp within
      obtain ⟨x, hx, hpair⟩ := h.exists_mem_pairs_of_partner? hu partner
      obtain ⟨hleft, hright⟩ := Forest.mem_tags_of_mem_pairs hx
      right
      refine ⟨x, hx, ?_⟩
      rcases hpair with ⟨rfl, rfl⟩ | ⟨rfl, rfl⟩
      · exact .inr ⟨Forest.eq_of_covers ht hright hcovers hr, hcontains⟩
      · exact .inl ⟨Forest.eq_of_covers ht hleft hcovers hr, hcontains⟩
  | @bracket p' q c b taken char bracket partner =>
      obtain ⟨rfl, rfl⟩ := BracketAt.classify_eq_some_iff.mp bracket
      obtain rfl := Range.covers_between_right_one.mp hr
      obtain ⟨-, hangle⟩ := h.bracket_eq_angle char
      obtain ⟨u, hu, hplace⟩ := Forest.exists_tag_of_angle h.isUncommented
        (h.mem_layOut (Document.mem_cells_of_charAt char)) hangle
      have hcontains := h.contains_of_takes hselection hu hplace taken
      have hsame := h.covers_of_bracketPartner? char hu hplace partner
      rw [Forest.eq_of_covers ht hu hcovers hsame]
      exact .inl hcontains

/-- Of a tag that is taken all characters go, but maybe not the line breaks. -/
theorem covers_removed_of_isTaken (h : s.EditsForest f) (hselection : selection ∈ s.selections)
    (ht : t ∈ f.tags .origin) (htaken : f.IsTaken selection t) (hcell : cell ∈ s.document.cells)
    (hcovers : t.range.covers cell.position) (hchar : cell.char ≠ '\n') :
    s.removed.covers cell.position := by
  have hpartner {t u : Tag} (ht : t ∈ f.tags .origin) (hcontains : selection.range.contains t.range)
      (hu : s.document.partner? s.settings.limits t = some u)
      (hcovers : u.range.covers cell.position) : s.removed.covers cell.position := by
    apply covers_removed_of_onPartner h.isValid hcell hchar
    exact ⟨selection, hselection, _, .tag (h.mem_tagsIn.mpr ⟨ht, hcontains⟩) hu, hcovers⟩
  rcases htaken with hcontains | ⟨x, hx, ⟨rfl, hcontains⟩ | ⟨rfl, hcontains⟩⟩
  · apply covers_removed_of_isSelected
    refine ⟨selection, hselection, (Selection.takes_iff (h.isSome _ hselection)).mpr ?_⟩
    exact Range.covers_of_contains hcontains hcovers
  · obtain ⟨-, hback⟩ := h.partner?_of_mem_pairs hx
    exact hpartner (Forest.mem_tags_of_mem_pairs hx).2 hcontains hback hcovers
  · obtain ⟨hforth, -⟩ := h.partner?_of_mem_pairs hx
    exact hpartner (Forest.mem_tags_of_mem_pairs hx).1 hcontains hforth hcovers

/-- A tag that no selection takes stays as it is. -/
theorem covers_removed_of_not_takesTag (h : s.EditsForest f) (ht : t ∈ f.tags .origin)
    (hkept : ¬s.TakesTag f t) (hcell : cell ∈ s.document.cells)
    (hcovers : t.range.covers cell.position) : s.removed.covers cell.position = false := by
  apply Bool.eq_false_iff.mpr
  intro hremoved
  obtain ⟨selection, hselection, hremoval⟩ := exists_removal h.isValid hcell hremoved
  obtain ⟨pre, inner, post, hwritten, -⟩ := h.exists_writtenIn ht
  have hdisjoint {q : Position} (hq : t.range.covers q) :
      ¬((s.reach selection).1.covers q ∨ ∃ e ∈ (s.reach selection).2, e.covers q) := by
    intro htaken
    exact hkept ⟨selection, hselection,
      h.isTaken_of_covers hselection ht hq (covers_reach.mp htaken)⟩
  have hsome : (s.reach selection).1.start < (s.reach selection).1.stop := by
    obtain ⟨hstart, hstop⟩ := Range.covers_iff.mp
      (covers_reach_of_takes (Selection.takes_start (h.isSome _ hselection)))
    exact Position.lt_of_le_of_lt hstart hstop
  rw [hwritten.range_eq] at hcovers hdisjoint
  refine hremoval.not_covers hwritten.divided hcell hsome ?_ ?_ hcovers
  · exact fun q hq hreached => hdisjoint hq (.inl hreached)
  · exact fun e he q hq hapart => hdisjoint hq (.inr ⟨e, he, hapart⟩)

/-- The tags that start at a position that goes are those that some selection takes. -/
theorem covers_removed_start (h : s.EditsForest f) (ht : t ∈ f.tags .origin) :
    s.removed.covers t.range.start ↔ s.TakesTag f t := by
  obtain ⟨pre, inner, post, hwritten, -⟩ := h.exists_writtenIn ht
  have hcell := Document.mem_cells_of_charAt (Document.charAt_open hwritten.divided)
  have hcovers : t.range.covers t.range.start :=
    Range.covers_iff.mpr ⟨Position.le_refl _, (Forest.within_of_mem_tags ht).2.1⟩
  constructor
  · intro hremoved
    by_contra hkept
    rw [h.covers_removed_of_not_takesTag ht hkept hcell hcovers] at hremoved
    cases hremoved
  · rintro ⟨selection, hselection, htaken⟩
    exact h.covers_removed_of_isTaken hselection ht htaken hcell hcovers
      (show '<' ≠ '\n' by decide)

/-- The two tags of a pair are taken together. -/
theorem isTaken_iff_of_mem_pairs (h : s.EditsForest f) (hx : x ∈ f.pairs .origin) :
    f.IsTaken selection x.1 ↔ f.IsTaken selection x.2 := by
  have hpartner {t u : Tag} (hu : s.document.partner? s.settings.limits t = some u)
      (htaken : f.IsTaken selection t) :
      selection.range.contains t.range ∨ selection.range.contains u.range := by
    rcases htaken with hcontains | ⟨y, hy, ⟨rfl, hcontains⟩ | ⟨rfl, hcontains⟩⟩
    · exact .inl hcontains
    · rw [(h.partner?_of_mem_pairs hy).1] at hu
      exact .inr (Option.some.inj hu ▸ hcontains)
    · rw [(h.partner?_of_mem_pairs hy).2] at hu
      exact .inr (Option.some.inj hu ▸ hcontains)
  obtain ⟨hforth, hback⟩ := h.partner?_of_mem_pairs hx
  constructor
  · intro htaken
    rcases hpartner hforth htaken with hcontains | hcontains
    · exact .inr ⟨x, hx, .inr ⟨rfl, hcontains⟩⟩
    · exact .inl hcontains
  · intro htaken
    rcases hpartner hback htaken with hcontains | hcontains
    · exact .inr ⟨x, hx, .inl ⟨rfl, hcontains⟩⟩
    · exact .inl hcontains

theorem takesTag_iff_of_mem_pairs (h : s.EditsForest f) (hx : x ∈ f.pairs .origin) :
    s.TakesTag f x.1 ↔ s.TakesTag f x.2 := by
  simp only [TakesTag, h.isTaken_iff_of_mem_pairs hx]

theorem losesPairs (h : s.EditsForest f) : f.LosesPairs s.removed.covers .origin := by
  have hcells : Cell.layOut .origin f.toText = s.document.cells := by
    rw [Document.cells, h.text_eq]
  apply Forest.losesPairs_of_tags h.isUncommented (fun cell hcell => hcells ▸ hcell)
  · intro t ht cell hcell hcovers
    split
    next hgone =>
      intro hchar
      obtain ⟨selection, hselection, htaken⟩ := (h.covers_removed_start ht).mp hgone
      exact h.covers_removed_of_isTaken hselection ht htaken hcell hcovers hchar
    next hkept =>
      apply h.covers_removed_of_not_takesTag ht _ hcell hcovers
      exact fun htaken => hkept ((h.covers_removed_start ht).mpr htaken)
  · intro x hx
    obtain ⟨hleft, hright⟩ := Forest.mem_tags_of_mem_pairs hx
    rw [Bool.eq_iff_iff, h.covers_removed_start hleft, h.covers_removed_start hright,
      h.takesTag_iff_of_mem_pairs hx]

end Session.EditsForest

namespace Session

/-- Deleting selections together with partners keeps markup well formed: a forest is left, and its
tags are those of the old one without the tags that are taken, which come in pairs. -/
theorem execute_deleteSelectionWithPairs_forest (s : Session) (f : Forest)
    (hsome : s.selections ≠ []) (h : s.EditsForest f) :
    ∃ (count : Nat) (after : Session) (g : Forest),
      s.execute .deleteSelectionWithPairs = .ok (.applied count false, after) ∧
      after.document.text = g.toText ∧ g.IsUncommented ∧ (f.IsNamed → g.IsNamed) ∧
      (g.tags .origin).map after.document.spelling =
        ((f.tags .origin).filter (¬s.TakesTag f ·)).map s.document.spelling ∧
      ∀ x ∈ f.pairs .origin, s.TakesTag f x.1 ↔ s.TakesTag f x.2 := by
  obtain ⟨count, after, hexecute, hafter⟩ :=
    exists_execute_deleteSelectionWithPairs hsome h.isValid
  have hdiv : s.document.DividedAt .origin [] (f.toText ++ []) :=
    ⟨h.text_eq.trans (List.append_nil _).symm, rfl⟩
  have htext : after.document.text = (f.prune s.removed.covers .origin).toText := by
    rw [Forest.toText_prune h.losesPairs, hafter, ← h.text_eq]
    rfl
  refine ⟨count, after, f.prune s.removed.covers .origin, hexecute, htext,
    h.isUncommented.prune _ _, fun hnamed => hnamed.prune _ _, ?_,
    fun x hx => h.takesTag_iff_of_mem_pairs hx⟩
  have hleft : after.document.DividedAt .origin []
      ((f.prune s.removed.covers .origin).toText ++ []) :=
    ⟨htext.trans (List.append_nil _).symm, rfl⟩
  rw [Forest.map_spelling_tags hleft, Forest.spellings_prune hdiv h.losesPairs]
  congr 1
  apply List.filter_congr
  intro t ht
  rw [Bool.eq_iff_iff, Bool.not_eq_true', decide_eq_true_eq, ← h.covers_removed_start ht,
    Bool.not_eq_true]

/-- Without its opening tag, the sample also loses the closing one. -/
theorem execute_deleteSelectionWithPairs_forest_sample :
    let s : Session := ⟨⟨Forest.sample.toText, .lf⟩, [⟨⟨0, 0⟩, ⟨1, 1⟩⟩], .default, .other⟩
    s.selections ≠ [] ∧ s.EditsForest Forest.sample ∧
      ∃ (count : Nat) (after : Session) (g : Forest),
        s.execute .deleteSelectionWithPairs = .ok (.applied count false, after) ∧
        after.document.text = g.toText ∧ g.IsUncommented ∧
        (g.tags .origin).map after.document.spelling =
          [(['a', '1'], .selfClosing, ['<', 'a', '1', '/', '>']),
            ([], .opening, ['<', '>']), ([], .closing, ['<', '/', '>'])] := by
  intro s
  have hsome : s.selections ≠ [] := List.cons_ne_nil _ _
  have hquotes : Forest.sample.toText.all (!Bracket.isQuote ·) := by decide
  have hbrackets (b : Bracket) (hb : b ≠ .angle) :
      Forest.sample.toText.all fun c => c != b.opener && c != b.closer := by
    cases b with
    | angle => contradiction
    | paren | square | curly => decide
  have h : s.EditsForest Forest.sample :=
    { text_eq := rfl
      isUncommented := ⟨⟨trivial, trivial⟩, trivial⟩
      unquoted := by simpa using hquotes
      unbracketed := fun c hc b hb => by simpa using List.all_eq_true.mp (hbrackets b hb) c hc
      lineCount_lt := by decide
      isValid := by decide
      isSome := by decide
      outside := by decide }
  obtain ⟨count, after, g, hexecute, htext, huncommented, -, htags, -⟩ :=
    execute_deleteSelectionWithPairs_forest s Forest.sample hsome h
  exact ⟨hsome, h, count, after, g, hexecute, htext, huncommented, htags.trans (by decide)⟩

end Session

end MarkupPairs
