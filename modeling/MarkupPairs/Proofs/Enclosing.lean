import MarkupPairs.Proofs.Angles
import MarkupPairs.Proofs.TagCharacters
import MarkupPairs.Tag.Enclosing

/-!
# What the tag under a position is

A tag that is found under a position is written in the text around it: its angles take each other,
and the position is behind its `<` and not behind its `>`. The other way round, a position between
the angles of a balanced text finds what the text says.
-/

namespace MarkupPairs

namespace Tag

theorem range_of_parse? {s : Text} {r : Range} {t : Tag} (h : parse? s r = some t) :
    t.range = r := by
  unfold parse? at h
  split at h
  · rw [← Option.some.inj h]
  · split at h
    · rw [← Option.some.inj h]
    · split at h
      next rest _ _ =>
        obtain ⟨name, -, rfl⟩ := Option.map_eq_some_iff.mp h
        rfl
      · cases h

/-- A tag whose text ends in a slash is an element by itself. -/
theorem endsSelfClosed_angled {s : Text} : endsSelfClosed s.angled ↔ ['/'] <:+ s := by
  have htrim : s.angled.trimEnd = s.angled := by
    have hwhite : Unicode.isWhite '>' = false := by decide
    simp [Text.trimEnd, Text.angled, hwhite]
  rw [endsSelfClosed, htrim, List.isSuffixOf_iff_suffix, Text.angled]
  constructor
  · rintro ⟨x, hx⟩
    have hlast : x ++ ['/'] = '<' :: s := by
      have hangle : (x ++ ['/']) ++ ['>'] = ('<' :: s) ++ ['>'] := by
        rw [← hx, List.append_assoc, List.singleton_append]
      exact List.append_cancel_right hangle
    cases x with
    | nil => cases hlast
    | cons c x => exact ⟨x, (List.cons.inj hlast).2⟩
  · rintro ⟨x, rfl⟩
    exact ⟨'<' :: x, by simp⟩

@[simp] theorem parse?_angled_nil (r : Range) :
    parse? (Text.angled []) r = some ⟨[], .opening, r⟩ := rfl

@[simp] theorem parse?_angled_slash (r : Range) :
    parse? (Text.angled ['/']) r = some ⟨[], .closing, r⟩ := rfl

/-- What is read of a text in angles that is no tag of a fragment. -/
theorem parse?_angled {s : Text} (hopening : s ≠ []) (hclosing : s ≠ ['/']) (r : Range) :
    parse? s.angled r = (leadingName (splitSlash (s ++ ['>'])).2).map fun name =>
      ⟨name, if (splitSlash (s ++ ['>'])).1 then .closing
        else if endsSelfClosed s.angled then .selfClosing else .opening, r⟩ := by
  have hnil : s.angled ≠ ['<', '>'] := fun h =>
    hopening (List.append_cancel_right (List.cons.inj h).2)
  have hslash : s.angled ≠ ['<', '/', '>'] := fun h =>
    hclosing (List.append_cancel_right ((List.cons.inj h).2 : s ++ ['>'] = ['/'] ++ ['>']))
  unfold parse?
  rw [if_neg hnil, if_neg hslash]
  rfl

/-- What is said of an element by itself: more than a slash, and a slash at the end. -/
theorem exists_of_selfClosing {s : Text} {r : Range} {t : Tag} (h : parse? s.angled r = some t)
    (hkind : t.kind = .selfClosing) : ∃ body, body ≠ [] ∧ s = body ++ ['/'] := by
  by_cases hopening : s = []
  · rw [hopening, parse?_angled_nil] at h
    rw [← Option.some.inj h] at hkind
    cases hkind
  · by_cases hclosing : s = ['/']
    · rw [hclosing, parse?_angled_slash] at h
      rw [← Option.some.inj h] at hkind
      cases hkind
    · rw [parse?_angled hopening hclosing] at h
      obtain ⟨name, -, rfl⟩ := Option.map_eq_some_iff.mp h
      by_cases hends : endsSelfClosed s.angled
      · obtain ⟨body, rfl⟩ := endsSelfClosed_angled.mp hends
        exact ⟨body, by rintro rfl; exact hclosing rfl, rfl⟩
      · simp only [hends] at hkind
        split at hkind
        · cases hkind
        · cases hkind

theorem trimStart_of_isAlpha {c : Char} (hc : c.isAlpha) (t : Text) :
    Text.trimStart (c :: t) = c :: t := by
  have hwhite : Unicode.isWhite c = false :=
    Unicode.not_isWhite_of_isAlphanum (by simp [Char.isAlphanum, hc])
  rw [Text.trimStart, List.dropWhile_cons, hwhite]
  rfl

theorem splitSlash_of_isAlpha {c : Char} (hc : c.isAlpha) (t : Text) :
    splitSlash (c :: t) = (false, c :: t) := by
  have hslash : c ≠ '/' :=
    Unicode.ne_of_isAlphanum (by simp [Char.isAlphanum, hc]) (by decide)
  rw [splitSlash, trimStart_of_isAlpha hc]
  split
  next heq => exact absurd (List.cons.inj heq).1 hslash
  next => rfl

theorem splitSlash_slash (t : Text) : splitSlash ('/' :: t) = (true, t.trimStart) := by
  have htrim : Text.trimStart ('/' :: t) = '/' :: t := by
    rw [Text.trimStart, List.dropWhile_cons, if_neg (by decide)]
  rw [splitSlash, htrim]
  rfl

/-- Whether a text is the name of a tag: nothing, or an ASCII letter and what may follow it. -/
def IsName (name : Text) : Prop := name = [] ∨ leadingName name = some name

instance (name : Text) : Decidable (IsName name) := inferInstanceAs (Decidable (_ ∨ _))

/-- A name at the start of a text is a letter and all that may follow it. -/
theorem leadingName_eq_some_iff {t name : Text} :
    leadingName t = some name ↔
      ∃ c rest, t = c :: rest ∧ c.isAlpha ∧ name = c :: rest.takeWhile isNameRest := by
  cases t with
  | nil => simp [leadingName]
  | cons c rest => simp [leadingName, eq_comm (a := name)]

theorem isName_of_leadingName {t name : Text} (h : leadingName t = some name) : IsName name := by
  obtain ⟨c, rest, -, hc, rfl⟩ := leadingName_eq_some_iff.mp h
  refine .inr (leadingName_eq_some_iff.mpr ⟨c, _, rfl, hc, congrArg (List.cons c) ?_⟩)
  exact (List.takeWhile_eq_self_iff.mpr fun _ hx => List.mem_takeWhile_imp hx).symm

/-- A name is read up to what may not follow its letter. -/
theorem leadingName_append {name : Text} (h : leadingName name = some name) {c : Char}
    (hc : isNameRest c = false) (u : Text) : leadingName (name ++ c :: u) = some name := by
  obtain ⟨first, rest, rfl, hfirst, hrest⟩ := leadingName_eq_some_iff.mp h
  have hall : ∀ x ∈ rest, isNameRest x :=
    List.takeWhile_eq_self_iff.mp (List.cons.inj hrest).2.symm
  rw [List.cons_append, leadingName, if_pos hfirst, List.takeWhile_append_of_pos hall,
    List.takeWhile_cons, hc]
  simp

theorem IsName.isNameRest {name : Text} (h : IsName name) : ∀ c ∈ name, isNameRest c := by
  rcases h with rfl | h
  · simp
  · obtain ⟨c, rest, rfl, hc, hrest⟩ := leadingName_eq_some_iff.mp h
    rw [List.forall_mem_cons]
    exact ⟨isNameRest_of_isAlphanum (by simp [Char.isAlphanum, hc]),
      List.takeWhile_eq_self_iff.mp (List.cons.inj hrest).2.symm⟩

theorem isName_of_parse? {s : Text} {r : Range} {t : Tag} (h : parse? s r = some t) :
    IsName t.name := by
  unfold parse? at h
  split at h
  · rw [← Option.some.inj h]
    exact .inl rfl
  · split at h
    · rw [← Option.some.inj h]
      exact .inl rfl
    · split at h
      · obtain ⟨name, hname, rfl⟩ := Option.map_eq_some_iff.mp h
        exact isName_of_leadingName hname
      · cases h

/-- What is read of angles with a name behind the `<`, or behind the slash of a closing tag. -/
theorem parse?_head {s name tail : Text} {closing : Bool}
    (hs : s = (if closing then ['/'] else []) ++ (name ++ tail)) (hname : IsName name)
    (hends : ∀ c, tail.head? = some c → TagHead.endsName c) (hnil : name = [] → tail = [])
    (r : Range) :
    parse? s.angled r = some ⟨name, if closing then .closing
      else if endsSelfClosed s.angled then .selfClosing else .opening, r⟩ := by
  rcases hname with rfl | hname
  · rw [hnil rfl] at hs
    cases closing with
    | true => rw [hs]; rfl
    | false => rw [hs]; rfl
  · obtain ⟨first, rest, rfl, hfirst, -⟩ := leadingName_eq_some_iff.mp hname
    obtain ⟨c, u, hu, hc⟩ : ∃ c u, tail ++ ['>'] = c :: u ∧ isNameRest c = false := by
      cases tail with
      | nil => exact ⟨'>', [], rfl, by decide⟩
      | cons c tail => exact ⟨c, tail ++ ['>'], rfl, (TagHead.not_isNameChar_of_endsName
          (hends c rfl)).2⟩
    have hread := leadingName_append hname hc u
    rw [← hu, List.cons_append] at hread
    have hopening : s ≠ [] := by simp [hs]
    have hclosing : s ≠ ['/'] := by
      rintro rfl
      cases closing with
      | true => simp at hs
      | false =>
          rw [← (List.cons.inj hs).1] at hfirst
          exact absurd hfirst (by decide)
    cases closing with
    | true =>
        have hslash : s ++ ['>'] = '/' :: first :: (rest ++ (tail ++ ['>'])) := by simp [hs]
        rw [parse?_angled hopening hclosing, hslash, splitSlash_slash, trimStart_of_isAlpha hfirst,
          hread]
        rfl
    | false =>
        have hslash : s ++ ['>'] = first :: (rest ++ (tail ++ ['>'])) := by simp [hs]
        rw [parse?_angled hopening hclosing, hslash, splitSlash_of_isAlpha hfirst, hread]
        rfl

/-- A tag that starts with a letter, or says nothing, is not a closing tag. -/
theorem kind_ne_closing {s : Text} {r : Range} {t : Tag} {next : Char}
    (h : parse? s.angled r = some t) (hs : s.IsBalanced) (hnext : (s ++ ['>']).head? = some next)
    (hchar : next.isAlpha ∨ next = '>') : t.kind ≠ .closing := by
  cases s with
  | nil =>
      rw [parse?_angled_nil] at h
      rw [← Option.some.inj h]
      exact fun hkind => by cases hkind
  | cons c s =>
      obtain rfl := Option.some.inj hnext
      rcases hchar with halpha | rfl
      · have hclosing : c :: s ≠ ['/'] := by
          rintro heq
          rw [(List.cons.inj heq).1] at halpha
          exact absurd halpha (by decide)
        rw [parse?_angled (List.cons_ne_nil c s) hclosing, List.cons_append,
          splitSlash_of_isAlpha halpha] at h
        obtain ⟨name, -, rfl⟩ := Option.map_eq_some_iff.mp h
        by_cases hends : endsSelfClosed (Text.angled (c :: s))
        · simp [hends]
        · simp [hends]
      · cases hs

/-- What starts with a letter, or says nothing, is a tag. -/
theorem exists_parse? {s : Text} {next : Char} (hs : s.IsBalanced)
    (hnext : (s ++ ['>']).head? = some next) (hchar : next.isAlpha ∨ next = '>') (r : Range) :
    ∃ t, parse? s.angled r = some t := by
  cases s with
  | nil => exact ⟨_, parse?_angled_nil r⟩
  | cons c s =>
      obtain rfl := Option.some.inj hnext
      rcases hchar with halpha | rfl
      · have hclosing : c :: s ≠ ['/'] := by
          intro heq
          rw [(List.cons.inj heq).1] at halpha
          exact absurd halpha (by decide)
        rw [parse?_angled (List.cons_ne_nil c s) hclosing, List.cons_append,
          splitSlash_of_isAlpha halpha, leadingName, if_pos halpha]
        exact ⟨_, rfl⟩
      · cases hs

/-- A tag of a document, by what the text says before it, between its angles and behind it. -/
structure WrittenIn (t : Tag) (d : Document) (pre inner post : Text) : Prop where
  divided : d.DividedAt t.range.start pre (inner.angled ++ post)
  range_eq : t.range = Range.spanning t.range.start inner.angled
  isBalanced : inner.IsBalanced
  parse_eq : parse? inner.angled t.range = some t

namespace WrittenIn

variable {t : Tag} {d : Document} {pre inner post : Text}

theorem stop_eq (h : t.WrittenIn d pre inner post) :
    t.range.stop = t.range.start.afterText inner.angled := congrArg Range.stop h.range_eq

theorem dividedAt_stop (h : t.WrittenIn d pre inner post) :
    d.DividedAt t.range.stop (pre ++ inner.angled) post := h.stop_eq ▸ h.divided.append

theorem slice_eq (h : t.WrittenIn d pre inner post) : d.slice t.range = inner.angled := by
  rw [h.range_eq]
  exact h.divided.slice

end WrittenIn

end Tag

namespace Document

variable {d : Document} {limits : ScanLimits} {p q : Position} {pre post : Text}

/-- The cells before a position, as far back as a window allows, lay out the end of what stands
before the position. -/
theorem exists_takeWhile_cellsBefore (d : Document) (p : Position) (window : Cell → Bool) :
    ∃ cut near post, d.text = cut ++ (near ++ post) ∧
      (d.cellsBefore p).takeWhile window =
        (Cell.layOut (Position.origin.afterText cut) near).reverse ∧
      (∀ cell ∈ Cell.layOut (Position.origin.afterText cut) near, cell.position < p) ∧
      d.cellsFrom p = Cell.layOut (Position.origin.afterText (cut ++ near)) post := by
  obtain ⟨before, post, htext, hbefore, hfrom⟩ := d.exists_cells_eq p
  have hwindow := List.takeWhile_append_dropWhile (p := window) (l := d.cellsBefore p)
  have hreverse : Cell.layOut Position.origin before =
      ((d.cellsBefore p).dropWhile window).reverse ++
        ((d.cellsBefore p).takeWhile window).reverse := by
    rw [← List.reverse_append, hwindow, hbefore, List.reverse_reverse]
  obtain ⟨hcut, -, hnear⟩ := Cell.layOut_eq_append hreverse
  rw [hcut, List.append_assoc] at htext
  refine ⟨_, _, post, htext, ?_, ?_, ?_⟩
  · rw [← hnear, List.reverse_reverse]
  · intro cell hcell
    rw [← hnear, List.mem_reverse] at hcell
    have hmem := (List.takeWhile_sublist _).subset hcell
    rw [cellsBefore, List.mem_reverse] at hmem
    simpa using List.mem_takeWhile_imp hmem
  · rw [hfrom, hcut]

/-- The cells from a position on, as far as a window allows, lay out a part of the text. -/
theorem exists_takeWhile_cellsFrom (d : Document) (p : Position) (window : Cell → Bool) :
    ∃ pre near post, d.text = pre ++ (near ++ post) ∧
      (d.cellsFrom p).takeWhile window = Cell.layOut (Position.origin.afterText pre) near := by
  obtain ⟨pre, post, htext, -, hfrom⟩ := d.exists_cells_eq p
  have hwindow := List.takeWhile_append_dropWhile (p := window) (l := d.cellsFrom p)
  obtain ⟨hpost, hnear, -⟩ := Cell.layOut_eq_append (hfrom.symm.trans hwindow.symm)
  exact ⟨pre, _, _, htext.trans (congrArg (pre ++ ·) hpost), hnear⟩

theorem le_of_cellsFrom_eq_cons {cell : Cell} {cells : List Cell}
    (h : d.cellsFrom p = cell :: cells) : p ≤ cell.position := by
  have hhead := List.head?_dropWhile_not (fun cell => decide (cell.position < p)) d.cells
  rw [← cellsFrom, h] at hhead
  simpa [Position.not_lt] using hhead

theorem openAngle?_of_charAt (h : d.charAt p = some '<') : d.openAngle? limits p = some p :=
  if_pos h

/-- The `<` that a search backward stops at has balanced text behind it, up to the position. -/
theorem exists_of_openAngle?_of_ne (hne : d.charAt p ≠ some '<')
    (h : d.openAngle? limits p = some q) :
    q < p ∧ ∃ pre mid : Text, d.DividedAt q pre ('<' :: (mid ++ Cell.text (d.cellsFrom p))) ∧
      mid.IsBalanced := by
  rw [openAngle?, if_neg hne] at h
  obtain ⟨cut, near, post, htext, hwindow, hlt, hpost⟩ := d.exists_takeWhile_cellsBefore p
    (p.line - limits.enclosing ≤ ·.position.line)
  rw [hwindow] at h
  obtain ⟨pre, mid, rfl, hmid, hq⟩ := Cell.exists_of_seek_reverse_layOut h
  constructor
  · refine hlt ⟨q, '<'⟩ ?_
    rw [Cell.layOut_append, ← hq]
    exact List.mem_append_right _ List.mem_cons_self
  · refine ⟨cut ++ pre, mid, ⟨?_, ?_⟩, hmid⟩
    · rw [htext, hpost, Cell.text_layOut]
      simp
    · rw [hq, Position.afterText_append]

/-- The `<` under a position is no further on than the position. -/
theorem exists_of_openAngle? (h : d.openAngle? limits p = some q) :
    q ≤ p ∧ ∃ pre post, d.DividedAt q pre ('<' :: post) := by
  by_cases hchar : d.charAt p = some '<'
  · rw [openAngle?_of_charAt hchar] at h
    obtain rfl := Option.some.inj h
    obtain ⟨-, hdiv⟩ := exists_dividedAt_of_charAt hchar
    exact ⟨Position.le_refl _, hdiv⟩
  · obtain ⟨hlt, pre, mid, hdiv, -⟩ := exists_of_openAngle?_of_ne hchar h
    exact ⟨Position.le_of_lt hlt, pre, _, hdiv⟩

/-- The `>` that takes a `<` has balanced text before it. -/
theorem exists_of_closeAngle? {s : Position} (hdiv : d.DividedAt q pre ('<' :: post))
    (h : d.closeAngle? limits q = some s) :
    ∃ inner rest, post = inner ++ '>' :: rest ∧ inner.IsBalanced ∧
      s = (q.after '<').afterText inner := by
  rw [closeAngle?, hdiv.cellsAfter] at h
  have hall := Cell.seek_append h
    ((Cell.layOut (q.after '<') post).dropWhile (·.position.line < q.line + limits.enclosing))
  rw [List.takeWhile_append_dropWhile] at hall
  exact Cell.exists_of_seek_layOut hall

/-- Once the angles are found, the text from one to the other is read. -/
theorem tagAt?_eq {inner : Text} (hopen : d.openAngle? limits p = some q)
    (hclose : d.closeAngle? limits q = some ((q.after '<').afterText inner))
    (hdiv : d.DividedAt q pre (inner.angled ++ post)) :
    d.tagAt? limits p = if (q.after '<').afterText inner < p then none
      else Tag.parse? inner.angled (Range.spanning q inner.angled) := by
  have hrange : Range.between q (((q.after '<').afterText inner).right 1) =
      Range.spanning q inner.angled := by
    rw [Text.angled, ← Range.between_right (by decide)]
    rfl
  rw [tagAt?, hopen, Option.bind_eq_bind, Option.bind_some, hclose, Option.bind_some]
  simp only [hrange, hdiv.slice]

/-- A tag that is found under a position is written around it. -/
theorem exists_of_tagAt? {t : Tag} (h : d.tagAt? limits p = some t) :
    (∃ pre inner post, t.WrittenIn d pre inner post) ∧ t.range.start ≤ p ∧ p < t.range.stop ∧
      d.openAngle? limits p = some t.range.start := by
  obtain ⟨q, hopen, hstop⟩ := Option.bind_eq_some_iff.mp h
  obtain ⟨s, hclose, -⟩ := Option.bind_eq_some_iff.mp hstop
  obtain ⟨hle, pre, post, hdiv⟩ := exists_of_openAngle? hopen
  obtain ⟨inner, rest, rfl, hbalanced, rfl⟩ := exists_of_closeAngle? hdiv hclose
  have hangled : '<' :: (inner ++ '>' :: rest) = inner.angled ++ rest := by simp [Text.angled]
  rw [hangled] at hdiv
  rw [tagAt?_eq hopen hclose hdiv] at h
  split at h
  next => cases h
  next hbehind =>
    have hrange := Tag.range_of_parse? h
    have hstart : t.range.start = q := congrArg Range.start hrange
    have hstop : t.range.stop = ((q.after '<').afterText inner).after '>' :=
      (congrArg Range.stop hrange).trans (Text.afterText_angled q inner)
    refine ⟨⟨pre, inner, rest, hstart ▸ hdiv, hstart ▸ hrange, hbalanced, hrange ▸ h⟩,
      hstart ▸ hle, ?_, hstart ▸ hopen⟩
    rw [hstop]
    exact Position.lt_of_le_of_lt (Position.not_lt.mp hbehind) (Position.lt_after _ _)

/-- A tag under a `<` starts there. -/
theorem start_of_tagAt? {t : Tag} (h : d.tagAt? limits p = some t)
    (hchar : d.charAt p = some '<') : t.range.start = p := by
  obtain ⟨-, -, -, hopen⟩ := exists_of_tagAt? h
  rw [openAngle?_of_charAt hchar] at hopen
  exact (Option.some.inj hopen).symm

/-- A tag under a `>` stops right behind it. -/
theorem stop_of_tagAt? {t : Tag} (h : d.tagAt? limits p = some t)
    (hchar : d.charAt p = some '>') : t.range.stop = p.after '>' := by
  obtain ⟨⟨pre, inner, post, ht⟩, -, -, hopen⟩ := exists_of_tagAt? h
  obtain ⟨-, before, behind, hdiv⟩ := exists_dividedAt_of_charAt hchar
  obtain ⟨-, pre', mid, hstart, hmid⟩ :=
    exists_of_openAngle?_of_ne (by rw [hchar]; decide) hopen
  rw [hdiv.cellsFrom, Cell.text_layOut] at hstart
  obtain ⟨-, htext⟩ := ht.divided.unique hstart
  rw [Text.angled, List.append_assoc, List.cons_append, List.singleton_append] at htext
  obtain rfl := ht.isBalanced.unique hmid (List.cons.inj htext).2
  have hclose : d.DividedAt ((t.range.start.after '<').afterText inner) _ ('>' :: behind) :=
    hstart.next.append
  rw [ht.range_eq, hdiv.position_unique hclose]
  exact Text.afterText_angled _ _

/-- The tag of a position is under the position, or else it is under the character before and stops
at the position. -/
theorem enclosingTag?_cases {t : Tag} (h : d.enclosingTag? limits p = some t) :
    d.tagAt? limits p = some t ∨
      d.tagAt? limits p = none ∧ t.range.stop = p ∧
        d.tagAt? limits ⟨p.line, p.character - 1⟩ = some t := by
  rw [enclosingTag?] at h
  cases hunder : d.tagAt? limits p with
  | some t' =>
      rw [hunder] at h
      exact .inl h
  | none =>
      rw [hunder] at h
      change (if _ then _ else _) = _ at h
      split at h
      next hbefore =>
        refine .inr ⟨rfl, ?_, h⟩
        rw [stop_of_tagAt? h hbefore.2, Position.after_of_ne (by decide), Position.right]
        exact Position.ext_iff'.mpr ⟨rfl, Nat.sub_add_cancel hbefore.1⟩
      next => cases h

/-- The tag of a position is written in the document. -/
theorem exists_writtenIn {t : Tag} (h : d.enclosingTag? limits p = some t) :
    ∃ pre inner post, t.WrittenIn d pre inner post := by
  rcases enclosingTag?_cases h with h | ⟨-, -, h⟩
  · exact (exists_of_tagAt? h).1
  · exact (exists_of_tagAt? h).1

theorem enclosingTag?_of_tagAt? {t : Tag} (h : d.tagAt? limits p = some t) :
    d.enclosingTag? limits p = some t := by
  rw [enclosingTag?, h]
  rfl

/-- A tag that stops at a position is the tag of the position when there is none under it. -/
theorem enclosingTag?_of_behind {t : Tag} (hnone : d.tagAt? limits p = none)
    (h : d.tagAt? limits ⟨p.line, p.character - 1⟩ = some t) (hstop : t.range.stop = p) :
    d.enclosingTag? limits p = some t := by
  obtain ⟨⟨pre, inner, post, hwritten⟩, -, -, -⟩ := exists_of_tagAt? h
  let close := (t.range.start.after '<').afterText inner
  have hclose : p = close.right 1 := by
    rw [← hstop, hwritten.range_eq]
    exact (Text.afterText_angled _ _).trans (Position.after_of_ne (by decide))
  have hdiv : d.DividedAt close (pre ++ ['<'] ++ inner) ('>' :: post) := by
    refine DividedAt.append (DividedAt.next ?_)
    have hdivided := hwritten.divided
    rwa [Text.angled, List.append_assoc, List.cons_append, List.singleton_append] at hdivided
  have hcharacter : 0 < p.character := by
    rw [hclose]
    exact Nat.succ_pos _
  have hprevious : (⟨p.line, p.character - 1⟩ : Position) = close := by
    rw [hclose]
    rfl
  rw [enclosingTag?, hnone, hprevious]
  refine (if_pos ⟨hcharacter, ?_⟩).trans (hprevious ▸ h)
  rw [hdiv.charAt]
  rfl

/-! ## Finding a tag -/

/-- In a window that holds the whole document the `>` is found that balances a `<`. -/
theorem closeAngle?_of_isBalanced {inner : Text}
    (hdiv : d.DividedAt q pre (inner.angled ++ post)) (hinner : inner.IsBalanced)
    (hlimits : d.lineCount ≤ limits.enclosing) :
    d.closeAngle? limits q = some ((q.after '<').afterText inner) := by
  have hcells : d.cellsAfter q = Cell.layOut (q.after '<') (inner ++ '>' :: post) := by
    rw [Text.angled, List.append_assoc, List.cons_append, List.singleton_append] at hdiv
    exact hdiv.cellsAfter
  rw [closeAngle?, takeWhile_line_lt (d.cellsAfter_subset q) hlimits, hcells, Cell.layOut_append,
    Cell.seek_layOut hinner]
  rfl

/-- In a window that holds the whole document the `<` is found that balanced text follows. -/
theorem openAngle?_of_isBalanced {inside : Text}
    (hdiv : d.DividedAt p (pre ++ '<' :: inside) post) (hinside : inside.IsBalanced)
    (hpost : post.head? ≠ some '<') (hlimits : d.lineCount ≤ limits.enclosing) :
    d.openAngle? limits p = some (Position.origin.afterText pre) := by
  have hchar : d.charAt p ≠ some '<' := by
    rw [hdiv.charAt]
    intro h
    exact hpost (Option.filter_eq_some_iff.mp h).1
  rw [openAngle?, if_neg hchar, takeWhile_le_line (Nat.le_of_lt hdiv.line_lt) hlimits,
    hdiv.cellsBefore, Cell.layOut_append, Cell.layOut_cons, List.reverse_append,
    List.reverse_cons, List.append_assoc, Cell.seek_reverse_layOut hinside]
  rfl

/-- Anywhere on a tag without angles inside, the tag is what is found. -/
theorem tagAt?_of_isPlain {inner : Text} (hdiv : d.DividedAt q pre (inner.angled ++ post))
    (hinner : inner.IsPlain) (hlimits : d.lineCount ≤ limits.enclosing)
    (hvalid : d.isValid p) (hle : q ≤ p) (hlt : p < q.afterText inner.angled) :
    d.tagAt? limits p = Tag.parse? inner.angled (Range.spanning q inner.angled) := by
  obtain ⟨near, rest, hsplit, hrest, -, hp⟩ := hdiv.exists_split hvalid hle hlt
  -- between the `<` and the position there are no angles
  have hopen : d.openAngle? limits p = some q := by
    cases near with
    | nil =>
        rw [List.append_nil] at hp
        obtain rfl : p = q := hp.position_eq.trans hdiv.position_eq.symm
        refine openAngle?_of_charAt ?_
        rw [hdiv.charAt]
        rfl
    | cons c inside =>
        obtain ⟨rfl, htail⟩ : '<' = c ∧ inner ++ ['>'] = inside ++ rest := List.cons.inj hsplit
        obtain ⟨more, rfl⟩ : inside <+: inner := by
          refine List.prefix_of_prefix_length_le ⟨_, htail.symm⟩ ⟨_, rfl⟩ ?_
          have hlength := congrArg List.length htail
          have hpos := List.length_pos_iff.mpr hrest
          simp only [List.length_append, List.length_singleton] at hlength
          omega
        obtain ⟨hinside, hmore⟩ := Text.isPlain_append.mp hinner
        rw [List.append_assoc, List.append_cancel_left_eq] at htail
        rw [hdiv.position_eq]
        refine openAngle?_of_isBalanced hp hinside.isBalanced ?_ hlimits
        rw [← htail]
        cases more with
        | nil => simp
        | cons x more => simpa using (hmore x List.mem_cons_self).1
  rw [tagAt?_eq hopen (closeAngle?_of_isBalanced hdiv hinner.isBalanced hlimits) hdiv, if_neg]
  rw [Text.afterText_angled, Position.after_of_ne (by decide)] at hlt
  simp only [Position.lt_def, Position.right] at hlt ⊢
  omega

end Document

end MarkupPairs
