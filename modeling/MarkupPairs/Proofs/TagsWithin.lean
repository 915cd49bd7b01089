import MarkupPairs.Proofs.AnglePass
import MarkupPairs.Proofs.Enclosing
import MarkupPairs.Proofs.Offsets

/-!
# The tags within a range, one by one

The pass over the text of a range sees nothing of the rest of the document. Still each tag that it
reports is the tag that the search finds at its `<`, and no tag that the search finds there is
missed, unless it starts inside a tag that is reported.
-/

namespace MarkupPairs

/-! ## The pass over a text -/

namespace Tag

/-- Whether a text that stands at a position begins with a tag: with two angles that take each
other and say the tag. -/
def Begins (t : Tag) (p : Position) (s : Text) : Prop :=
  ∃ inner rest : Text, s = inner.angled ++ rest ∧ inner.IsBalanced ∧
    parse? inner.angled (Range.spanning p inner.angled) = some t

/-- What a pass over a text that stands at a position reports: a tag that the text begins with, and
then what is behind the tag; or else what is behind the first character. -/
inductive Reports : Position → Text → List Tag → Prop where
  | nil {p : Position} : Reports p [] []
  | pass {p : Position} {c : Char} {s : Text} {tags : List Tag}
      (begins : ∀ t : Tag, ¬t.Begins p (c :: s)) (rest : Reports (p.after c) s tags) :
      Reports p (c :: s) tags
  | tag {p : Position} {t : Tag} {inner s : Text} {tags : List Tag} (balanced : inner.IsBalanced)
      (parse : parse? inner.angled (Range.spanning p inner.angled) = some t)
      (rest : Reports (p.afterText inner.angled) s tags) :
      Reports p (inner.angled ++ s) (t :: tags)

variable {t u : Tag} {p : Position} {s inner rest : Text} {tags : List Tag} {c : Char}

theorem Begins.range_eq (h : t.Begins p s) :
    ∃ inner rest : Text, s = inner.angled ++ rest ∧ t.range = Range.spanning p inner.angled := by
  obtain ⟨inner, rest, hs, -, hparse⟩ := h
  exact ⟨inner, rest, hs, range_of_parse? hparse⟩

theorem Begins.start_eq (h : t.Begins p s) : t.range.start = p := by
  obtain ⟨inner, rest, -, hrange⟩ := h.range_eq
  rw [hrange]
  rfl

/-- A text begins with one tag only. -/
theorem Begins.unique (h : t.Begins p s) (h' : u.Begins p s) : t = u := by
  obtain ⟨inner, rest, rfl, hinner, hparse⟩ := h
  obtain ⟨inner', rest', hs, hinner', hparse'⟩ := h'
  rw [Text.angled_append, Text.angled_append] at hs
  obtain rfl := hinner.unique hinner' (List.cons.inj hs).2
  exact Option.some.inj (hparse.symm.trans hparse')

theorem Begins.append (h : t.Begins p s) (rest : Text) : t.Begins p (s ++ rest) := by
  obtain ⟨inner, behind, rfl, hinner, hparse⟩ := h
  exact ⟨inner, behind ++ rest, List.append_assoc _ _ _, hinner, hparse⟩

/-- A text that does not begin with a tag is passed over by a character. -/
theorem Reports.pass_getElem {i : Nat} (hi : i < s.length)
    (hbegins : ∀ t : Tag, ¬t.Begins (p.afterText (s.take i)) (s.drop i))
    (hrest : Reports (p.afterText (s.take (i + 1))) (s.drop (i + 1)) tags) :
    Reports (p.afterText (s.take i)) (s.drop i) tags := by
  rw [List.take_succ_eq_append_getElem hi, Position.afterText_append,
    Position.afterText_singleton] at hrest
  rw [List.drop_eq_getElem_cons hi] at hbegins ⊢
  exact .pass hbegins hrest

theorem WrittenIn.begins {d : Document} {pre post : Text} (h : t.WrittenIn d pre inner post)
    (rest : Text) : t.Begins t.range.start (inner.angled ++ rest) := by
  refine ⟨inner, rest, rfl, h.isBalanced, ?_⟩
  rw [← h.range_eq]
  exact h.parse_eq

namespace Reports

/-- A tag that is reported is what the text from its place on begins with. -/
theorem exists_begins (h : Reports p s tags) (ht : t ∈ tags) :
    ∃ pre post, s = pre ++ post ∧ t.Begins (p.afterText pre) post := by
  induction h with
  | nil => cases ht
  | @pass p c s tags begins rest ih =>
      obtain ⟨pre, post, rfl, hbegins⟩ := ih ht
      exact ⟨c :: pre, post, rfl, hbegins⟩
  | @tag p first inner s tags balanced parse rest ih =>
      rcases List.mem_cons.mp ht with rfl | ht
      · exact ⟨[], _, rfl, inner, s, rfl, balanced, parse⟩
      · obtain ⟨pre, post, rfl, hbegins⟩ := ih ht
        refine ⟨inner.angled ++ pre, post, by rw [List.append_assoc], ?_⟩
        rw [Position.afterText_append]
        exact hbegins

theorem mem_of_begins (h : Reports p s tags) (ht : t.Begins p s) : t ∈ tags := by
  cases h with
  | nil =>
      obtain ⟨inner, rest, hnil, -⟩ := ht
      cases hnil
  | pass begins rest => exact absurd ht (begins t)
  | @tag p first inner s tags balanced parse rest =>
      rw [ht.unique ⟨inner, s, rfl, balanced, parse⟩]
      exact List.mem_cons_self

/-- Each tag that is reported stops before the next one starts. -/
theorem pairwise (h : Reports p s tags) :
    tags.Pairwise fun t u => t.range.start < u.range.start ∧ t.range.stop ≤ u.range.start := by
  induction h with
  | nil => exact .nil
  | pass _ _ ih => exact ih
  | @tag p first inner s tags _ parse rest ih =>
      refine List.pairwise_cons.mpr ⟨?_, ih⟩
      intro u hu
      obtain ⟨pre, post, rfl, hbegins⟩ := rest.exists_begins hu
      rw [range_of_parse? parse, hbegins.start_eq, ← Position.afterText_append]
      constructor
      · exact Position.lt_afterText (List.append_ne_nil_of_left_ne_nil (List.cons_ne_nil _ _) pre)
      · rw [Position.afterText_append]
        exact Position.le_afterText _ pre

/-- A tag that the text from some place on begins with is reported, unless the place is inside a
tag that is. -/
theorem mem_or_exists (h : Reports p s tags) {pre post : Text} (hs : s = pre ++ post)
    (ht : t.Begins (p.afterText pre) post) :
    t ∈ tags ∨ ∃ u ∈ tags, u.range.start < t.range.start ∧ t.range.start < u.range.stop := by
  induction h generalizing pre with
  | nil =>
      obtain ⟨rfl, rfl⟩ := List.append_eq_nil_iff.mp hs.symm
      obtain ⟨inner, rest, hnil, -⟩ := ht
      cases hnil
  | @pass p c s tags begins rest ih =>
      cases pre with
      | nil => exact absurd (hs ▸ ht) (begins t)
      | cons x pre =>
          obtain ⟨rfl, rfl⟩ := List.cons.inj hs
          exact ih rfl ht
  | @tag p first inner s tags balanced parse rest ih =>
      have hfirst : first.Begins p (inner.angled ++ s) := ⟨inner, s, rfl, balanced, parse⟩
      cases hpre : pre with
      | nil =>
          rw [hpre] at hs ht
          left
          rw [List.nil_append] at hs
          rw [ht.unique (hs ▸ hfirst)]
          exact List.mem_cons_self
      | cons x pre' =>
          by_cases hlength : pre.length < inner.angled.length
          · right
            refine ⟨first, List.mem_cons_self, ?_⟩
            rw [ht.start_eq, hfirst.start_eq, range_of_parse? parse]
            refine ⟨Position.lt_afterText (hpre ▸ List.cons_ne_nil _ _), ?_⟩
            exact (Position.afterText_lt_iff hs.symm).mpr hlength
          · obtain ⟨pre, rfl⟩ : inner.angled <+: pre :=
              List.prefix_of_prefix_length_le ⟨s, rfl⟩ ⟨post, hs.symm⟩ (Nat.le_of_not_lt hlength)
            rw [List.append_assoc, List.append_cancel_left_eq] at hs
            rw [Position.afterText_append] at ht
            rcases ih hs ht with hmem | ⟨u, hu, hinside⟩
            · exact .inl (List.mem_cons_of_mem _ hmem)
            · exact .inr ⟨u, List.mem_cons_of_mem _ hu, hinside⟩

end Reports

end Tag

/-! ## The range in its document -/

namespace Document

variable {d : Document} {limits : ScanLimits} {r : Range} {t : Tag} {p : Position}
  {pre inner post s : Text} {i : Nat}

theorem DividedAt.positionAt_take (h : d.DividedAt p pre (s ++ post)) (hi : i ≤ s.length) :
    d.positionAt (pre.length + i) = p.afterText (s.take i) := by
  have hsplit : s ++ post = s.take i ++ (s.drop i ++ post) := by
    rw [← List.append_assoc, List.take_append_drop]
  rw [hsplit] at h
  have hposition := h.append.positionAt
  rwa [List.length_append, List.length_take_of_le hi] at hposition

/-- What the loop reads at a `<` that the pass says is taken: the text between two angles, and the
range of it. -/
theorem exists_of_closes (hdiv : d.DividedAt p pre (s ++ post)) {stop : Nat}
    (h : (AnglePass.run s).closes[i]? = some (some stop)) :
    ∃ inner rest : Text, inner.IsBalanced ∧ s.drop i = inner.angled ++ rest ∧
      (s.take (stop + 1)).drop i = inner.angled ∧ s.drop (stop + 1) = rest ∧
      p.afterText (s.take (stop + 1)) = (p.afterText (s.take i)).afterText inner.angled ∧
      Range.between (d.positionAt (pre.length + i)) (d.positionAt (pre.length + stop + 1)) =
        Range.spanning (p.afterText (s.take i)) inner.angled := by
  obtain ⟨front, inner, rest, rfl, rfl, hinner, rfl⟩ := (AnglePass.closes_run s).mp h
  have hstop : front.length + 1 + inner.length + 1 = (front ++ inner.angled).length := by
    simp only [Text.angled, List.length_append, List.length_cons, List.length_nil]
    omega
  have htake : (front ++ (inner.angled ++ rest)).take (front ++ inner.angled).length =
      front ++ inner.angled := by
    rw [← List.append_assoc, List.take_left]
  have hdrop : (front ++ (inner.angled ++ rest)).drop (front ++ inner.angled).length = rest := by
    rw [← List.append_assoc, List.drop_left]
  have hfront := hdiv.positionAt_take (i := front.length) (by simp)
  have hbehind := hdiv.positionAt_take (i := (front ++ inner.angled).length) (by simp)
  rw [List.take_left] at hfront
  rw [htake, Position.afterText_append] at hbehind
  refine ⟨inner, rest, hinner, List.drop_left, ?_, ?_, ?_, ?_⟩
  · rw [hstop, htake, List.drop_left]
  · rw [hstop, hdrop]
  · rw [hstop, htake, List.take_left, Position.afterText_append]
  · rw [Nat.add_assoc pre.length, hstop, hfront, hbehind, List.take_left, Range.between_afterText]

/-- From each index on, the loop over a text that stands at a position reports what it has to. -/
theorem reports_tagsFrom (hdiv : d.DividedAt p pre (s ++ post)) :
    Tag.Reports (p.afterText (s.take i)) (s.drop i) (d.tagsFrom pre.length s (.run s) i) := by
  fun_induction tagsFrom d pre.length s (.run s) i with
  | case1 i hlt stop hclose range tag hparse ih =>
      obtain ⟨inner, rest, hinner, hdrop, hspan, hrest, hstop, hrange⟩ :=
        exists_of_closes hdiv hclose
      replace hrange : range = _ := hrange
      rw [hspan, hrange] at hparse
      rw [hrest, hstop] at ih
      rw [hdrop]
      exact .tag hinner hparse ih
  | case2 i hlt stop hclose range hparse ih =>
      obtain ⟨inner, rest, hinner, hdrop, hspan, -, -, hrange⟩ := exists_of_closes hdiv hclose
      replace hrange : range = _ := hrange
      rw [hspan, hrange] at hparse
      refine .pass_getElem hlt ?_ ih
      rintro t ⟨inner', rest', hs, hinner', hparse'⟩
      rw [hdrop, Text.angled_append, Text.angled_append] at hs
      obtain rfl := hinner.unique hinner' (List.cons.inj hs).2
      rw [hparse] at hparse'
      cases hparse'
  | case3 i hlt hopen ih =>
      refine .pass_getElem hlt ?_ ih
      rintro t ⟨inner, rest, hs, hinner, -⟩
      refine hopen (i + 1 + inner.length) ((AnglePass.closes_run s).mpr ?_)
      refine ⟨s.take i, inner, rest, ?_, List.length_take_of_le (Nat.le_of_lt hlt), hinner, rfl⟩
      rw [← hs, List.take_append_drop]
  | case4 i hlt =>
      rw [List.drop_of_length_le (Nat.le_of_not_lt hlt)]
      exact .nil

theorem reports_tagsIn (d : Document) (r : Range) :
    Tag.Reports (d.positionAt (d.offsetAt r.start)) (d.slice r) (d.tagsIn r) := by
  obtain ⟨pre, post, htext, hstart, -⟩ := d.exists_text_eq_slice r
  have hdiv : d.DividedAt (Position.origin.afterText pre) pre (d.slice r ++ post) := ⟨htext, rfl⟩
  rw [tagsIn, ← hstart, hdiv.positionAt]
  have hreports := reports_tagsFrom (i := 0) hdiv
  rwa [List.take_zero, Position.afterText_nil, List.drop_zero] at hreports

/-- A tag that the text of a range begins with is reported. -/
theorem mem_tagsIn_of_begins (h : t.Begins (d.positionAt (d.offsetAt r.start)) (d.slice r)) :
    t ∈ d.tagsIn r := (d.reports_tagsIn r).mem_of_begins h

/-- A range contains a tag that lies between the offsets of its ends. -/
theorem contains_iff_offsetAt (h : t.WrittenIn d pre inner post) :
    r.contains t.range ↔
      d.offsetAt r.start ≤ pre.length ∧ (pre ++ inner.angled).length ≤ d.offsetAt r.stop := by
  have hstart : d.offsetAt t.range.start = pre.length := h.divided.offsetAt
  have hstop : d.offsetAt t.range.stop = (pre ++ inner.angled).length := by
    rw [h.range_eq]
    exact h.divided.append.offsetAt
  rw [Range.contains_iff]
  constructor
  · rintro ⟨hfrom, hto⟩
    exact ⟨hstart ▸ offsetAt_mono hfrom, hstop ▸ offsetAt_mono hto⟩
  · rintro ⟨hfrom, hto⟩
    have hlength : (pre ++ inner.angled).length = (pre ++ '<' :: inner).length + 1 := by
      rw [Text.angled, ← List.append_assoc, List.length_append]
      rfl
    have hopen : d.DividedAt t.range.start pre ('<' :: (inner ++ '>' :: post)) :=
      Text.angled_append inner post ▸ h.divided
    have hclose : d.DividedAt ((t.range.start.after '<').afterText inner) (pre ++ '<' :: inner)
        ('>' :: post) := by
      have hinner := hopen.next.append
      rwa [List.append_assoc] at hinner
    rw [hlength] at hto
    have hle : pre.length ≤ (pre ++ '<' :: inner).length := by
      rw [List.length_append]
      exact Nat.le_add_right _ _
    -- the range covers the two angles
    have hfirst : r.covers t.range.start := by
      apply (covers_iff_offsetAt (hopen.charAt_cons (by decide))).mpr
      rw [hstart]
      exact ⟨hfrom, Nat.lt_of_le_of_lt hle hto⟩
    have hlast : r.covers ((t.range.start.after '<').afterText inner) := by
      apply (covers_iff_offsetAt (hclose.charAt_cons (by decide))).mpr
      rw [hclose.offsetAt]
      exact ⟨Nat.le_trans hfrom hle, hto⟩
    refine ⟨(Range.covers_iff.mp hfirst).1, ?_⟩
    rw [h.stop_eq, Text.afterText_angled, Position.after_of_ne (by decide)]
    exact Position.right_one_le.mpr (Range.covers_iff.mp hlast).2

/-- What is reported for a range is written between the offsets of its ends. -/
theorem exists_writtenIn_between (h : t ∈ d.tagsIn r) :
    ∃ pre inner post, t.WrittenIn d pre inner post ∧ d.offsetAt r.start ≤ pre.length ∧
      (pre ++ inner.angled).length ≤ d.offsetAt r.stop := by
  obtain ⟨front, post, htext, hfrom, hto⟩ := d.exists_text_eq_slice r
  have hdiv : d.DividedAt (Position.origin.afterText front) front (d.slice r ++ post) :=
    ⟨htext, rfl⟩
  have hreports := d.reports_tagsIn r
  rw [← hfrom, hdiv.positionAt] at hreports
  obtain ⟨near, behind, hs, hbegins⟩ := hreports.exists_begins h
  have hstart := hbegins.start_eq
  obtain ⟨inner, rest, rfl, hinner, hparse⟩ := hbegins
  rw [← hstart] at hparse
  have hrange := Tag.range_of_parse? hparse
  rw [hs] at hto htext
  refine ⟨front ++ near, inner, rest ++ post, ⟨⟨?_, ?_⟩, hrange, hinner, ?_⟩, ?_, ?_⟩
  · rw [htext]
    simp only [List.append_assoc]
  · rw [hstart, Position.afterText_append]
  · rw [← hrange] at hparse
    exact hparse
  · rw [← hfrom, List.length_append]
    exact Nat.le_add_right _ _
  · simp only [← hto, List.length_append]
    omega

theorem exists_writtenIn_of_mem_tagsIn (h : t ∈ d.tagsIn r) :
    ∃ pre inner post, t.WrittenIn d pre inner post := by
  obtain ⟨pre, inner, post, hwritten, -⟩ := exists_writtenIn_between h
  exact ⟨pre, inner, post, hwritten⟩

/-- The tags that are reported for a range lie within it. -/
theorem contains_of_mem_tagsIn (h : t ∈ d.tagsIn r) : r.contains t.range := by
  obtain ⟨pre, inner, post, hwritten, hbetween⟩ := exists_writtenIn_between h
  exact (contains_iff_offsetAt hwritten).mpr hbetween

/-- A tag that lies within a range is reported, unless it starts inside one that is. -/
theorem mem_tagsIn_or_exists (h : t.WrittenIn d pre inner post) (hr : r.contains t.range) :
    t ∈ d.tagsIn r ∨
      ∃ u ∈ d.tagsIn r, u.range.start < t.range.start ∧ t.range.start < u.range.stop := by
  obtain ⟨hfrom, hto⟩ := (contains_iff_offsetAt h).mp hr
  obtain ⟨front, behind, htext, hfront, hslice⟩ := d.exists_text_eq_slice r
  have hdiv : d.DividedAt (Position.origin.afterText front) front (d.slice r ++ behind) :=
    ⟨htext, rfl⟩
  have hreports := d.reports_tagsIn r
  rw [← hfront, hdiv.positionAt] at hreports
  have hwhole := h.divided.text_eq
  obtain ⟨near, rfl⟩ : front <+: pre :=
    List.prefix_of_prefix_length_le ⟨_, htext.symm⟩ ⟨_, hwhole.symm⟩ (hfront ▸ hfrom)
  have htag : front ++ near ++ inner.angled <+: d.text :=
    ⟨post, (List.append_assoc _ _ _).trans hwhole.symm⟩
  have hrange : front ++ d.slice r <+: d.text :=
    ⟨behind, (List.append_assoc _ _ _).trans htext.symm⟩
  obtain ⟨rest, hrest⟩ := List.prefix_of_prefix_length_le htag hrange (hslice ▸ hto)
  rw [List.append_assoc, List.append_assoc, List.append_cancel_left_eq] at hrest
  apply hreports.mem_or_exists hrest.symm
  rw [← Position.afterText_append, ← h.divided.position_eq]
  exact h.begins rest

/-- Where the text of a document begins with a tag, that is the tag that the search finds. -/
theorem tagAt?_of_begins (hdiv : d.DividedAt p pre post) (h : t.Begins p post)
    (hlimits : d.lineCount ≤ limits.enclosing) : d.tagAt? limits p = some t := by
  obtain ⟨inner, rest, rfl, hinner, hparse⟩ := h
  have hopen : d.openAngle? limits p = some p := by
    apply openAngle?_of_charAt
    rw [hdiv.charAt]
    rfl
  have hbehind : ¬(p.after '<').afterText inner < p :=
    Position.not_lt.mpr (Position.le_trans (Position.le_of_lt (p.lt_after '<'))
      (Position.le_afterText _ inner))
  rw [tagAt?_eq hopen (closeAngle?_of_isBalanced hdiv hinner hlimits) hdiv, if_neg hbehind, hparse]

/-- The tags that are reported for a range lie within it, in order and apart from each other, and
each is the tag that the search finds at its start. Of the tags that the search finds at their
start, and that lie within the range, only those are missed that start inside one that is
reported. -/
theorem tagsIn_complete (d : Document) (r : Range) (hlimits : d.lineCount ≤ limits.enclosing) :
    (∀ t ∈ d.tagsIn r, r.contains t.range ∧ d.enclosingTag? limits t.range.start = some t) ∧
    ((d.tagsIn r).Pairwise fun t u =>
      t.range.start < u.range.start ∧ t.range.stop ≤ u.range.start) ∧
    ∀ t, d.enclosingTag? limits t.range.start = some t → r.contains t.range →
      t ∈ d.tagsIn r ∨
        ∃ u ∈ d.tagsIn r, u.range.start < t.range.start ∧ t.range.start < u.range.stop := by
  refine ⟨?_, (d.reports_tagsIn r).pairwise, ?_⟩
  · intro t ht
    obtain ⟨pre, inner, post, hwritten⟩ := exists_writtenIn_of_mem_tagsIn ht
    refine ⟨contains_of_mem_tagsIn ht, ?_⟩
    exact enclosingTag?_of_tagAt?
      (tagAt?_of_begins hwritten.divided (hwritten.begins post) hlimits)
  · intro t ht hr
    obtain ⟨before, inner, behind, hwritten⟩ := exists_writtenIn ht
    exact mem_tagsIn_or_exists hwritten hr

/-- In `<!<a>><b>`, from inside the first span to before the last `>`: the tag that the first span
has inside. -/
theorem tagsIn_complete_commented :
    let d : Document := ⟨['<', '!', '<', 'a', '>', '>', '<', 'b', '>'], .lf⟩
    let r : Range := ⟨⟨0, 2⟩, ⟨0, 8⟩, by decide⟩
    let t : Tag := ⟨['a'], .opening, ⟨⟨0, 2⟩, ⟨0, 5⟩, by decide⟩⟩
    d.lineCount ≤ (ScanLimits.mk 1 1 1).enclosing ∧ t ∈ d.tagsIn r ∧
      d.enclosingTag? ⟨1, 1, 1⟩ ⟨0, 2⟩ = some t := by
  intro d r t
  have hlimits : d.lineCount ≤ (ScanLimits.mk 1 1 1).enclosing := by decide
  have hbegins : t.Begins ⟨0, 2⟩ ['<', 'a', '>', '>', '<', 'b'] :=
    ⟨['a'], ['>', '<', 'b'], rfl, by decide, by decide⟩
  have ht : t ∈ d.tagsIn r := mem_tagsIn_of_begins hbegins
  exact ⟨hlimits, ht, ((tagsIn_complete d r hlimits).1 t ht).2⟩

end Document

end MarkupPairs
