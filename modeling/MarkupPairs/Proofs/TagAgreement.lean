import MarkupPairs.Proofs.TagMarks

/-!
# Where reading a tag and searching for its partner agree

A text in angles is read as a tag of some kind, and the searches for a partner count it for an
opening tag, a closing tag or neither. The kinds differ where a blank stands before the name, where
the name is followed by what does not end it, and where blanks stand between the last slash of an
opening tag and its `>`. In all other cases they are the same.
-/

namespace MarkupPairs

/-- The kind of a tag that counts for a mark. What counts for none is as an element by itself. -/
def Mark.kind : Option Mark → TagKind
  | none => .selfClosing
  | some .opens => .opening
  | some .closes => .closing

namespace Tag

/-- The opening tag that is a name in angles, for a place where it starts. -/
def opener (n : Text) (p : Position) : Tag := ⟨n, .opening, Range.spanning p n.angled⟩

/-- The closing tag that is a slash and a name in angles, for a place where it starts. -/
def closer (n : Text) (p : Position) : Tag :=
  ⟨n, .closing, Range.spanning p (Text.angled ('/' :: n))⟩

/-- A text in angles behind one opening tag, with two closing tags behind it. -/
def openedBefore (n s : Text) : Text :=
  n.angled ++ (s.angled ++ (Text.angled ('/' :: n) ++ Text.angled ('/' :: n)))

/-- A text in angles behind two opening tags, with one closing tag behind it. -/
def closedBehind (n s : Text) : Text :=
  n.angled ++ (n.angled ++ (s.angled ++ Text.angled ('/' :: n)))

/-- The closing tag that the opening tag of `openedBefore` has when the text between is a tag of
some kind. -/
def partnerForward (n s : Text) (p : Position) : TagKind → Tag
  | .closing => ⟨n, .closing, Range.spanning p s.angled⟩
  | .selfClosing => closer n (p.afterText s.angled)
  | .opening => closer n ((p.afterText s.angled).afterText (Text.angled ('/' :: n)))

/-- The opening tag that the closing tag of `closedBehind` has when the text between is a tag of
some kind. -/
def partnerBackward (n s : Text) (p : Position) : TagKind → Tag
  | .opening => ⟨n, .opening, Range.spanning ((p.afterText n.angled).afterText n.angled) s.angled⟩
  | .selfClosing => opener n (p.afterText n.angled)
  | .closing => opener n p

variable {n s : Text} {k l : TagKind} {p : Position} {r : Range}

/-- Three places in ascending order tell the kinds apart. -/
theorem kind_inj (start : TagKind → Position) (hclosing : start .closing < start .selfClosing)
    (hopening : start .selfClosing < start .opening) (h : start k = start l) : k = l := by
  have hne {a b : Position} (hlt : a < b) : a ≠ b := by
    rintro rfl
    exact Position.lt_irrefl a hlt
  have hlast := Position.lt_of_lt_of_le hclosing (Position.le_of_lt hopening)
  cases k with
  | opening =>
      cases l with
      | opening => rfl
      | closing => exact absurd h.symm (hne hlast)
      | selfClosing => exact absurd h.symm (hne hopening)
  | closing =>
      cases l with
      | opening => exact absurd h (hne hlast)
      | closing => rfl
      | selfClosing => exact absurd h (hne hclosing)
  | selfClosing =>
      cases l with
      | opening => exact absurd h (hne hopening)
      | closing => exact absurd h.symm (hne hclosing)
      | selfClosing => rfl

theorem lt_afterText_angled (p : Position) (t : Text) : p < p.afterText t.angled :=
  Position.lt_afterText (List.cons_ne_nil _ _)

theorem partnerForward_inj (h : partnerForward n s p k = partnerForward n s p l) : k = l :=
  kind_inj (fun k => (partnerForward n s p k).range.start) (lt_afterText_angled _ _)
    (lt_afterText_angled _ _) (congrArg (fun t => t.range.start) h)

end Tag

/-! ## The marks of the tags around -/

section Around

variable {n : Text}

theorem isPlain_of_isAlpha (hn : ∀ c ∈ n, c.isAlpha) : n.IsPlain := by
  intro c hc
  have halnum : c.isAlphanum := by simp [Char.isAlphanum, hn c hc]
  exact ⟨Unicode.ne_of_isAlphanum halnum rfl, Unicode.ne_of_isAlphanum halnum rfl⟩

theorem isNameChar_of_isAlpha (hn : ∀ c ∈ n, c.isAlpha) : ∀ c ∈ n, TagHead.isNameChar c := by
  intro c hc
  exact TagHead.isNameChar_of_isAlphanum (by simp [Char.isAlphanum, hn c hc])

theorem forwardMark?_opener (hn : ∀ c ∈ n, c.isAlpha) :
    (Segment.mk n true).forwardMark? n = some .opens := by
  have hreads : ReadsAs n false n [] :=
    ⟨by simp, isNameChar_of_isAlpha hn, by simp, Text.isPlain_nil, fun _ => rfl⟩
  apply (forwardMark?_eq_some_iff (isPlain_of_isAlpha hn)).mpr
  exact ⟨[], hreads, fun _ => hreads.slashed_iff.not.mpr (by decide)⟩

theorem isPlain_closer (hn : ∀ c ∈ n, c.isAlpha) : Text.IsPlain ('/' :: n) :=
  List.forall_mem_cons.mpr ⟨by decide, isPlain_of_isAlpha hn⟩

theorem forwardMark?_closer (hn : ∀ c ∈ n, c.isAlpha) :
    (Segment.mk ('/' :: n) true).forwardMark? n = some .closes := by
  have hreads : ReadsAs ('/' :: n) true n [] :=
    ⟨by simp, isNameChar_of_isAlpha hn, by simp, Text.isPlain_nil, fun _ => rfl⟩
  apply (forwardMark?_eq_some_iff (isPlain_closer hn)).mpr
  exact ⟨[], hreads, fun hopens => by cases hopens⟩

/-- What counts in spite of a slash is a closing tag and counts without one too. -/
theorem Segment.mark?_of_slashed {s : Segment} {wanted : Text} {m : Mark}
    (h : s.mark? wanted true = some m) (slashed : Bool) : s.mark? wanted slashed = some m := by
  unfold mark? at h ⊢
  cases hhead : s.head? with
  | none =>
      rw [hhead] at h
      cases h
  | some head =>
      obtain ⟨closing, name⟩ := head
      rw [hhead] at h
      cases closing with
      | true => simpa using h
      | false => simp at h

/-- What a search forward counts, a search backward counts alike. -/
theorem Segment.backwardMark?_of_forwardMark? {s : Segment} {wanted : Text} {m : Mark}
    (h : s.forwardMark? wanted = some m) (left : Option Bool) :
    s.backwardMark? wanted left = some m := by
  unfold forwardMark? at h
  split at h
  next hclosed =>
    by_cases hslash : s.text.trimEnd.getLast? = some '/'
    · rw [hslash] at h
      exact mark?_of_slashed h _
    · have hends : s.text.endsSlashed = false :=
        Bool.eq_false_iff.mpr fun hends => hslash (Text.getLast?_of_endsSlashed hends)
      rw [beq_eq_false_iff_ne.mpr hslash] at h
      simpa [backwardMark?, close?, hclosed, hends] using h
  next => cases h

end Around

/-! ## The searches around a text in angles -/

section Searches

variable {n s : Text} {d : Document} {limits : ScanLimits} {depth : Nat} {p : Position}

theorem seekClosing_closer {ink : Option Char} {rest : List Cell} (hn : ∀ c ∈ n, c.isAlpha) :
    seekClosing n depth .outside ink (Cell.layOut p (Text.angled ('/' :: n)) ++ rest) =
      match depth with
      | 0 => some (Tag.closer n p)
      | depth + 1 => seekClosing n depth .outside (some '>') rest := by
  rw [seekClosing_angled (isPlain_closer hn), forwardMark?_closer hn]
  cases depth with
  | zero => rfl
  | succ depth => rfl

theorem seekOpening_opener {close : Option (Position × Bool)} {behind : Text} {before : List Cell}
    (hn : ∀ c ∈ n, c.isAlpha) :
    ∃ close', seekOpening n depth close behind ((Cell.layOut p n.angled).reverse ++ before) =
      match depth with
      | 0 => some (Tag.opener n p)
      | depth + 1 => seekOpening n depth close' (n.angled ++ behind) before := by
  rw [seekOpening_angled (isPlain_of_isAlpha hn) none,
    Segment.backwardMark?_of_forwardMark? (forwardMark?_opener hn)]
  cases depth with
  | zero => exact ⟨none, rfl⟩
  | succ depth => exact ⟨_, rfl⟩

/-- From the opening tag before it, the search goes by what the text in angles counts for. -/
theorem partner?_opener (hn : ∀ c ∈ n, c.isAlpha) (hs : s.IsPlain)
    (hd : d.text = Tag.openedBefore n s) (hlimits : d.lineCount < limits.paired) :
    d.partner? limits (Tag.opener n Position.origin) =
      some (Tag.partnerForward n s (Position.origin.afterText n.angled)
        (Mark.kind ((Segment.mk s true).forwardMark? n))) := by
  have hdiv : d.DividedAt Position.origin [] (Tag.openedBefore n s) := ⟨hd, rfl⟩
  change d.closingTag? limits n (Position.origin.afterText n.angled) = _
  rw [hdiv.append.closingTag? hlimits, Cell.layOut_append, seekClosing_angled hs,
    ← List.append_nil (Text.angled ('/' :: n) ++ Text.angled ('/' :: n)), List.append_assoc,
    Cell.layOut_append, Cell.layOut_append]
  cases (Segment.mk s true).forwardMark? n with
  | none => exact seekClosing_closer hn
  | some m =>
      cases m with
      | opens => exact (seekClosing_closer hn).trans (seekClosing_closer hn)
      | closes => rfl

/-- From the closing tag behind it, the search goes by what the text in angles counts for. -/
theorem partner?_closer (hn : ∀ c ∈ n, c.isAlpha) (hs : s.IsPlain)
    (hd : d.text = Tag.closedBehind n s) (hlimits : d.lineCount < limits.paired) :
    d.partner? limits
        (Tag.closer n (Position.origin.afterText (n.angled ++ (n.angled ++ s.angled)))) =
      some (Tag.partnerBackward n s Position.origin
        (Mark.kind ((Segment.mk s true).backwardMark? n none))) := by
  have hdiv : d.DividedAt (Position.origin.afterText (n.angled ++ (n.angled ++ s.angled)))
      (n.angled ++ (n.angled ++ s.angled)) (Text.angled ('/' :: n)) :=
    ⟨by rw [hd, Tag.closedBehind]; simp only [List.append_assoc], rfl⟩
  change d.openingTag? limits n (Position.origin.afterText (n.angled ++ (n.angled ++ s.angled))) = _
  rw [hdiv.openingTag? hlimits, Cell.layOut_append, Cell.layOut_append, List.reverse_append,
    List.reverse_append, List.append_assoc, seekOpening_angled hs none]
  cases (Segment.mk s true).backwardMark? n none with
  | none =>
      obtain ⟨close, hfirst⟩ := seekOpening_opener hn
      exact hfirst
  | some m =>
      cases m with
      | opens => rfl
      | closes =>
          obtain ⟨close, hsecond⟩ := seekOpening_opener hn
          refine hsecond.trans ?_
          obtain ⟨close', hfirst⟩ := seekOpening_opener hn
          rw [← List.append_nil (Cell.layOut Position.origin n.angled).reverse]
          exact hfirst

end Searches

/-! ## Agreement -/

theorem Tag.kind_of_slash {s : Text} {r : Range} {t : Tag}
    (h : parse? (Text.angled ('/' :: s)) r = some t) : t.kind = .closing := by
  by_cases hs : s = []
  · rw [hs, parse?_angled_slash] at h
    rw [← Option.some.inj h]
  · have hslash : '/' :: s ≠ ['/'] := fun heq => hs (List.cons.inj heq).2
    rw [parse?_angled (List.cons_ne_nil _ _) hslash, List.cons_append, splitSlash_slash] at h
    obtain ⟨name, -, rfl⟩ := Option.map_eq_some_iff.mp h
    rfl

/-- What is read as an element by itself counts for nothing, in either direction. -/
theorem marks_of_selfClosing {s n : Text} {r : Range} (hs : s.IsPlain)
    (h : Tag.parse? s.angled r = some ⟨n, .selfClosing, r⟩) (left : Option Bool) :
    (Segment.mk s true).forwardMark? n = none ∧
      (Segment.mk s true).backwardMark? n left = none := by
  obtain ⟨body, -, hbody⟩ := Tag.exists_of_selfClosing h rfl
  have hslash : s.trimEnd.getLast? = some '/' := by
    rw [hbody, Text.trimEnd_concat, if_neg (by decide), List.getLast?_concat]
  have hends : s.endsSlashed := by
    rw [hbody, Text.endsSlashed, List.reverse_append]
    rfl
  have hmark : (Segment.mk s true).mark? n true = none := by
    apply Option.eq_none_iff_forall_ne_some.mpr
    intro m hm
    have hforward : (Segment.mk s true).forwardMark? n = some m := by
      simpa [Segment.forwardMark?, hslash] using hm
    obtain ⟨tail, hreads, hopens⟩ := (forwardMark?_eq_some_iff hs).mp hforward
    cases m with
    | opens => exact hopens rfl hslash
    | closes =>
        have hclosing : s = '/' :: (n ++ tail) := hreads.text_eq
        rw [hclosing] at h
        have hkind := Tag.kind_of_slash h
        cases hkind
  constructor
  · rw [Segment.forwardMark?, if_pos rfl, hslash]
    exact hmark
  · rw [Segment.backwardMark?, Segment.close?, if_pos rfl, hends]
    exact hmark

/-- The mark that a kind asks for, if it asks for one. -/
theorem Mark.kind_eq_iff {m : Option Mark} :
    (kind m = .opening ↔ m = some .opens) ∧ (kind m = .closing ↔ m = some .closes) := by
  match m with
  | none => simp [kind]
  | some .opens => simp [kind]
  | some .closes => simp [kind]

/-- A text in angles that is read as a tag has the partners that its kind asks for if and only if it
is an element by itself, or its name stands right behind its `<` and slash and is ended by a blank,
a slash or its `>`, and the last character of an opening tag that is not blank is no slash. -/
theorem partners_eq_iff {n s : Text} {k : TagKind} {r : Range} {d d' : Document}
    {limits : ScanLimits} (hn : ∀ c ∈ n, c.isAlpha) (hs : s.IsPlain)
    (hparse : Tag.parse? s.angled r = some ⟨n, k, r⟩) (hd : d.text = Tag.openedBefore n s)
    (hd' : d'.text = Tag.closedBehind n s) (hlimits : d.lineCount < limits.paired)
    (hlimits' : d'.lineCount < limits.paired) :
    (d.partner? limits (Tag.opener n Position.origin) =
        some (Tag.partnerForward n s (Position.origin.afterText n.angled) k) ∧
      d'.partner? limits
          (Tag.closer n (Position.origin.afterText (n.angled ++ (n.angled ++ s.angled)))) =
        some (Tag.partnerBackward n s Position.origin k)) ↔
    k = .selfClosing ∨ ∃ tail, ReadsAs s (decide (k = .closing)) n tail ∧
      (k = .opening → s.trimEnd.getLast? ≠ some '/') := by
  rw [partner?_opener hn hs hd hlimits, partner?_closer hn hs hd' hlimits']
  have hforward {m : Mark} (h : (Segment.mk s true).forwardMark? n = some m) :=
    (forwardMark?_eq_some_iff hs).mp h
  constructor
  · rintro ⟨hpartner, -⟩
    have hkind := Tag.partnerForward_inj (Option.some.inj hpartner)
    cases k with
    | selfClosing => exact .inl rfl
    | opening =>
        obtain ⟨tail, hreads, hslash⟩ := hforward (Mark.kind_eq_iff.1.mp hkind)
        exact .inr ⟨tail, hreads, fun _ => hslash rfl⟩
    | closing =>
        obtain ⟨tail, hreads, -⟩ := hforward (Mark.kind_eq_iff.2.mp hkind)
        exact .inr ⟨tail, hreads, fun hopening => by cases hopening⟩
  · intro hagree
    suffices hkinds : Mark.kind ((Segment.mk s true).forwardMark? n) = k ∧
        Mark.kind ((Segment.mk s true).backwardMark? n none) = k by
      rw [hkinds.1, hkinds.2]
      exact ⟨rfl, rfl⟩
    have hboth {m : Mark} (h : (Segment.mk s true).forwardMark? n = some m) :
        Mark.kind ((Segment.mk s true).forwardMark? n) = Mark.kind (some m) ∧
          Mark.kind ((Segment.mk s true).backwardMark? n none) = Mark.kind (some m) :=
      ⟨congrArg Mark.kind h, congrArg Mark.kind (Segment.backwardMark?_of_forwardMark? h none)⟩
    cases k with
    | selfClosing =>
        obtain ⟨hnone, hnone'⟩ := marks_of_selfClosing hs hparse none
        rw [hnone, hnone']
        exact ⟨rfl, rfl⟩
    | opening =>
        rcases hagree with hkind | ⟨tail, hreads, hslash⟩
        · cases hkind
        · exact hboth ((forwardMark?_eq_some_iff (m := .opens) hs).mpr
            ⟨tail, hreads, fun _ => hslash rfl⟩)
    | closing =>
        rcases hagree with hkind | ⟨tail, hreads, -⟩
        · cases hkind
        · exact hboth ((forwardMark?_eq_some_iff (m := .closes) hs).mpr
            ⟨tail, hreads, fun hopens => by cases hopens⟩)

/-- Around `</a` and `>` on the next line, which is a closing tag for the searches too. -/
theorem partners_eq_iff_lineBreak :
    let n : Text := ['a']
    let s : Text := ['/', 'a', '\n']
    let r : Range := Range.spanning Position.origin s.angled
    let d : Document := ⟨Tag.openedBefore n s, .lf⟩
    let d' : Document := ⟨Tag.closedBehind n s, .lf⟩
    (∀ c ∈ n, c.isAlpha) ∧ s.IsPlain ∧ Tag.parse? s.angled r = some ⟨n, .closing, r⟩ ∧
      d.lineCount < (ScanLimits.mk 1 3 1).paired ∧ d'.lineCount < (ScanLimits.mk 1 3 1).paired ∧
      d.partner? ⟨1, 3, 1⟩ (Tag.opener n Position.origin) =
        some (Tag.partnerForward n s (Position.origin.afterText n.angled) .closing) ∧
      d'.partner? ⟨1, 3, 1⟩
          (Tag.closer n (Position.origin.afterText (n.angled ++ (n.angled ++ s.angled)))) =
        some (Tag.partnerBackward n s Position.origin .closing) := by
  intro n s r d d'
  have hn : ∀ c ∈ n, c.isAlpha := List.forall_mem_singleton.mpr (by decide)
  have hs : s.IsPlain := by decide
  have hparse : Tag.parse? s.angled r = some ⟨n, .closing, r⟩ := by decide
  have hlimits : d.lineCount < (ScanLimits.mk 1 3 1).paired := by decide
  have hlimits' : d'.lineCount < (ScanLimits.mk 1 3 1).paired := by decide
  refine ⟨hn, hs, hparse, hlimits, hlimits', ?_⟩
  apply (partners_eq_iff hn hs hparse rfl rfl hlimits hlimits').mpr
  refine .inr ⟨['\n'], ?_, fun hopening => by cases hopening⟩
  have hname : n ≠ [] := List.cons_ne_nil _ _
  refine ⟨rfl, isNameChar_of_isAlpha hn, ?_, by decide, fun hnil => absurd hnil hname⟩
  intro c hc
  obtain rfl := Option.some.inj hc
  decide

/-- A blank between the slash and the `>` tells reading and searching apart: `<a/ >` is read as an
opening tag, and the search forward takes it for an element by itself. -/
theorem partner_ne_slashBlank :
    let n : Text := ['a']
    let s : Text := ['a', '/', ' ']
    let r : Range := Range.spanning Position.origin s.angled
    let d : Document := ⟨Tag.openedBefore n s, .lf⟩
    Tag.parse? s.angled r = some ⟨n, .opening, r⟩ ∧
      d.partner? .default (Tag.opener n Position.origin) ≠
        some (Tag.partnerForward n s (Position.origin.afterText n.angled) .opening) := by
  decide

/-- A blank before the name does too: `</ a>` is read as a closing tag, and no search finds it. -/
example :
    let s : Text := ['/', ' ', 'a']
    let r : Range := Range.spanning Position.origin s.angled
    Tag.parse? s.angled r = some ⟨['a'], .closing, r⟩ ∧
      (⟨Tag.openedBefore ['a'] s, .lf⟩ : Document).partner? .default
          (Tag.opener ['a'] Position.origin) =
        some (Tag.partnerForward ['a'] s (Position.origin.afterText (Text.angled ['a']))
          .selfClosing) := by
  decide

end MarkupPairs
