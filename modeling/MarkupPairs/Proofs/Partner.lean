import MarkupPairs.Proofs.TagReading

/-!
# Partners in a forest

In a forest the searches for a partner compute the pairs of the tree. A tag changes the state of a
search by its name and kind alone, and a whole forest leaves the state as it was, in either
direction; so the search from one tag of an element passes the content and stops at the other.
-/

namespace MarkupPairs

/-! ## The search forward -/

section Forward

variable {wanted : Text} {depth : Nat} {phase : TagPhase} {ink : Option Char} {p : Position}
  {c : Char} {rest : List Cell}

theorem TagHead.extend?_eq_none {head : TagHead} (hname : isNameChar c = false)
    (hslash : c = '/' → head.name ≠ []) : head.extend? c = none := by
  rw [extend?, if_neg, if_neg]
  · simp [hname]
  · rintro ⟨heq, hnil, -⟩
    exact hslash heq hnil

/-- An angle belongs to no head. -/
theorem TagPhase.extend?_angle (hc : c = '<' ∨ c = '>') : phase.extend? c = none := by
  cases phase with
  | reading head =>
      rcases hc with rfl | rfl
      · exact TagHead.extend?_eq_none (by decide) fun hslash => absurd hslash (by decide)
      · exact TagHead.extend?_eq_none (by decide) fun hslash => absurd hslash (by decide)
  | outside => rfl
  | inside head => rfl

theorem seekClosing_read {head : TagHead} (h : phase.extend? c = some head) :
    seekClosing wanted depth phase ink (⟨p, c⟩ :: rest) =
      seekClosing wanted depth (.reading head) ink rest := by
  rw [seekClosing.eq_def]
  simp only [h]

theorem seekClosing_open :
    seekClosing wanted depth phase ink (⟨p, '<'⟩ :: rest) =
      seekClosing wanted depth (.reading ⟨p, false, []⟩) (some '<') rest := by
  rw [seekClosing.eq_def]
  simp only [TagPhase.extend?_angle (.inl rfl), if_pos]
  rfl

theorem seekClosing_other (h : phase.extend? c = none) (hopen : c ≠ '<') (hclose : c ≠ '>') :
    seekClosing wanted depth phase ink (⟨p, c⟩ :: rest) =
      seekClosing wanted depth (phase.settle c) (if Unicode.isWhite c then ink else some c)
        rest := by
  rw [seekClosing.eq_def]
  simp only [h, if_neg hopen, if_neg hclose]

/-- What a `>` does when it ends the tag with a given head. -/
theorem seekClosing_close {head : TagHead} (h : phase.settle '>' = .inside head) :
    seekClosing wanted depth phase ink (⟨p, '>'⟩ :: rest) =
      if head.name ≠ wanted then seekClosing wanted depth .outside (some '>') rest
      else if head.closing then
        match depth with
        | 0 => some ⟨wanted, .closing, Range.between head.start (p.right 1)⟩
        | depth + 1 => seekClosing wanted depth .outside (some '>') rest
      else if ink = some '/' then seekClosing wanted depth .outside (some '>') rest
      else seekClosing wanted (depth + 1) .outside (some '>') rest := by
  have hink : (if Unicode.isWhite '>' then ink else some '>') = some '>' := rfl
  have hangle : '>' ≠ '<' := by decide
  rw [seekClosing.eq_def]
  simp only [TagPhase.extend?_angle (.inr rfl), if_neg hangle, if_pos, h, TagPhase.head?, hink]
  by_cases hname : head.name = wanted
  · cases depth <;>
      simp only [Option.filter, hname, decide_true, if_pos, ne_eq, not_true_eq_false, if_false]
  · simp only [Option.filter, hname, decide_false, ne_eq, not_false_eq_true, if_true]
    rfl

/-- A phase that only an angle changes. -/
def TagPhase.IsSettled (phase : TagPhase) : Prop :=
  ∀ c, phase.extend? c = none ∧ phase.settle c = phase

theorem TagPhase.isSettled_outside : outside.IsSettled := fun _ => ⟨rfl, rfl⟩

theorem TagPhase.isSettled_inside (head : TagHead) : (inside head).IsSettled :=
  fun _ => ⟨rfl, rfl⟩

theorem seekClosing_plain (hphase : phase.IsSettled) {t : Text} (ht : t.IsPlain) :
    seekClosing wanted depth phase ink (Cell.layOut p t ++ rest) =
      seekClosing wanted depth phase (t.lastInk ink) rest := by
  induction t generalizing p ink with
  | nil => rfl
  | cons c t ih =>
      obtain ⟨hopen, hclose⟩ := ht c (by simp)
      obtain ⟨hextend, hsettle⟩ := hphase c
      rw [Cell.layOut_cons, List.cons_append, seekClosing_other hextend hopen hclose, hsettle]
      exact ih fun x hx => ht x (by simp [hx])

theorem seekClosing_name {start : Position} {closing : Bool} {name more : Text}
    (hmore : ∀ c ∈ more, TagHead.isNameChar c) :
    seekClosing wanted depth (.reading ⟨start, closing, name⟩) ink (Cell.layOut p more ++ rest) =
      seekClosing wanted depth (.reading ⟨start, closing, name ++ more⟩) ink rest := by
  induction more generalizing p name with
  | nil => simp
  | cons c more ih =>
      have hc : TagHead.isNameChar c := hmore c (by simp)
      have hslash : c ≠ '/' := by
        rintro rfl
        exact absurd hc (by decide)
      have hextend : (TagPhase.reading ⟨start, closing, name⟩).extend? c =
          some ⟨start, closing, name ++ [c]⟩ := by
        simp [TagPhase.extend?, TagHead.extend?, hslash, hc]
      rw [Cell.layOut_cons, List.cons_append, seekClosing_read hextend,
        ih fun x hx => hmore x (by simp [hx])]
      simp

/-- A name that is read, the rest of its tag and the `>` decide by the name, the slash before it and
the last character that is not blank. -/
theorem ReadsAs.seekClosing_tail {t name tail : Text} {closing : Bool}
    (h : ReadsAs t closing name tail) (start : Position) :
    seekClosing wanted depth (.reading ⟨start, closing, name⟩) (some '<')
        (Cell.layOut p (tail ++ ['>']) ++ rest) =
      if name ≠ wanted then seekClosing wanted depth .outside (some '>') rest
      else if closing then
        match depth with
        | 0 => some ⟨wanted, .closing, Range.between start ((p.afterText tail).right 1)⟩
        | depth + 1 => seekClosing wanted depth .outside (some '>') rest
      else if tail.trimEnd.getLast? = some '/' then
        seekClosing wanted depth .outside (some '>') rest
      else seekClosing wanted (depth + 1) .outside (some '>') rest := by
  have hink (u : Text) : u.lastInk (some '<') = some '/' ↔ u.trimEnd.getLast? = some '/' := by
    rw [Text.lastInk_eq]
    cases u.trimEnd.getLast? <;> simp
  rw [Cell.layOut_append, List.append_assoc]
  cases tail with
  | nil =>
      have hsettle : (TagPhase.reading ⟨start, closing, name⟩).settle '>' =
          .inside ⟨start, closing, name⟩ := by
        simp [TagPhase.settle, TagHead.isEndedBy, TagHead.endsName]
      exact seekClosing_close hsettle
  | cons c tail =>
      have hc := h.endsName c rfl
      have hname : name ≠ [] := fun hnil => absurd (h.nameless hnil) (List.cons_ne_nil _ _)
      obtain ⟨⟨hopen, hclose⟩, htail⟩ : (c ≠ '<' ∧ c ≠ '>') ∧ Text.IsPlain tail :=
        ⟨h.isPlain c (by simp), fun x hx => h.isPlain x (by simp [hx])⟩
      have hextend : (TagPhase.reading ⟨start, closing, name⟩).extend? c = none :=
        TagHead.extend?_eq_none (TagHead.not_isNameChar_of_endsName hc).1 fun _ => hname
      have hsettle : (TagPhase.reading ⟨start, closing, name⟩).settle c =
          .inside ⟨start, closing, name⟩ := by
        simp [TagPhase.settle, TagHead.isEndedBy, hc, hname]
      rw [Cell.layOut_cons, List.cons_append, seekClosing_other hextend hopen hclose, hsettle,
        seekClosing_plain (TagPhase.isSettled_inside _) htail]
      refine (seekClosing_close rfl).trans ?_
      have hlast := hink (c :: tail)
      rw [Text.lastInk, List.foldl_cons, ← Text.lastInk] at hlast
      simp only [hlast]
      rfl

/-- What a tag does to the search forward. -/
theorem ReadsAs.seekClosing_angled {t name tail : Text} {closing : Bool}
    (h : ReadsAs t closing name tail) :
    seekClosing wanted depth .outside ink (Cell.layOut p t.angled ++ rest) =
      if name ≠ wanted then seekClosing wanted depth .outside (some '>') rest
      else if closing then
        match depth with
        | 0 => some ⟨wanted, .closing, Range.spanning p t.angled⟩
        | depth + 1 => seekClosing wanted depth .outside (some '>') rest
      else if tail.trimEnd.getLast? = some '/' then
        seekClosing wanted depth .outside (some '>') rest
      else seekClosing wanted (depth + 1) .outside (some '>') rest := by
  have hrange : Range.between p ((p.afterText ('<' :: t)).right 1) = Range.spanning p t.angled :=
    Range.between_right (by decide)
  rw [← hrange, Text.angled, List.cons_append, Cell.layOut_cons, List.cons_append, seekClosing_open,
    h.text_eq]
  cases closing with
  | true =>
      have hextend : (TagPhase.reading ⟨p, false, []⟩).extend? '/' = some ⟨p, true, []⟩ := rfl
      simp only [if_pos, List.append_assoc, Cell.layOut_cons, List.cons_append, List.nil_append]
      rw [seekClosing_read hextend, Cell.layOut_append, List.append_assoc,
        seekClosing_name h.isNameChar, List.nil_append, h.seekClosing_tail]
      simp [Position.afterText_append]
  | false =>
      simp only [Bool.false_eq_true, if_neg, not_false_eq_true, List.nil_append, List.append_assoc]
      rw [Cell.layOut_append, List.append_assoc, seekClosing_name h.isNameChar, List.nil_append,
        h.seekClosing_tail]
      simp

/-- An opening tag of the wanted name adds one to the depth. -/
theorem Shell.seekClosing_opening (s : Shell) (depth : Nat) (p : Position) (rest : List Cell) :
    seekClosing wanted depth .outside ink (Cell.layOut p s.opening.angled ++ rest) =
      seekClosing wanted (if s.name = wanted then depth + 1 else depth) .outside (some '>')
        rest := by
  rw [s.readsAs_opening.seekClosing_angled]
  by_cases hname : s.name = wanted
  · simp [hname, s.unslashed]
  · simp [hname]

/-- The closing tag takes away what the opening tag adds. -/
theorem Shell.seekClosing_closing (s : Shell) (depth : Nat) (p : Position) (rest : List Cell) :
    seekClosing wanted (if s.name = wanted then depth + 1 else depth) .outside ink
        (Cell.layOut p s.closing.angled ++ rest) =
      seekClosing wanted depth .outside (some '>') rest := by
  rw [s.readsAs_closing.seekClosing_angled]
  by_cases hname : s.name = wanted
  · simp [hname]
  · simp [hname]

/-- The search for the closing tag of an element stops at it when no element inside is open. -/
theorem Shell.seekClosing_own (s : Shell) (p : Position) (rest : List Cell) :
    seekClosing s.name 0 .outside ink (Cell.layOut p s.closing.angled ++ rest) =
      some (s.closingTag p) := by
  rw [s.readsAs_closing.seekClosing_angled]
  simp [closingTag]

theorem TagName.seekClosing_single (n : TagName) (a : Attributes) (depth : Nat) (p : Position)
    (rest : List Cell) :
    seekClosing wanted depth .outside ink (Cell.layOut p (n.single a).angled ++ rest) =
      seekClosing wanted depth .outside (some '>') rest := by
  rw [(n.readsAs_single a).seekClosing_angled, a.trimEnd_slash]
  simp

/-- A forest leaves the depth of the search forward as it was. -/
theorem Forest.seekClosing_forest (f : Forest) (wanted : Text) (hf : f.IsUncommented) (depth : Nat)
    (p : Position) (ink : Option Char) (rest : List Cell) :
    ∃ ink', seekClosing wanted depth .outside ink (Cell.layOut p f.toText ++ rest) =
      seekClosing wanted depth .outside ink' rest := by
  -- only what the last character is that is not blank changes on the way
  induction f generalizing depth p ink rest with
  | nil => exact ⟨ink, rfl⟩
  | text t f ih =>
      rw [toText, Cell.layOut_append, List.append_assoc,
        seekClosing_plain TagPhase.isSettled_outside t.isPlain]
      exact ih hf _ _ _ _
  | single n a f ih =>
      rw [toText, Cell.layOut_append, List.append_assoc, n.seekClosing_single]
      exact ih hf _ _ _ _
  | node s content f ihContent ih =>
      obtain ⟨hcontent, hf⟩ := hf
      simp only [toText, Cell.layOut_append, List.append_assoc]
      rw [s.seekClosing_opening]
      obtain ⟨ink', hpass⟩ := ihContent hcontent (if s.name = wanted then depth + 1 else depth)
        (p.afterText s.opening.angled) (some '>') _
      rw [hpass, s.seekClosing_closing]
      exact ih hf _ _ _ _
  | comment c f ih => exact hf.elim

end Forward

/-! ## The search backward -/

section Backward

variable {wanted : Text} {depth : Nat} {close : Option (Position × Bool)} {behind : Text}
  {p : Position} {before : List Cell}

theorem seekOpening_close :
    seekOpening wanted depth close behind (⟨p, '>'⟩ :: before) =
      seekOpening wanted depth (some (p, followsSlash before)) ('>' :: behind) before := by
  rw [seekOpening.eq_def]
  rfl

theorem seekOpening_other {c : Char} (hopen : c ≠ '<') (hclose : c ≠ '>') :
    seekOpening wanted depth close behind (⟨p, c⟩ :: before) =
      seekOpening wanted depth close (c :: behind) before := by
  rw [seekOpening.eq_def]
  simp only [if_neg hclose, if_neg hopen]

/-- What a `<` does when a tag with a `>` starts at it. -/
theorem seekOpening_open {closing slashed : Bool} {name : Text} {stop : Position}
    (h : TagHead.read? behind = some (closing, name)) :
    seekOpening wanted depth (some (stop, slashed)) behind (⟨p, '<'⟩ :: before) =
      if name ≠ wanted then seekOpening wanted depth none ('<' :: behind) before
      else if closing then seekOpening wanted (depth + 1) none ('<' :: behind) before
      else if slashed then seekOpening wanted depth none ('<' :: behind) before
      else
        match depth with
        | 0 => some ⟨wanted, .opening, Range.between p (stop.right 1)⟩
        | depth + 1 => seekOpening wanted depth none ('<' :: behind) before := by
  have hangle : '<' ≠ '>' := by decide
  rw [seekOpening.eq_def]
  simp only [if_neg hangle, if_pos, h]
  cases slashed <;> rfl

theorem seekOpening_plain {t : Text} (ht : t.IsPlain) :
    seekOpening wanted depth close behind ((Cell.layOut p t).reverse ++ before) =
      seekOpening wanted depth close (t ++ behind) before := by
  induction t generalizing p before with
  | nil => rfl
  | cons c t ih =>
      obtain ⟨hopen, hclose⟩ := ht c (by simp)
      rw [Cell.layOut_cons, List.reverse_cons, List.append_assoc, List.singleton_append,
        ih fun x hx => ht x (by simp [hx]), seekOpening_other hopen hclose]
      rfl

/-- A tag that ends after a slash has that slash for its last character that is not blank, whether
or not a line feed comes between. -/
theorem followsSlash_imp {cells : List Cell} (h : followsSlash cells) :
    ((Cell.text cells).dropWhile Unicode.isWhite).head? = some '/' := by
  induction cells with
  | nil => cases h
  | cons cell cells ih =>
      rw [followsSlash, List.takeWhile_cons] at h
      by_cases hbreak : cell.char = '\n'
      · simp [hbreak] at h
      · simp only [bne_iff_ne, ne_eq, hbreak, not_false_eq_true, if_true,
          List.dropWhile_cons] at h
        rw [Cell.text, List.map_cons, List.dropWhile_cons]
        split at h
        next hwhite =>
          rw [if_pos hwhite]
          exact ih h
        next hwhite =>
          rw [if_neg hwhite]
          simpa using h

theorem followsSlash_tag {t : Text} (h : t.trimEnd.getLast? ≠ some '/') :
    followsSlash ((Cell.layOut p ('<' :: t)).reverse ++ before) = false := by
  apply Bool.eq_false_iff.mpr
  intro hslash
  apply h
  have hhead := followsSlash_imp hslash
  rw [Cell.text_append, Cell.text, List.map_reverse, ← Cell.text, Cell.text_layOut,
    List.reverse_cons, List.append_assoc, List.dropWhile_append] at hhead
  rw [Text.trimEnd, List.getLast?_reverse]
  cases hrest : t.reverse.dropWhile Unicode.isWhite with
  | nil =>
      have hangle : Unicode.isWhite '<' = false := by decide
      simp [hrest, hangle] at hhead
  | cons x rest =>
      simpa [hrest] using hhead

theorem followsSlash_slash (t : Text) :
    followsSlash ((Cell.layOut p (t ++ ['/'])).reverse ++ before) := by
  rw [Cell.layOut_append, List.reverse_append, Cell.layOut_cons, Cell.layOut_nil]
  rfl

/-- What a tag does to the search backward. -/
theorem ReadsAs.seekOpening_angled {t name tail : Text} {closing : Bool}
    (h : ReadsAs t closing name tail) (ht : t.IsPlain) :
    seekOpening wanted depth close behind ((Cell.layOut p t.angled).reverse ++ before) =
      if name ≠ wanted then seekOpening wanted depth none (t.angled ++ behind) before
      else if closing then seekOpening wanted (depth + 1) none (t.angled ++ behind) before
      else if followsSlash ((Cell.layOut p ('<' :: t)).reverse ++ before) then
        seekOpening wanted depth none (t.angled ++ behind) before
      else
        match depth with
        | 0 => some ⟨wanted, .opening, Range.spanning p t.angled⟩
        | depth + 1 => seekOpening wanted depth none (t.angled ++ behind) before := by
  have hrange : Range.between p ((p.afterText ('<' :: t)).right 1) = Range.spanning p t.angled :=
    Range.between_right (by decide)
  rw [← hrange, Text.angled, Cell.layOut_append, List.reverse_append, Cell.layOut_cons,
    Cell.layOut_nil, List.reverse_singleton, List.singleton_append, List.cons_append,
    seekOpening_close]
  generalize followsSlash ((Cell.layOut p ('<' :: t)).reverse ++ before) = slashed
  rw [Cell.layOut_cons, List.reverse_cons, List.append_assoc, List.singleton_append,
    seekOpening_plain ht, seekOpening_open (h.read? behind)]
  simp

/-- A closing tag of the wanted name adds one to the depth. -/
theorem Shell.seekOpening_closing (s : Shell) :
    seekOpening wanted depth close behind ((Cell.layOut p s.closing.angled).reverse ++ before) =
      seekOpening wanted (if s.name = wanted then depth + 1 else depth) none
        (s.closing.angled ++ behind) before := by
  rw [s.readsAs_closing.seekOpening_angled s.isPlain_closing]
  by_cases hname : s.name = wanted
  · simp [hname]
  · simp [hname]

/-- The opening tag takes away what the closing tag adds. -/
theorem Shell.seekOpening_opening (s : Shell) :
    seekOpening wanted (if s.name = wanted then depth + 1 else depth) close behind
        ((Cell.layOut p s.opening.angled).reverse ++ before) =
      seekOpening wanted depth none (s.opening.angled ++ behind) before := by
  rw [s.readsAs_opening.seekOpening_angled s.isPlain_opening,
    followsSlash_tag s.trimEnd_opening]
  by_cases hname : s.name = wanted
  · simp [hname]
  · simp [hname]

/-- The search for the opening tag of an element stops at it when no element inside is open. -/
theorem Shell.seekOpening_own (s : Shell) :
    seekOpening s.name 0 close behind ((Cell.layOut p s.opening.angled).reverse ++ before) =
      some (s.openingTag p) := by
  rw [s.readsAs_opening.seekOpening_angled s.isPlain_opening,
    followsSlash_tag s.trimEnd_opening]
  simp [openingTag]

theorem TagName.seekOpening_single (n : TagName) (a : Attributes) :
    seekOpening wanted depth close behind ((Cell.layOut p (n.single a).angled).reverse ++ before) =
      seekOpening wanted depth none ((n.single a).angled ++ behind) before := by
  have hslash : followsSlash ((Cell.layOut p ('<' :: n.single a)).reverse ++ before) := by
    have htext : '<' :: n.single a = '<' :: (n.text ++ a.text) ++ ['/'] := by simp [single]
    rw [htext]
    exact followsSlash_slash _
  rw [(n.readsAs_single a).seekOpening_angled (n.isPlain_single a), hslash]
  simp

/-- A forest leaves the depth of the search backward as it was. -/
theorem Forest.seekOpening_forest (f : Forest) (wanted : Text) (hf : f.IsUncommented) (depth : Nat)
    (p : Position) (close : Option (Position × Bool)) (behind : Text) (before : List Cell) :
    ∃ close', seekOpening wanted depth close behind ((Cell.layOut p f.toText).reverse ++ before) =
      seekOpening wanted depth close' (f.toText ++ behind) before := by
  -- the rest of the forest stands nearest, so it is passed before the first tree
  induction f generalizing depth p close behind before with
  | nil => exact ⟨close, rfl⟩
  | text t f ih =>
      rw [toText, Cell.layOut_append, List.reverse_append, List.append_assoc]
      obtain ⟨close', hpass⟩ := ih hf depth (p.afterText t.text) close behind _
      rw [hpass, seekOpening_plain t.isPlain, ← List.append_assoc]
      exact ⟨close', rfl⟩
  | single n a f ih =>
      rw [toText, Cell.layOut_append, List.reverse_append, List.append_assoc]
      obtain ⟨close', hpass⟩ := ih hf depth (p.afterText (n.single a).angled) close behind _
      rw [hpass, n.seekOpening_single, ← List.append_assoc]
      exact ⟨none, rfl⟩
  | node s content f ihContent ih =>
      obtain ⟨hcontent, hf⟩ := hf
      simp only [toText, Cell.layOut_append, List.reverse_append, List.append_assoc]
      obtain ⟨close₁, hpass⟩ := ih hf depth _ close behind _
      rw [hpass, s.seekOpening_closing]
      obtain ⟨close₂, hpass⟩ := ihContent hcontent (if s.name = wanted then depth + 1 else depth)
        (p.afterText s.opening.angled) none _ _
      rw [hpass, s.seekOpening_opening]
      exact ⟨none, rfl⟩
  | comment c f ih => exact hf.elim

end Backward

/-! ## Searches in a document -/

namespace Document.DividedAt

variable {d : Document} {limits : ScanLimits} {p : Position} {pre post : Text}

/-- A window of more lines than the document has cuts nothing off the search forward. -/
theorem closingTag? (h : d.DividedAt p pre post) (hlimits : d.lineCount < limits.paired)
    (name : Text) :
    d.closingTag? limits name p = seekClosing name 0 .outside none (Cell.layOut p post) := by
  rw [Document.closingTag?, takeWhile_line_lt (d.cellsFrom_subset p) (Nat.le_of_lt hlimits),
    h.cellsFrom]

/-- A window of more lines than the document has cuts nothing off the search backward. -/
theorem openingTag? (h : d.DividedAt p pre post) (hlimits : d.lineCount < limits.paired)
    (name : Text) :
    d.openingTag? limits name p =
      seekOpening name 0 none post (Cell.layOut Position.origin pre).reverse := by
  rw [Document.openingTag?, takeWhile_le_line (Nat.le_of_lt h.line_lt) (Nat.le_of_lt hlimits),
    h.cellsFrom, h.cellsBefore, Cell.text_layOut]

end Document.DividedAt

/-! ## Pairs -/

namespace Forest

section Nodes

variable {d : Document} {limits : ScanLimits} {s : Shell} {content : Forest} {p : Position}
  {pre post : Text}

/-- From its opening tag on, the closing tag of an element is found. -/
theorem closingTag?_of_node
    (hd : d.DividedAt p pre (s.opening.angled ++ (content.toText ++ (s.closing.angled ++ post))))
    (hcontent : content.IsUncommented) (hlimits : d.lineCount < limits.paired) :
    d.closingTag? limits s.name (contentStart s p) =
      some (s.closingTag (contentStop s content p)) := by
  obtain ⟨ink, hpass⟩ := content.seekClosing_forest s.name hcontent 0 (contentStart s p) none
    (Cell.layOut (contentStop s content p) (s.closing.angled ++ post))
  have hstart : d.DividedAt (contentStart s p) (pre ++ s.opening.angled)
      (content.toText ++ (s.closing.angled ++ post)) := hd.append
  rw [hstart.closingTag? hlimits, Cell.layOut_append]
  refine hpass.trans ?_
  rw [Cell.layOut_append, s.seekClosing_own]

/-- From its closing tag backward, the opening tag of an element is found. -/
theorem openingTag?_of_node
    (hd : d.DividedAt p pre (s.opening.angled ++ (content.toText ++ (s.closing.angled ++ post))))
    (hcontent : content.IsUncommented) (hlimits : d.lineCount < limits.paired) :
    d.openingTag? limits s.name (contentStop s content p) = some (s.openingTag p) := by
  obtain ⟨close, hpass⟩ := content.seekOpening_forest s.name hcontent 0 (contentStart s p) none
    (s.closing.angled ++ post)
    (Cell.layOut Position.origin (pre ++ s.opening.angled)).reverse
  have hstop : d.DividedAt (contentStop s content p) (pre ++ s.opening.angled ++ content.toText)
      (s.closing.angled ++ post) := hd.append.append
  have hstart : Position.origin.afterText (pre ++ s.opening.angled) = contentStart s p := by
    rw [Position.afterText_append, ← hd.position_eq, contentStart]
  rw [hstop.openingTag? hlimits, Cell.layOut_append, List.reverse_append, hstart]
  refine hpass.trans ?_
  rw [Cell.layOut_append, List.reverse_append, ← hd.position_eq, s.seekOpening_own]

end Nodes

/-- In a document that is a forest without comments, each tag of a pair has the other one for its
partner. -/
theorem partner?_of_mem_pairs {d : Document} {f : Forest} (htext : d.text = f.toText)
    (hf : f.IsUncommented) {limits : ScanLimits} (hlimits : d.lineCount < limits.paired)
    {x : Tag × Tag} (hx : x ∈ f.pairs Position.origin) :
    d.partner? limits x.1 = some x.2 ∧ d.partner? limits x.2 = some x.1 := by
  obtain ⟨pre, post, s, content, hwhole, rfl, hcontent⟩ := exists_of_mem_pairs hx
  have hdiv : d.DividedAt (Position.origin.afterText pre) pre
      (s.opening.angled ++ (content.toText ++ (s.closing.angled ++ post))) :=
    ⟨htext.trans hwhole, rfl⟩
  exact ⟨closingTag?_of_node hdiv (hcontent hf) hlimits,
    openingTag?_of_node hdiv (hcontent hf) hlimits⟩

/-- In a document that is a forest without comments, each tag of an element finds the other one, at
any depth, and the tag of an element by itself finds none. -/
theorem partner_of_mem_pairs {d : Document} {f : Forest} (hd : d.text = f.toText)
    (hf : f.IsUncommented) {limits : ScanLimits} (hlimits : d.lineCount < limits.paired) :
    (∀ x ∈ f.pairs Position.origin,
      d.partner? limits x.1 = some x.2 ∧ d.partner? limits x.2 = some x.1) ∧
    ∀ t ∈ f.tags Position.origin, t.kind = .selfClosing → d.partner? limits t = none := by
  constructor
  · intro x hx
    exact partner?_of_mem_pairs hd hf hlimits hx
  · intro t _ hkind
    rw [Document.partner?, hkind]

theorem partner_of_mem_pairs_sample :
    sample.IsUncommented ∧
      (⟨sample.toText, .lf⟩ : Document).lineCount < 4 ∧
      (⟨sample.toText, .lf⟩ : Document).partner? ⟨1, 4, 1⟩
        ⟨['a', '1'], .opening, ⟨⟨0, 0⟩, ⟨1, 1⟩, by decide⟩⟩ =
          some ⟨['a', '1'], .closing, ⟨⟨1, 12⟩, ⟨2, 1⟩, by decide⟩⟩ ∧
      (⟨sample.toText, .lf⟩ : Document).partner? ⟨1, 4, 1⟩
        ⟨['a', '1'], .closing, ⟨⟨1, 12⟩, ⟨2, 1⟩, by decide⟩⟩ =
          some ⟨['a', '1'], .opening, ⟨⟨0, 0⟩, ⟨1, 1⟩, by decide⟩⟩ := by
  have hun : sample.IsUncommented := ⟨⟨trivial, trivial⟩, trivial⟩
  have hlines :
      (⟨sample.toText, .lf⟩ : Document).lineCount < (ScanLimits.mk 1 4 1).paired := by
    decide
  obtain ⟨hpairs, -⟩ :=
    partner_of_mem_pairs (d := ⟨sample.toText, .lf⟩) rfl hun hlines
  exact ⟨hun, hlines, hpairs (⟨_, _, ⟨⟨0, 0⟩, ⟨1, 1⟩, by decide⟩⟩, _) List.mem_cons_self⟩

end Forest

end MarkupPairs
