import MarkupPairs.Proofs.ForestTags

/-!
# Forests without some of their tags

When tags go out of a forest in pairs, a forest is left: the content of an element stays where the
element was. What a tag leaves behind are line breaks at most, and those become text.
-/

namespace MarkupPairs

namespace Text

variable {gone : Position → Bool} {p : Position} {s t : Text}

/-- What is kept of a text that starts at a position when some positions are gone. -/
def kept (gone : Position → Bool) (p : Position) (t : Text) : Text :=
  Cell.text ((Cell.layOut p t).filter (!gone ·.position))

theorem kept_append (gone : Position → Bool) (p : Position) (s t : Text) :
    kept gone p (s ++ t) = kept gone p s ++ kept gone (p.afterText s) t := by
  rw [kept, Cell.layOut_append, List.filter_append, Cell.text_append]
  rfl

theorem kept_eq_self (h : ∀ cell ∈ Cell.layOut p t, gone cell.position = false) :
    kept gone p t = t := by
  have hall : (Cell.layOut p t).filter (!gone ·.position) = Cell.layOut p t := by
    apply List.filter_eq_self.mpr
    intro cell hcell
    rw [h cell hcell]
    rfl
  rw [kept, hall, Cell.text_layOut]

/-- Whether a tag that says a text at a position goes except for line breaks, or stays as it is. -/
def GoesWhole (gone : Position → Bool) (p : Position) (t : Text) : Prop :=
  ∀ cell ∈ Cell.layOut p t, if gone p then cell.char ≠ '\n' → gone cell.position
    else gone cell.position = false

theorem GoesWhole.kept_eq_self (h : t.GoesWhole gone p) (hkept : ¬gone p) : t.kept gone p = t := by
  apply Text.kept_eq_self
  intro cell hcell
  have hcell := h cell hcell
  rwa [if_neg hkept] at hcell

theorem mem_of_mem_kept {c : Char} (h : c ∈ kept gone p t) : c ∈ t := by
  have hsublist : (t.kept gone p).Sublist (Cell.text (Cell.layOut p t)) :=
    List.filter_sublist.map Cell.char
  rw [Cell.text_layOut] at hsublist
  exact hsublist.subset h

end Text

namespace PlainText

/-- What is kept of text between tags. -/
def kept (gone : Position → Bool) (p : Position) (t : PlainText) : PlainText :=
  ⟨t.text.kept gone p, fun c hc => t.isPlain c (Text.mem_of_mem_kept hc)⟩

/-- The line breaks that are kept of a text. -/
def lineBreaks (gone : Position → Bool) (p : Position) (t : Text) : PlainText :=
  ⟨(t.kept gone p).filter (· == '\n'), by
    intro c hc
    have hfeed : c = '\n' := by simpa using (List.mem_filter.mp hc).2
    rw [hfeed]
    decide⟩

theorem text_lineBreaks {gone : Position → Bool} {p : Position} {t : Text}
    (h : ∀ cell ∈ Cell.layOut p t, cell.char ≠ '\n' → gone cell.position) :
    (lineBreaks gone p t).text = t.kept gone p := by
  apply List.filter_eq_self.mpr
  intro c hc
  obtain ⟨cell, hcell, rfl⟩ := List.mem_map.mp hc
  obtain ⟨hcell, hkept⟩ := List.mem_filter.mp hcell
  rw [beq_iff_eq]
  by_contra hne
  rw [h cell hcell hne] at hkept
  cases hkept

end PlainText

theorem Text.GoesWhole.text_lineBreaks {gone : Position → Bool} {p : Position} {t : Text}
    (h : t.GoesWhole gone p) (hgone : gone p) :
    (PlainText.lineBreaks gone p t).text = t.kept gone p := by
  apply PlainText.text_lineBreaks
  intro cell hcell
  have hcell := h cell hcell
  rwa [if_pos hgone] at hcell

/-- What a document has of a tag, wherever the tag starts: the name, the kind and the text. -/
def Document.spelling (d : Document) (t : Tag) : Text × TagKind × Text :=
  (t.name, t.kind, d.slice t.range)

namespace Forest

/-- Two forests one behind the other. -/
def append : Forest → Forest → Forest
  | nil, g => g
  | text t rest, g => text t (rest.append g)
  | single n a rest, g => single n a (rest.append g)
  | node s content rest, g => node s content (rest.append g)
  | comment c rest, g => comment c (rest.append g)

/-- Whether every element of a forest has a name: it has no fragments. -/
def IsNamed : Forest → Prop
  | nil => True
  | text _ rest => rest.IsNamed
  | single _ _ rest => rest.IsNamed
  | node s content rest => s.name ≠ [] ∧ content.IsNamed ∧ rest.IsNamed
  | comment _ rest => rest.IsNamed

/-- What is left of a forest when the characters at some positions go. A tag whose `<` is gone
leaves its line breaks. -/
def prune (gone : Position → Bool) : Position → Forest → Forest
  | _, nil => nil
  | p, text t rest => text (t.kept gone p) (rest.prune gone (p.afterText t.text))
  | p, single n a rest =>
    let rest' := rest.prune gone (p.afterText (n.single a).angled)
    if gone p then text (.lineBreaks gone p (n.single a).angled) rest' else single n a rest'
  | p, node s content rest =>
    let content' := content.prune gone (contentStart s p)
    let rest' := rest.prune gone (nodeStop s content p)
    if gone p then
      text (.lineBreaks gone p s.opening.angled)
        (content'.append (text (.lineBreaks gone (contentStop s content p) s.closing.angled) rest'))
    else node s content' rest'
  | p, comment c rest => comment c (rest.prune gone (p.afterText c.dashed.angled))

/-- The names, kinds and texts of the tags of a forest, in reading order. -/
def spellings : Forest → List (Text × TagKind × Text)
  | nil => []
  | text _ rest => rest.spellings
  | single n a rest => (n.text, .selfClosing, (n.single a).angled) :: rest.spellings
  | node s content rest =>
    (s.name, .opening, s.opening.angled) :: content.spellings ++
      (s.name, .closing, s.closing.angled) :: rest.spellings
  | comment _ rest => rest.spellings

/-! ## Forests one behind the other -/

section Append

variable (f g : Forest)

theorem toText_append : (f.append g).toText = f.toText ++ g.toText := by
  induction f with
  | nil => rfl
  | text t rest ih => rw [append, toText, ih, toText, List.append_assoc]
  | single n a rest ih => rw [append, toText, ih, toText, List.append_assoc]
  | node s content rest _ ih =>
      rw [append, toText, ih, toText]
      simp only [List.append_assoc]
  | comment c rest ih => rw [append, toText, ih, toText, List.append_assoc]

theorem spellings_append : (f.append g).spellings = f.spellings ++ g.spellings := by
  induction f with
  | nil => rfl
  | text t rest ih => exact ih
  | single n a rest ih => rw [append, spellings, ih, spellings, List.cons_append]
  | node s content rest _ ih =>
      rw [append, spellings, ih, spellings]
      simp only [List.cons_append, List.append_assoc]
  | comment c rest ih => exact ih

variable {f g}

theorem IsUncommented.append (hf : f.IsUncommented) (hg : g.IsUncommented) :
    (f.append g).IsUncommented := by
  induction f with
  | nil => exact hg
  | text t rest ih => exact ih hf
  | single n a rest ih => exact ih hf
  | node s content rest _ ih => exact ⟨hf.1, ih hf.2⟩
  | comment c rest ih => exact hf.elim

theorem IsNamed.append (hf : f.IsNamed) (hg : g.IsNamed) : (f.append g).IsNamed := by
  induction f with
  | nil => exact hg
  | text t rest ih => exact ih hf
  | single n a rest ih => exact ih hf
  | node s content rest _ ih => exact ⟨hf.1, hf.2.1, ih hf.2.2⟩
  | comment c rest ih => exact ih hf

end Append

/-! ## What is left of a forest -/

variable {f : Forest} {gone : Position → Bool} {p : Position}

theorem IsUncommented.prune (h : f.IsUncommented) (gone : Position → Bool) (p : Position) :
    (f.prune gone p).IsUncommented := by
  induction f generalizing p with
  | nil => trivial
  | text t rest ih => exact ih h _
  | single n a rest ih =>
      rw [Forest.prune]
      split
      next => exact ih h _
      next => exact ih h _
  | node s content rest ihContent ih =>
      obtain ⟨hcontent, hrest⟩ := h
      rw [Forest.prune]
      split
      next => exact (ihContent hcontent _).append (ih hrest _)
      next => exact ⟨ihContent hcontent _, ih hrest _⟩
  | comment c rest ih => exact h.elim

theorem IsNamed.prune (h : f.IsNamed) (gone : Position → Bool) (p : Position) :
    (f.prune gone p).IsNamed := by
  induction f generalizing p with
  | nil => trivial
  | text t rest ih => exact ih h _
  | single n a rest ih =>
      rw [Forest.prune]
      split
      next => exact ih h _
      next => exact ih h _
  | node s content rest ihContent ih =>
      obtain ⟨hname, hcontent, hrest⟩ := h
      rw [Forest.prune]
      split
      next => exact (ihContent hcontent _).append (ih hrest _)
      next => exact ⟨hname, ihContent hcontent _, ih hrest _⟩
  | comment c rest ih => exact ih h _

/-- Whether the tags of a forest that starts at a position go in pairs: each goes except for line
breaks or stays as it is, and the two of an element go or stay together. -/
def LosesPairs (gone : Position → Bool) : Position → Forest → Prop
  | _, nil => True
  | p, text t rest => rest.LosesPairs gone (p.afterText t.text)
  | p, single n a rest =>
    (n.single a).angled.GoesWhole gone p ∧ rest.LosesPairs gone (p.afterText (n.single a).angled)
  | p, node s content rest =>
    s.opening.angled.GoesWhole gone p ∧ content.LosesPairs gone (contentStart s p) ∧
      s.closing.angled.GoesWhole gone (contentStop s content p) ∧
      gone p = gone (contentStop s content p) ∧ rest.LosesPairs gone (nodeStop s content p)
  | p, comment c rest =>
    (∀ cell ∈ Cell.layOut p c.dashed.angled, gone cell.position = false) ∧
      rest.LosesPairs gone (p.afterText c.dashed.angled)

/-- To lose pairs comes down to what happens to the tags one by one, and to the pairs. -/
theorem losesPairs_of_tags {cells : List Cell} (hf : f.IsUncommented)
    (hcells : Cell.layOut p f.toText ⊆ cells)
    (hwhole : ∀ t ∈ f.tags p, ∀ cell ∈ cells, t.range.covers cell.position →
      if gone t.range.start then cell.char ≠ '\n' → gone cell.position
      else gone cell.position = false)
    (hpairs : ∀ x ∈ f.pairs p, gone x.1.range.start = gone x.2.range.start) :
    f.LosesPairs gone p := by
  have hgoes {t : Tag} {q : Position} {text : Text} (ht : t.range = Range.spanning q text)
      (hwhole : ∀ cell ∈ cells, t.range.covers cell.position →
        if gone t.range.start then cell.char ≠ '\n' → gone cell.position
        else gone cell.position = false)
      (htext : Cell.layOut q text ⊆ cells) : text.GoesWhole gone q := by
    intro cell hcell
    rw [ht] at hwhole
    exact hwhole cell (htext hcell) (covers_spanning_of_mem_layOut hcell)
  induction f generalizing p with
  | nil => trivial
  | text t rest ih =>
      rw [toText, Cell.layOut_append, List.append_subset] at hcells
      exact ih hf hcells.2 hwhole hpairs
  | single n a rest ih =>
      rw [toText, Cell.layOut_append, List.append_subset] at hcells
      obtain ⟨htag, hrest⟩ := List.forall_mem_cons.mp hwhole
      exact ⟨hgoes rfl htag hcells.1, ih hf hcells.2 hrest hpairs⟩
  | node s content rest ihContent ih =>
      simp only [toText, Cell.layOut_append, List.append_subset] at hcells
      obtain ⟨hopening, hcontent, hclosing, hrest⟩ := hcells
      rw [tags, List.cons_append, List.forall_mem_cons, List.forall_mem_append,
        List.forall_mem_cons] at hwhole
      rw [pairs, List.cons_append, List.forall_mem_cons, List.forall_mem_append] at hpairs
      exact ⟨hgoes rfl hwhole.1 hopening, ihContent hf.1 hcontent hwhole.2.1 hpairs.2.1,
        hgoes rfl hwhole.2.2.1 hclosing, hpairs.1, ih hf.2 hrest hwhole.2.2.2 hpairs.2.2⟩
  | comment c rest ih => exact hf.elim

/-- What is left of a forest has the text that is kept. -/
theorem toText_prune (h : f.LosesPairs gone p) :
    (f.prune gone p).toText = f.toText.kept gone p := by
  induction f generalizing p with
  | nil => rfl
  | text t rest ih =>
      rw [prune, toText, toText, Text.kept_append, ih h]
      rfl
  | single n a rest ih =>
      obtain ⟨htag, hrest⟩ := h
      rw [prune, toText, Text.kept_append, ← ih hrest]
      split
      next hgone => rw [toText, htag.text_lineBreaks hgone]
      next hkept => rw [toText, htag.kept_eq_self hkept]
  | node s content rest ihContent ih =>
      obtain ⟨hopening, hcontent, hclosing, hpair, hrest⟩ := h
      rw [prune, toText, Text.kept_append, Text.kept_append, Text.kept_append,
        ← contentStart, ← contentStop, ← nodeStop, ← ihContent hcontent, ← ih hrest]
      split
      next hgone =>
        rw [toText, toText_append, toText, hopening.text_lineBreaks hgone,
          hclosing.text_lineBreaks (hpair ▸ hgone)]
      next hkept =>
        rw [toText, hopening.kept_eq_self hkept, hclosing.kept_eq_self (hpair ▸ hkept)]
  | comment c rest ih =>
      rw [prune, toText, toText, Text.kept_append, Text.kept_eq_self h.1, ih h.2]

/-! ## The tags that are left -/

section Spelling

variable {d : Document} {pre post : Text}

/-- A tag that is written in a document is spelled as it says. -/
theorem spelling_spanning {text : Text} (hdiv : d.DividedAt p pre (text ++ post)) (name : Text)
    (kind : TagKind) : d.spelling ⟨name, kind, Range.spanning p text⟩ = (name, kind, text) :=
  congrArg (fun text => (name, kind, text)) hdiv.slice

/-- The tags of a forest are spelled in its text. -/
theorem map_spelling_tags (hdiv : d.DividedAt p pre (f.toText ++ post)) :
    (f.tags p).map d.spelling = f.spellings := by
  induction f generalizing p pre post with
  | nil => rfl
  | text t rest ih =>
      rw [toText, List.append_assoc] at hdiv
      exact ih hdiv.append
  | single n a rest ih =>
      rw [toText, List.append_assoc] at hdiv
      rw [tags, List.map_cons, ih hdiv.append, TagName.singleTag, spelling_spanning hdiv, spellings]
  | node s content rest ihContent ih =>
      simp only [toText, List.append_assoc] at hdiv
      have hcontent : d.DividedAt (contentStart s p) _ _ := hdiv.append
      have hclosing : d.DividedAt (contentStop s content p) _ _ := hcontent.append
      have hrest : d.DividedAt (nodeStop s content p) _ _ := hclosing.append
      rw [tags, List.cons_append, List.map_cons, List.map_append, List.map_cons, ihContent hcontent,
        ih hrest, Shell.openingTag, spelling_spanning hdiv, Shell.closingTag,
        spelling_spanning hclosing, spellings, List.cons_append]
  | comment c rest ih =>
      rw [toText, List.append_assoc] at hdiv
      exact ih hdiv.append

/-- What is left of a forest has the tags that are not gone. -/
theorem spellings_prune (hdiv : d.DividedAt p pre (f.toText ++ post))
    (h : f.LosesPairs gone p) :
    (f.prune gone p).spellings =
      ((f.tags p).filter (!gone ·.range.start)).map d.spelling := by
  induction f generalizing p pre post with
  | nil => rfl
  | text t rest ih =>
      rw [toText, List.append_assoc] at hdiv
      exact ih hdiv.append h
  | single n a rest ih =>
      rw [toText, List.append_assoc] at hdiv
      have hstart : (n.singleTag a p).range.start = p := rfl
      rw [prune, tags, List.filter_cons, hstart]
      cases hgone : gone p with
      | true => exact ih hdiv.append h.2
      | false =>
          exact congrArg₂ _ (spelling_spanning hdiv _ _).symm (ih hdiv.append h.2)
  | node s content rest ihContent ih =>
      simp only [toText, List.append_assoc] at hdiv
      obtain ⟨-, hcontent, -, hpair, hrest⟩ := h
      have hinner : d.DividedAt (contentStart s p) _ _ := hdiv.append
      have hclosing : d.DividedAt (contentStop s content p) _ _ := hinner.append
      have hbehind : d.DividedAt (nodeStop s content p) _ _ := hclosing.append
      have hstart : (s.openingTag p).range.start = p := rfl
      have hstop : (s.closingTag (contentStop s content p)).range.start =
        contentStop s content p := rfl
      rw [prune, tags, List.cons_append, List.filter_cons, List.filter_append, List.filter_cons,
        hstart, hstop, ← hpair]
      cases hgone : gone p with
      | true =>
          rw [if_pos rfl, spellings, spellings_append, spellings, ihContent hinner hcontent,
            ih hbehind hrest, ← List.map_append]
          rfl
      | false =>
          simp only [Bool.not_false, if_true, Bool.false_eq_true, if_false]
          rw [spellings, ihContent hinner hcontent, ih hbehind hrest, List.map_cons,
            List.map_append, List.map_cons, Shell.openingTag, spelling_spanning hdiv,
            Shell.closingTag, spelling_spanning hclosing, List.cons_append]
  | comment c rest ih =>
      rw [toText, List.append_assoc] at hdiv
      exact ih hdiv.append h.2

end Spelling

end Forest

end MarkupPairs
