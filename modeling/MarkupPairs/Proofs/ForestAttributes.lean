import MarkupPairs.Proofs.ForestPruning
import MarkupPairs.Proofs.InsertionPlan
import MarkupPairs.Proofs.SurroundingForest

/-!
# Giving attributes to the tags of a forest

Attributes that are inserted right behind the names of tags make a forest again, with the same tags
but for these attributes. What is outside every element stays there.
-/

namespace MarkupPairs

/-! ## One tag -/

/-- Some attributes with others behind them. -/
def Attributes.append (a b : Attributes) : Attributes where
  text := a.text ++ b.text
  isWhite_head := by
    have ha := a.isWhite_head
    cases htext : a.text with
    | nil => exact b.isWhite_head
    | cons c rest =>
        rw [htext] at ha
        exact ha
  isPlain := Text.isPlain_append.mpr ⟨a.isPlain, b.isPlain⟩

/-- The attributes of an opening tag with others in front of them. -/
def OpeningAttributes.append (a b : OpeningAttributes) : OpeningAttributes where
  toAttributes := a.toAttributes.append b.toAttributes
  unslashed := by
    change (Text.trimEnd (a.text ++ b.text)).getLast? ≠ some '/'
    rw [Text.getLast?_trimEnd_append, Ne, Option.or_eq_some_iff]
    rintro (hslash | ⟨-, hslash⟩)
    · exact b.unslashed hslash
    · exact a.unslashed hslash

/-- The place right behind the name of a tag that does not close an element. -/
def Tag.nameEnd (t : Tag) : Position := t.range.start.right (1 + t.name.length)

/-- The tags of an element with more attributes in front of those it has. A fragment has no place
for them. -/
def Shell.give (a : OpeningAttributes) : Shell → Shell
  | .element name attributes blank => .element name (a.append attributes) blank
  | .fragment => .fragment

namespace Shell

variable {s : Shell} {a : OpeningAttributes}

theorem opening_give (h : s.name ≠ []) :
    (s.give a).opening = s.name ++ (a.text ++ s.attributes) := by
  cases s with
  | element name attributes blank => rfl
  | fragment => exact absurd rfl h

theorem name_give (s : Shell) (a : OpeningAttributes) : (s.give a).name = s.name := by
  cases s with
  | element name attributes blank => rfl
  | fragment => rfl

/-- What is given to the opening tag does not show in the closing one. -/
theorem closing_ite (s : Shell) (a : OpeningAttributes) (c : Prop) [Decidable c] :
    (if c then s.give a else s).closing = s.closing := by
  split
  next => cases s <;> rfl
  next => rfl

end Shell

/-- What follows the name in a tag that does not close an element, read as before with more
attributes in front of it. -/
structure TakesAttributes (name tail : Text) (kind : TagKind) : Prop where
  isAlphanum : ∀ c ∈ name, c.isAlphanum
  isPlain : (name ++ tail).IsPlain
  parse_eq : ∀ (a : OpeningAttributes) (r : Range),
    Tag.parse? (Text.angled (name ++ (a.text ++ tail))) r = some ⟨name, kind, r⟩

theorem Shell.takesAttributes {s : Shell} (h : s.name ≠ []) :
    TakesAttributes s.name s.attributes .opening where
  isAlphanum := by
    cases s with
    | element name attributes blank => exact fun c hc => name.isAlphanum hc
    | fragment => exact absurd rfl h
  isPlain := s.isPlain_opening
  parse_eq a r := by
    rw [← opening_give h, parse?_opening, name_give]

theorem TagName.takesAttributes (n : TagName) (a : Attributes) :
    TakesAttributes n.text (a.text ++ ['/']) .selfClosing where
  isAlphanum _ hc := n.isAlphanum hc
  isPlain := n.isPlain_single a
  parse_eq b r := by
    have hread := n.parse?_single (b.toAttributes.append a) r
    rw [single, Attributes.append, List.append_assoc] at hread
    exact hread

/-- Behind its bracket the name of a tag goes on in the same line. -/
theorem Position.afterText_name {p : Position} {n : Text} (hn : ∀ c ∈ n, c.isAlphanum) :
    p.afterText ('<' :: n) = p.right (1 + n.length) := by
  rw [Position.afterText_of_flat, List.length_cons, Nat.add_comm]
  refine List.forall_mem_cons.mpr ⟨by decide, ?_⟩
  rintro c hc rfl
  exact absurd (hn _ hc) (by decide)

namespace Cell

variable {ps : List Position} {p : Position} {t n tail : Text}

theorem insertedText_ne_nil {cells : List Cell} (h : cells ≠ []) :
    insertedText ps t cells ≠ [] := by
  obtain ⟨cell, rest, rfl⟩ := List.exists_cons_of_ne_nil h
  rw [insertedText_cons]
  simp

theorem mem_insertedText {c : Char} {cells : List Cell} (h : c ∈ insertedText ps t cells) :
    c ∈ t ∨ c ∈ text cells := by
  obtain ⟨cell, hcell, hc⟩ := List.mem_flatMap.mp h
  have hchar : cell.char ∈ text cells := List.mem_map_of_mem hcell
  split at hc
  next =>
    rcases List.mem_append.mp hc with hc | hc
    · exact .inl hc
    · exact .inr (List.mem_singleton.mp hc ▸ hchar)
  next => exact .inr (List.mem_singleton.mp hc ▸ hchar)

/-- Nothing is put in front of the end of the name of a tag. -/
theorem insertedText_name (hn : ∀ c ∈ n, c.isAlphanum)
    (hps : ∀ q ∈ ps, (Range.spanning p (Text.angled (n ++ tail))).covers q →
      q = p.right (1 + n.length)) :
    insertedText ps t (layOut p ('<' :: n)) = '<' :: n := by
  rw [insertedText_of_forall_notMem, text_layOut]
  intro cell hcell hmem
  have hwhole : cell ∈ layOut p (Text.angled (n ++ tail)) := by
    rw [Text.angled, ← List.cons_append, List.append_assoc, layOut_append]
    exact List.mem_append_left _ hcell
  have hlt := position_lt_of_mem_layOut hcell
  rw [Position.afterText_name hn, hps _ hmem (Forest.covers_spanning_of_mem_layOut hwhole)] at hlt
  exact Position.lt_irrefl _ hlt

/-- A text put right behind the name of a tag. -/
theorem insertedText_tag (hn : ∀ c ∈ n, c.isAlphanum)
    (hps : ∀ q ∈ ps, (Range.spanning p (Text.angled (n ++ tail))).covers q →
      q = p.right (1 + n.length)) :
    insertedText ps t (layOut p (Text.angled (n ++ tail))) =
      Text.angled (n ++ ((if p.right (1 + n.length) ∈ ps then t else []) ++ tail)) := by
  obtain ⟨c, rest, hrest⟩ : ∃ c rest, tail ++ ['>'] = c :: rest :=
    List.exists_cons_of_ne_nil (by simp)
  have hsplit : layOut p (Text.angled (n ++ tail)) =
      layOut p ('<' :: n) ++ layOut (p.right (1 + n.length)) (c :: rest) := by
    rw [← Position.afterText_name hn, ← layOut_append, ← hrest, Text.angled]
    simp
  have hbehind : insertedText ps t (layOut ((p.right (1 + n.length)).after c) rest) = rest := by
    rw [insertedText_of_forall_notMem, text_layOut]
    intro cell hcell hmem
    have hwhole : cell ∈ layOut p (Text.angled (n ++ tail)) := by
      rw [hsplit]
      exact List.mem_append_right _ (List.mem_cons_of_mem _ hcell)
    have hle := le_position_of_mem_layOut hcell
    rw [hps _ hmem (Forest.covers_spanning_of_mem_layOut hwhole)] at hle
    exact Position.not_le.mpr (Position.lt_after _ c) hle
  rw [hsplit, insertedText_append, insertedText_name hn hps, layOut_cons, insertedText_cons,
    hbehind, ← hrest, Text.angled]
  simp

end Cell

/-- Plain text with attributes in front of the characters at some positions. -/
def PlainText.give (a : OpeningAttributes) (ps : List Position) (p : Position) (t : PlainText) :
    PlainText :=
  ⟨Cell.insertedText ps a.text (Cell.layOut p t.text), by
    intro c hc
    rcases Cell.mem_insertedText hc with hc | hc
    · exact a.isPlain c hc
    · rw [Cell.text_layOut] at hc
      exact t.isPlain c hc⟩

/-! ## A forest -/

namespace Forest

/-- A forest that gets attributes at some positions, which are right behind the names of its tags
where they are in a tag at all. -/
def give (a : OpeningAttributes) (ps : List Position) : Position → Forest → Forest
  | _, nil => nil
  | p, text t rest => text (t.give a ps p) (rest.give a ps (p.afterText t.text))
  | p, single n b rest =>
    single n (if (n.singleTag b p).nameEnd ∈ ps then a.toAttributes.append b else b)
      (rest.give a ps (p.afterText (n.single b).angled))
  | p, node s content rest =>
    node (if (s.openingTag p).nameEnd ∈ ps then s.give a else s)
      (content.give a ps (contentStart s p)) (rest.give a ps (nodeStop s content p))
  | p, comment c rest => comment c (rest.give a ps (p.afterText c.dashed.angled))

/-- Whether the positions of a list that are in a tag of a forest are right behind the name of a tag
that closes no element. -/
def AtNames (f : Forest) (ps : List Position) (p : Position) : Prop :=
  ∀ t ∈ f.tags p, ∀ q ∈ ps, t.range.covers q → t.kind ≠ .closing ∧ q = t.nameEnd

variable {f : Forest} {a : OpeningAttributes} {ps : List Position} {p q : Position} {t : Tag}

/-- In a forest without fragments a tag that closes no element says a name and then attributes. -/
theorem exists_takesAttributes (hf : f.IsNamed) (h : t ∈ f.tags p) (hkind : t.kind ≠ .closing) :
    ∃ pre tail post, TagOf t p f.toText pre (t.name ++ tail) post ∧
      TakesAttributes t.name tail t.kind := by
  induction f generalizing p with
  | nil => cases h
  | text u rest ih =>
      obtain ⟨pre, tail, post, ht, htakes⟩ := ih hf h
      exact ⟨_, tail, _, ht.prepend, htakes⟩
  | single n b rest ih =>
      rcases List.mem_cons.mp h with rfl | h
      · exact ⟨[], b.text ++ ['/'], rest.toText,
          ⟨rfl, n.isPlain_single b, rfl, n.parse?_single b _⟩, n.takesAttributes b⟩
      · obtain ⟨pre, tail, post, ht, htakes⟩ := ih hf h
        exact ⟨_, tail, _, ht.prepend, htakes⟩
  | node s content rest ihContent ih =>
      obtain ⟨hname, hcontent, hrest⟩ := hf
      rw [tags, List.cons_append, List.mem_cons, List.mem_append, List.mem_cons] at h
      rcases h with rfl | h | rfl | h
      · exact ⟨[], s.attributes, _, ⟨rfl, s.isPlain_opening, rfl, s.parse?_opening _⟩,
          s.takesAttributes hname⟩
      · obtain ⟨pre, tail, post, ht, htakes⟩ := ihContent hcontent h
        exact ⟨_, tail, _, (ht.append (s.closing.angled ++ rest.toText)).prepend, htakes⟩
      · exact absurd rfl hkind
      · obtain ⟨pre, tail, post, ht, htakes⟩ := ih hrest h
        exact ⟨_, tail, _, ht.prepend.prepend.prepend, htakes⟩
  | comment c rest ih =>
      obtain ⟨pre, tail, post, ht, htakes⟩ := ih hf h
      exact ⟨_, tail, _, ht.prepend, htakes⟩

/-! ### The text of one tag -/

/-- A tag that is given something right behind its name has that in its text. -/
theorem insertedText_of_mem {tail : Text} (hn : ∀ c ∈ t.name, c.isAlphanum)
    (hrange : t.range = Range.spanning p (Text.angled (t.name ++ tail)))
    (hps : ∀ q ∈ ps, t.range.covers q → t.kind ≠ .closing ∧ q = t.nameEnd) (u : Text) :
    Cell.insertedText ps u (Cell.layOut p (Text.angled (t.name ++ tail))) =
      Text.angled (t.name ++ ((if t.nameEnd ∈ ps then u else []) ++ tail)) := by
  have hend : t.nameEnd = p.right (1 + t.name.length) := by rw [Tag.nameEnd, hrange]; rfl
  rw [hend]
  refine Cell.insertedText_tag hn fun q hq hcovers => ?_
  rw [(hps q hq (hrange ▸ hcovers)).2, hend]

theorem insertedText_single {n : TagName} {b : Attributes}
    (hps : ∀ q ∈ ps, (n.singleTag b p).range.covers q →
      (n.singleTag b p).kind ≠ .closing ∧ q = (n.singleTag b p).nameEnd) :
    Cell.insertedText ps a.text (Cell.layOut p (n.single b).angled) =
      (n.single (if (n.singleTag b p).nameEnd ∈ ps then a.toAttributes.append b
        else b)).angled := by
  refine (insertedText_of_mem (fun c hc => n.isAlphanum hc) rfl hps a.text).trans ?_
  split
  next => simp [TagName.single, TagName.singleTag, Attributes.append]
  next => rfl

theorem insertedText_opening {s : Shell} (hname : s.name ≠ [])
    (hps : ∀ q ∈ ps, (s.openingTag p).range.covers q →
      (s.openingTag p).kind ≠ .closing ∧ q = (s.openingTag p).nameEnd) :
    Cell.insertedText ps a.text (Cell.layOut p s.opening.angled) =
      (if (s.openingTag p).nameEnd ∈ ps then s.give a else s).opening.angled := by
  refine (insertedText_of_mem (s.takesAttributes hname).isAlphanum rfl hps a.text).trans ?_
  split
  next => rw [Shell.opening_give hname]; rfl
  next => rfl

theorem insertedText_closing {s : Shell}
    (hps : ∀ q ∈ ps, (s.closingTag p).range.covers q →
      (s.closingTag p).kind ≠ .closing ∧ q = (s.closingTag p).nameEnd) (u : Text) :
    Cell.insertedText ps u (Cell.layOut p s.closing.angled) = s.closing.angled := by
  rw [Cell.insertedText_of_forall_notMem, Cell.text_layOut]
  intro cell hcell hmem
  exact (hps _ hmem (covers_spanning_of_mem_layOut hcell)).1 rfl

/-! ### The text of a forest -/

/-- A forest that is given attributes at the names of its tags has them there in its text. -/
theorem toText_give (hf : f.IsUncommented) (hnamed : f.IsNamed) (h : f.AtNames ps p) :
    (f.give a ps p).toText = Cell.insertedText ps a.text (Cell.layOut p f.toText) := by
  induction f generalizing p with
  | nil => rfl
  | text t rest ih =>
      rw [give, toText, toText, Cell.layOut_append, Cell.insertedText_append, ih hf hnamed h]
      rfl
  | single n b rest ih =>
      obtain ⟨htag, hrest⟩ := List.forall_mem_cons.mp h
      rw [give, toText, toText, Cell.layOut_append, Cell.insertedText_append,
        insertedText_single htag, ih hf hnamed hrest]
  | node s content rest ihContent ih =>
      obtain ⟨hname, hcontent, hrest⟩ := hnamed
      rw [AtNames, tags, List.cons_append, List.forall_mem_cons, List.forall_mem_append,
        List.forall_mem_cons] at h
      obtain ⟨hopening, hinside, hclosing, hbehind⟩ := h
      simp only [give, toText, Cell.layOut_append, Cell.insertedText_append]
      rw [← contentStart, ← contentStop, ← nodeStop, insertedText_opening hname hopening,
        insertedText_closing hclosing, ihContent hf.1 hcontent hinside, ih hf.2 hrest hbehind]
      rw [Shell.closing_ite]
  | comment c rest ih => exact hf.elim

/-- A text ends in two dashes only if what stands behind the last part that does not end in a dash
does. -/
theorem dashes_suffix_of_append {u v : Text} (hu : u.getLast? ≠ some '-')
    (h : ['-', '-'] <:+ u ++ v) : ['-', '-'] <:+ v := by
  rcases List.suffix_or_suffix_of_suffix h (List.suffix_append u v) with hv | ⟨w, hw⟩
  · exact hv
  · obtain ⟨l, hl⟩ := h
    rw [← hw, ← List.append_assoc] at hl
    obtain rfl : l ++ w = u := List.append_cancel_right hl
    cases hlast : w.getLast? with
    | none =>
        rw [List.getLast?_eq_none_iff.mp hlast, List.nil_append] at hw
        exact hw ▸ List.suffix_rfl
    | some c =>
        have hc : c ∈ ['-', '-'] := hw ▸ List.mem_append_left v (List.mem_of_getLast? hlast)
        obtain rfl : c = '-' := by simpa using hc
        rw [List.getLast?_append, hlast, Option.some_or] at hu
        exact absurd rfl hu

theorem isUndashed_give (ha : a.text.getLast? ≠ some '-') (h : f.IsUndashed) :
    (f.give a ps p).IsUndashed := by
  induction f generalizing p with
  | nil => trivial
  | text t rest ih => exact ih h
  | single n b rest ih => exact ih h
  | node s content rest ihContent ih =>
      obtain ⟨hdashes, hcontent, hrest⟩ := h
      refine ⟨?_, ihContent hcontent, ih hrest⟩
      split
      next =>
        cases s with
        | element name attributes blank =>
            exact fun hsuffix => hdashes (dashes_suffix_of_append ha hsuffix)
        | fragment => exact hdashes
      next => exact hdashes
  | comment c rest ih => exact ih h

/-- What is in no element of a forest stays in none. -/
theorem Gap.give {owner : Option Tag} {pre post : Text} (hgap : f.Gap p owner pre post)
    (q : Position) (howner : owner = none) (hf : f.IsUncommented) (hnamed : f.IsNamed)
    (h : f.AtNames ps p) :
    (f.give a ps p).Gap q none (Cell.insertedText ps a.text (Cell.layOut p pre))
      (Cell.insertedText ps a.text (Cell.layOut (p.afterText pre) post)) := by
  induction hgap generalizing q with
  | stop => exact .stop
  | @insideText t rest p pre far htext hfar =>
      have hrest : (rest.give a ps (p.afterText t.text)).toText = _ :=
        toText_give (f := rest) hf hnamed h
      rw [Cell.layOut_append, Cell.insertedText_append, ← Position.afterText_append, ← htext,
        ← hrest]
      refine .insideText ?_ ?_
      · change Cell.insertedText ps a.text (Cell.layOut p t.text) = _
        rw [htext, Cell.layOut_append, Cell.insertedText_append]
      · obtain ⟨c, rest, rfl⟩ := List.exists_cons_of_ne_nil hfar
        exact Cell.insertedText_ne_nil (List.cons_ne_nil _ _)
  | @afterText t rest p owner pre post hgap ih =>
      have hrest := ih (q.afterText (t.give a ps p).text) howner hf hnamed h
      rw [Cell.layOut_append, Cell.insertedText_append, Position.afterText_append]
      exact .afterText hrest
  | @afterSingle n b rest p owner pre post hgap ih =>
      obtain ⟨htag, hbehind⟩ := List.forall_mem_cons.mp h
      rw [Cell.layOut_append, Cell.insertedText_append, Position.afterText_append,
        insertedText_single htag]
      exact .afterSingle (ih _ howner hf hnamed hbehind)
  | @insideNode s content rest p owner pre post hgap hpost ih => cases owner <;> cases howner
  | @afterNode s content rest p owner pre post hgap ih =>
      obtain ⟨hname, hcontent, hrest⟩ := hnamed
      rw [AtNames, tags, List.cons_append, List.forall_mem_cons, List.forall_mem_append,
        List.forall_mem_cons] at h
      obtain ⟨hopening, hinside, hclosing, hbehind⟩ := h
      simp only [Cell.layOut_append, Cell.insertedText_append, Position.afterText_append]
      rw [← contentStart, ← contentStop, ← nodeStop, insertedText_opening hname hopening,
        insertedText_closing hclosing, ← toText_give hf.1 hcontent hinside]
      rw [← s.closing_ite a ((s.openingTag p).nameEnd ∈ ps)]
      exact .afterNode (ih _ howner hf.2 hrest hbehind)
  | beforeComment => exact hf.elim
  | afterComment hgap ih => exact hf.elim

end Forest

end MarkupPairs
