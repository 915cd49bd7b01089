import MarkupPairs.Proofs.ClassTag
import MarkupPairs.Proofs.ForestAttributes
import MarkupPairs.Proofs.MergedSelections
import MarkupPairs.Session.Command

/-!
# Going to the class lists twice

In a forest, going to the class lists gives an empty class attribute to every tag that a caret goes
to and that has none, right behind its name. The carets are then at the ends of the class lists that
are found in the new text, so going there again changes nothing.
-/

namespace MarkupPairs

/-! ## The places of a tag in its text -/

theorem ClassList.lt_of_stopIn?_angled {inner : Text} {k : Nat}
    (h : stopIn? inner.angled = some k) : k < inner.angled.length :=
  lt_of_stopIn? (by rw [Text.angled, List.getLast?_concat]) h

namespace Tag.WrittenIn

variable {d : Document} {t : Tag} {pre tail inner post : Text} {k : Nat}

/-- The place right behind the name of a tag. -/
theorem dividedAt_nameEnd (h : t.WrittenIn d pre (t.name ++ tail) post)
    (hn : ∀ c ∈ t.name, c.isAlphanum) :
    d.DividedAt t.nameEnd (pre ++ '<' :: t.name) (tail ++ '>' :: post) := by
  have hend : t.range.start.afterText ('<' :: t.name) = t.nameEnd := Position.afterText_name hn
  have hsplit : (t.name ++ tail).angled ++ post = ('<' :: t.name) ++ (tail ++ '>' :: post) := by
    simp [Text.angled]
  have hdiv := h.divided
  rw [hsplit] at hdiv
  exact hend ▸ hdiv.append

theorem covers_nameEnd (h : t.WrittenIn d pre (t.name ++ tail) post)
    (hn : ∀ c ∈ t.name, c.isAlphanum) : t.range.covers t.nameEnd := by
  have hdiv := h.dividedAt_nameEnd hn
  have hstop := h.dividedAt_stop
  have htext : pre ++ (t.name ++ tail).angled = (pre ++ '<' :: t.name) ++ (tail ++ ['>']) := by
    simp [Text.angled]
  rw [Range.covers_iff]
  constructor
  · exact .inr ⟨rfl, Nat.le_add_right _ _⟩
  · rw [hstop.position_eq, htext, Position.afterText_append, ← hdiv.position_eq]
    exact Position.lt_afterText (by simp)

theorem classPlace_eq (h : t.WrittenIn d pre inner post) (hkind : t.kind ≠ .closing) :
    d.classPlace t =
      ((ClassList.stopIn? inner.angled).map fun k =>
        ⟨t.range.start.afterText (inner.angled.take k), .endOfClassList⟩).getD
        ⟨t.nameEnd, .endOfName⟩ := by
  have hstop : d.nameStop t = t.nameEnd := by
    simp only [Document.nameStop, h.divided.isValid, if_pos, if_neg hkind, Nat.add_zero,
      Tag.nameEnd]
  rw [Document.classPlace_eq h.divided h.range_eq, hstop]

/-- A place within the text of a tag is on the tag. -/
theorem dividedAt_take (h : t.WrittenIn d pre inner post) (hk : k < inner.angled.length) :
    d.DividedAt (t.range.start.afterText (inner.angled.take k)) (pre ++ inner.angled.take k)
        (inner.angled.drop k ++ post) ∧
      t.range.start.afterText (inner.angled.take k) < t.range.stop := by
  have hdiv := h.divided
  rw [← List.take_append_drop k inner.angled, List.append_assoc] at hdiv
  refine ⟨hdiv.append, ?_⟩
  have hparts : inner.angled.take k ++ inner.angled.drop k = inner.angled ++ [] := by simp
  rw [h.stop_eq, Position.afterText_lt_iff hparts, List.length_take_of_le (Nat.le_of_lt hk)]
  exact hk

/-- At the end of the class list of a tag is where a caret on the tag goes, and where it stays. -/
theorem exists_classPlace? {s : Session} (h : t.WrittenIn s.document pre inner post)
    (hplain : inner.IsPlain) (hkind : t.kind ≠ .closing)
    (hlimits : s.document.lineCount ≤ s.settings.limits.enclosing)
    (hk : ClassList.stopIn? inner.angled = some k) :
    ∃ p, s.document.positionAt (pre.length + k) = p ∧ s.document.isValid p ∧
      s.classPlace? (.caret p) = some ⟨p, .endOfClassList⟩ := by
  have hlength := ClassList.lt_of_stopIn?_angled hk
  obtain ⟨hdiv, hlt⟩ := h.dividedAt_take hlength
  refine ⟨t.range.start.afterText (inner.angled.take k), ?_, hdiv.isValid, ?_⟩
  · rw [← hdiv.positionAt, List.length_append, List.length_take_of_le (Nat.le_of_lt hlength)]
  · have htag : s.document.tagAt? s.settings.limits
        (t.range.start.afterText (inner.angled.take k)) = some t := by
      rw [Document.tagAt?_of_isPlain h.divided hplain hlimits hdiv.isValid
        (Position.le_afterText _ _) (h.stop_eq ▸ hlt), ← h.range_eq]
      exact h.parse_eq
    have hclass : s.classTag? (t.range.start.afterText (inner.angled.take k)) = some t := by
      rw [Session.classTag?, Document.surroundingTag?_of_tagAt? htag]
      exact if_neg hkind
    rw [Session.classPlace?, Selection.caret, hclass, Option.map_some, h.classPlace_eq hkind, hk]
    rfl

/-- A tag in a document in which tags get attributes right behind their names, as this one may. -/
theorem inserting {ps : List Position} {a : OpeningAttributes}
    (h : t.WrittenIn d pre (t.name ++ tail) post) (htakes : TakesAttributes t.name tail t.kind)
    (hps : ∀ q ∈ ps, t.range.covers q → t.kind ≠ .closing ∧ q = t.nameEnd) {given : Text}
    (hgiven : (if t.nameEnd ∈ ps then a.text else []) = given) :
    (t.name ++ (given ++ tail)).IsPlain ∧
      Tag.WrittenIn ⟨t.name, t.kind, Range.spanning
          (Position.origin.afterText (Cell.insertedText ps a.text (Cell.layOut .origin pre)))
          (t.name ++ (given ++ tail)).angled⟩
        (d.inserting ps a.text) (Cell.insertedText ps a.text (Cell.layOut .origin pre))
        (t.name ++ (given ++ tail))
        (Cell.insertedText ps a.text (Cell.layOut t.range.stop post)) := by
  obtain ⟨hname, htail⟩ := Text.isPlain_append.mp htakes.isPlain
  have hmore : given.IsPlain := by
    rw [← hgiven]
    split
    next => exact a.isPlain
    next => exact Text.isPlain_nil
  have hplain : (t.name ++ (given ++ tail)).IsPlain :=
    Text.isPlain_append.mpr ⟨hname, Text.isPlain_append.mpr ⟨hmore, htail⟩⟩
  have hdiv := h.divided.inserting ps a.text
  rw [Cell.layOut_append, Cell.insertedText_append, ← h.stop_eq,
    Forest.insertedText_of_mem htakes.isAlphanum h.range_eq hps a.text, hgiven] at hdiv
  refine ⟨hplain, hdiv, rfl, hplain.isBalanced, ?_⟩
  rw [← hgiven]
  split
  next => exact htakes.parse_eq a _
  next => exact htakes.parse_eq ⟨⟨[], by decide, by decide⟩, by decide⟩ _

/-- In front of the end of its name a tag gets nothing. -/
theorem insertedText_name {ps : List Position} (h : t.WrittenIn d pre (t.name ++ tail) post)
    (hn : ∀ c ∈ t.name, c.isAlphanum)
    (hps : ∀ q ∈ ps, t.range.covers q → t.kind ≠ .closing ∧ q = t.nameEnd) (u : Text) :
    Cell.insertedText ps u (Cell.layOut t.range.start ('<' :: t.name)) = '<' :: t.name := by
  have hends : ∀ q ∈ ps, (Range.spanning t.range.start (t.name ++ tail).angled).covers q →
      q = t.range.start.right (1 + t.name.length) :=
    fun q hq hcovers => (hps q hq (h.range_eq ▸ hcovers)).2
  exact Cell.insertedText_name hn hends

/-- A tag that gets nothing stays as it is, up to any place. -/
theorem insertedText_take {ps : List Position} (h : t.WrittenIn d pre inner post)
    (hclear : ∀ q ∈ ps, ¬t.range.covers q) (u : Text) (k : Nat) :
    Cell.insertedText ps u (Cell.layOut t.range.start (inner.angled.take k)) =
      inner.angled.take k := by
  rw [Cell.insertedText_of_forall_notMem, Cell.text_layOut]
  intro cell hcell hmem
  have hwhole : cell ∈ Cell.layOut t.range.start inner.angled := by
    rw [← List.take_append_drop k inner.angled, Cell.layOut_append]
    exact List.mem_append_left _ hcell
  apply hclear _ hmem
  rw [h.range_eq]
  exact Forest.covers_spanning_of_mem_layOut hwhole

/-- Where a place on a tag lands up to which the tag gets nothing. -/
theorem landing_eq {ps : List Position} {u x rest : Text} {q : Position}
    (h : t.WrittenIn d pre inner post) (hdiv : d.DividedAt q (pre ++ x) rest)
    (hx : Cell.insertedText ps u (Cell.layOut t.range.start x) = x) :
    Splice.landing (Cell.insertions ps u 0 d.cells) (d.offsetAt q) .left =
      (Cell.insertedText ps u (Cell.layOut .origin pre)).length + x.length := by
  rw [hdiv.landing_insertions ps u, Cell.layOut_append, Cell.insertedText_append,
    ← h.divided.position_eq, hx, List.length_append]

end Tag.WrittenIn

namespace Session

variable {s : Session} {f : Forest} {p : Position} {t : Tag} {selection : Selection}

/-! ## The tags that get an attribute -/

/-- The places right behind the names of the tags without a class list that the carets go to. -/
def bareNames (s : Session) : List Position :=
  ((((s.selections.map s.classPlace?).filterMap id).filter (·.kind = .endOfName)).map
    ClassPlace.position).eraseDupsBy fun p q => s.document.offsetAt p == s.document.offsetAt q

theorem edits_classPlan {spelling : Text} (h : spelling ≠ []) :
    (s.classPlan spelling).edits = s.bareNames.map fun p => ⟨Range.empty p, spelling⟩ := by
  refine EditPlan.edits_foldl_add (f := fun p => ⟨Range.empty p, spelling⟩) ?_ .empty
  intro p hp
  simp [Edit.isNoop, h]

/-- Erasing repetitions by what is equality on a list keeps each member once. -/
theorem eraseDupsBy_of_iff {α : Type} {r : α → α → Bool} {l : List α}
    (h : ∀ a ∈ l, ∀ b ∈ l, r a b ↔ a = b) :
    (l.eraseDupsBy r).Nodup ∧ ∀ a, a ∈ l.eraseDupsBy r ↔ a ∈ l := by
  match l with
  | [] => simp
  | a :: l =>
    obtain ⟨ha, hl⟩ := List.forall_mem_cons.mp h
    have hothers (b : α) : b ∈ l.filter (fun b => r b a = false) ↔ b ∈ l ∧ b ≠ a := by
      rw [List.mem_filter]
      refine and_congr_right fun hb => ?_
      simp [← hl b hb a List.mem_cons_self]
    obtain ⟨hnodup, hmem⟩ := eraseDupsBy_of_iff (l := l.filter fun b => r b a = false)
      fun b hb c hc => h b (List.mem_cons_of_mem _ ((hothers b).mp hb).1) c
        (List.mem_cons_of_mem _ ((hothers c).mp hc).1)
    rw [List.eraseDupsBy_cons]
    refine ⟨List.nodup_cons.mpr ⟨?_, hnodup⟩, ?_⟩
    · rw [hmem, hothers]
      exact fun hboth => hboth.2 rfl
    · intro b
      rw [List.mem_cons, hmem, hothers, List.mem_cons]
      by_cases hb : b = a
      · simp [hb]
      · simp [hb]
termination_by l.length
decreasing_by exact Nat.lt_succ_of_le (List.length_filter_le _ _)

namespace CaretsInForest

theorem exists_writtenIn (h : s.CaretsInForest f) (ht : t ∈ f.tags .origin)
    (hkind : t.kind ≠ .closing) :
    ∃ pre tail post, t.WrittenIn s.document pre (t.name ++ tail) post ∧
      TakesAttributes t.name tail t.kind := by
  obtain ⟨pre, tail, post, htag, htakes⟩ := Forest.exists_takesAttributes h.isNamed ht hkind
  have hstart : t.range.start = Position.origin.afterText pre := congrArg Range.start htag.range_eq
  refine ⟨pre, tail, post, ⟨⟨h.text_eq.trans htag.text_eq, hstart⟩, ?_, htag.isPlain.isBalanced,
    htag.parse_eq⟩, htakes⟩
  rw [hstart]
  exact htag.range_eq

/-- Where a caret goes is the place of the tag that it goes to. -/
theorem classPlace?_eq_some_iff (h : s.CaretsInForest f) (hselection : selection ∈ s.selections)
    (place : ClassPlace) : s.classPlace? selection = some place ↔
      ∃ t, f.IsClassTag selection.active t ∧ s.document.classPlace t = place := by
  rw [classPlace?, Option.map_eq_some_iff]
  simp only [h.classTag?_eq_some_iff (h.isValid selection hselection)]

/-- Without a class list, a caret goes right behind the name. -/
theorem position_classPlace (h : s.CaretsInForest f) (ht : f.IsClassTag p t)
    (hkind : (s.document.classPlace t).kind = .endOfName) :
    (s.document.classPlace t).position = t.nameEnd := by
  obtain ⟨pre, tail, post, hwritten, -⟩ := h.exists_writtenIn ht.mem.1 ht.mem.2
  rw [hwritten.classPlace_eq ht.mem.2] at hkind ⊢
  cases hstop : ClassList.stopIn? (t.name ++ tail).angled with
  | none => rfl
  | some k =>
      rw [hstop] at hkind
      cases hkind

/-- Each tag without a class list that a caret goes to gets its attribute once. -/
theorem mem_bareNames_iff (h : s.CaretsInForest f) : s.bareNames.Nodup ∧
    ∀ p, p ∈ s.bareNames ↔ ∃ selection ∈ s.selections, ∃ t,
      f.IsClassTag selection.active t ∧ (s.document.classPlace t).kind = .endOfName ∧
        p = t.nameEnd := by
  let places := ((s.selections.map s.classPlace?).filterMap id).filter (·.kind = .endOfName)
  have hmem (p : Position) : p ∈ places.map ClassPlace.position ↔
      ∃ selection ∈ s.selections, ∃ t, f.IsClassTag selection.active t ∧
        (s.document.classPlace t).kind = .endOfName ∧ p = t.nameEnd := by
    rw [List.mem_map]
    constructor
    · rintro ⟨place, hplace, rfl⟩
      obtain ⟨hfound, hkind⟩ := List.mem_filter.mp hplace
      obtain ⟨found, hmem, hfound⟩ := List.mem_filterMap.mp hfound
      obtain ⟨selection, hselection, rfl⟩ := List.mem_map.mp hmem
      obtain ⟨t, ht, rfl⟩ := (h.classPlace?_eq_some_iff hselection place).mp hfound
      have hkind := of_decide_eq_true hkind
      exact ⟨selection, hselection, t, ht, hkind, h.position_classPlace ht hkind⟩
    · rintro ⟨selection, hselection, t, ht, hkind, rfl⟩
      have hfound := (h.classPlace?_eq_some_iff hselection _).mpr ⟨t, ht, rfl⟩
      refine ⟨s.document.classPlace t, List.mem_filter.mpr ⟨?_, decide_eq_true hkind⟩,
        h.position_classPlace ht hkind⟩
      exact List.mem_filterMap.mpr ⟨_, List.mem_map_of_mem hselection, hfound⟩
  have hvalid : ∀ p ∈ places.map ClassPlace.position, s.document.isValid p := by
    intro p hp
    obtain ⟨selection, -, t, ht, -, rfl⟩ := (hmem p).mp hp
    obtain ⟨pre, tail, post, hwritten, htakes⟩ := h.exists_writtenIn ht.mem.1 ht.mem.2
    exact (hwritten.dividedAt_nameEnd htakes.isAlphanum).isValid
  obtain ⟨hnodup, hsame⟩ := eraseDupsBy_of_iff (l := places.map ClassPlace.position)
    (r := fun p q => s.document.offsetAt p == s.document.offsetAt q) fun p hp q hq => by
      rw [beq_iff_eq, Document.offsetAt_inj (hvalid p hp) (hvalid q hq)]
  exact ⟨hnodup, fun p => (hsame p).trans (hmem p)⟩

/-- The attributes are given where the forest can take them. -/
theorem atNames_bareNames (h : s.CaretsInForest f) : f.AtNames s.bareNames .origin := by
  intro t ht q hq hcovers
  obtain ⟨selection, -, u, hu, -, rfl⟩ := (h.mem_bareNames_iff.2 q).mp hq
  obtain ⟨pre, tail, post, hwritten, htakes⟩ := h.exists_writtenIn hu.mem.1 hu.mem.2
  obtain rfl := Forest.eq_of_covers ht hu.mem.1 hcovers (hwritten.covers_nameEnd htakes.isAlphanum)
  exact ⟨hu.mem.2, rfl⟩

/-- A tag that a caret goes to gets an attribute if it has no class list. -/
theorem nameEnd_mem_bareNames (h : s.CaretsInForest f) (hselection : selection ∈ s.selections)
    (ht : f.IsClassTag selection.active t) :
    t.nameEnd ∈ s.bareNames ↔ (s.document.classPlace t).kind = .endOfName := by
  rw [h.mem_bareNames_iff.2]
  constructor
  · rintro ⟨selection', -, u, hu, hkind, hend⟩
    obtain ⟨pre, tail, post, hwritten, htakes⟩ := h.exists_writtenIn ht.mem.1 ht.mem.2
    obtain ⟨pre', tail', post', hwritten', htakes'⟩ := h.exists_writtenIn hu.mem.1 hu.mem.2
    have hcovers := hwritten'.covers_nameEnd htakes'.isAlphanum
    rw [← hend] at hcovers
    rwa [Forest.eq_of_covers ht.mem.1 hu.mem.1 (hwritten.covers_nameEnd htakes.isAlphanum) hcovers]
  · exact fun hkind => ⟨selection, hselection, t, ht, hkind, rfl⟩

/-- In front of each of the places there is a tag's text, so there is a character at it. -/
theorem exists_cell_of_mem_bareNames (h : s.CaretsInForest f) :
    ∀ p ∈ s.bareNames, ∃ cell ∈ s.document.cells, cell.position = p := by
  intro p hp
  obtain ⟨selection, -, t, ht, -, rfl⟩ := (h.mem_bareNames_iff.2 p).mp hp
  obtain ⟨pre, tail, post, hwritten, htakes⟩ := h.exists_writtenIn ht.mem.1 ht.mem.2
  have hdiv := hwritten.dividedAt_nameEnd htakes.isAlphanum
  obtain ⟨c, rest, hrest⟩ : ∃ c rest, tail ++ '>' :: post = c :: rest :=
    List.exists_cons_of_ne_nil (by simp)
  rw [hrest] at hdiv
  refine ⟨⟨t.nameEnd, c⟩, ?_, rfl⟩
  rw [Document.cells, hdiv.text_eq, hdiv.position_eq]
  exact Cell.mem_layOut _ _ _ _

end CaretsInForest

/-! ## What comes of going there -/

/-- Where a caret is when the tags without a class list have got an attribute. -/
def landed (s : Session) (spelling : Text) (selection : Selection) : Selection :=
  (s.classTarget spelling selection).resolve
    (Cell.insertions s.bareNames spelling 0 s.document.cells)
    (s.document.inserting s.bareNames spelling)

theorem landed_of_endOfName {spelling : Text}
    (h : s.classPlace? selection = some ⟨p, .endOfName⟩) :
    s.landed spelling selection = .caret ((s.document.inserting s.bareNames spelling).positionAt
      (Splice.landing (Cell.insertions s.bareNames spelling 0 s.document.cells)
        (s.document.offsetAt p) .left + (spelling.length - 1))) := by
  rw [landed, classTarget, h]
  rfl

theorem landed_of_endOfClassList {spelling : Text}
    (h : s.classPlace? selection = some ⟨p, .endOfClassList⟩) :
    s.landed spelling selection = .caret ((s.document.inserting s.bareNames spelling).positionAt
      (Splice.landing (Cell.insertions s.bareNames spelling 0 s.document.cells)
        (s.document.offsetAt p) .left)) := by
  rw [landed, classTarget, h]
  rfl

/-- The session when the tags without a class list have got an attribute. -/
def focused (s : Session) (spelling : Text) : Session :=
  { s with
    document := s.document.inserting s.bareNames spelling
    selections := Selection.normalize (s.selections.map (s.landed spelling)) }

/-- An empty class attribute as the attributes of an opening tag. -/
theorem exists_openingAttributes {dialect : Dialect} {spelling : Text}
    (h : dialect.emptyClassAttribute = some spelling) :
    ∃ a : OpeningAttributes, a.text = spelling ∧ a.text ≠ [] ∧ a.text.getLast? ≠ some '-' := by
  cases dialect with
  | html =>
      obtain rfl := Option.some.inj h
      exact ⟨⟨⟨_, by decide, by decide⟩, by decide⟩, rfl, by decide, by decide⟩
  | jsx =>
      obtain rfl := Option.some.inj h
      exact ⟨⟨⟨_, by decide, by decide⟩, by decide⟩, rfl, by decide, by decide⟩
  | other => cases h

namespace CaretsInForest

variable {spelling : Text}

/-- Going to the class lists is never refused where a caret has one to go to. -/
theorem focusClass_eq (h : s.CaretsInForest f)
    (hdialect : s.dialect.emptyClassAttribute = some spelling)
    (hsome : ∃ selection ∈ s.selections, s.classPlace? selection ≠ none) :
    focusClass.result s =
      .ok (if s.bareNames = [] then .moved else .applied s.bareNames.length false,
        s.focused spelling) := by
  obtain ⟨a, rfl, hne, -⟩ := exists_openingAttributes hdialect
  have hnodup := h.mem_bareNames_iff.1
  have hcells := h.exists_cell_of_mem_bareNames
  have hcommit : (commit (s.classPlan a.text) (s.selections.map (s.classTarget a.text))).result s =
      .ok (s.bareNames.length, s.focused a.text) := by
    rw [commit_eq_ok_iff]
    refine ⟨_, _, Document.apply_insertions (edits_classPlan hne) hnodup hcells, ?_, ?_⟩
    · rw [(Document.insertions_perm hnodup hcells).length_eq, List.length_map]
    · rw [focused, List.map_map]
      rfl
  rw [focusClass_of_commit hdialect hsome hcommit]
  simp only [List.length_eq_zero_iff]

theorem lineCount_focused (hdialect : s.dialect.emptyClassAttribute = some spelling) :
    (s.focused spelling).document.lineCount = s.document.lineCount :=
  s.document.lineCount_inserting s.bareNames
    (ClassList.not_mem_lineFeed_emptyClassAttribute hdialect)

theorem lineCount_focused_le (h : s.CaretsInForest f)
    (hdialect : s.dialect.emptyClassAttribute = some spelling) :
    (s.focused spelling).document.lineCount ≤ s.settings.limits.enclosing := by
  rw [lineCount_focused hdialect]
  exact Nat.le_of_lt h.lineCount_lt_enclosing

/-- A caret in no element keeps its place in front of the same character. -/
theorem landed_of_gap {pre post : Text} (h : s.CaretsInForest f)
    (hdialect : s.dialect.emptyClassAttribute = some spelling)
    (hselection : selection ∈ s.selections) (hgap : f.Gap .origin none pre post)
    (hdiv : s.document.DividedAt selection.active pre post) :
    ∃ p, s.landed spelling selection = .caret p ∧ (s.focused spelling).document.isValid p ∧
      (s.focused spelling).classPlace? (.caret p) = none := by
  have hlines := lineCount_focused hdialect
  obtain ⟨a, rfl, -, hdash⟩ := exists_openingAttributes hdialect
  have hdiv' := hdiv.inserting s.bareNames a.text
  refine ⟨_, ?_, hdiv'.isValid, ?_⟩
  · have hnone : s.classPlace? selection = none :=
      classPlace?_of_gap hgap h.text_eq h.isUndashed hdiv h.lineCount_lt_enclosing
        h.lineCount_lt_surrounding
    rw [landed, classTarget, hnone, Option.map_none, Option.getD_none, keep,
      Selection.eq_caret (h.isEmpty selection hselection), CaretTarget.resolve]
    simp only [Selection.caret, hdiv.landing_insertions, hdiv'.positionAt]
  · have htext : (s.focused a.text).document.text = (f.give a s.bareNames .origin).toText := by
      rw [Forest.toText_give h.isUncommented h.isNamed h.atNames_bareNames, ← h.text_eq]
      rfl
    have hgap' := hgap.give .origin rfl h.isUncommented h.isNamed (a := a) h.atNames_bareNames
    rw [← hdiv.position_eq] at hgap'
    refine classPlace?_of_gap hgap' htext (Forest.isUndashed_give hdash h.isUndashed) hdiv' ?_ ?_
    · exact hlines ▸ h.lineCount_lt_enclosing
    · exact hlines ▸ h.lineCount_lt_surrounding

/-- A caret on a tag without a class list goes between the quotes of the attribute that the tag
gets, which is the first one there that says classes. -/
theorem landed_of_stopIn?_eq_none {pre tail post : Text} (h : s.CaretsInForest f)
    (hdialect : s.dialect.emptyClassAttribute = some spelling)
    (hselection : selection ∈ s.selections) (ht : f.IsClassTag selection.active t)
    (hwritten : t.WrittenIn s.document pre (t.name ++ tail) post)
    (htakes : TakesAttributes t.name tail t.kind)
    (hstop : ClassList.stopIn? (t.name ++ tail).angled = none) :
    ∃ p, s.landed spelling selection = .caret p ∧ (s.focused spelling).document.isValid p ∧
      (s.focused spelling).classPlace? (.caret p) = some ⟨p, .endOfClassList⟩ := by
  have henclosing := h.lineCount_focused_le hdialect
  obtain ⟨a, rfl, hne, -⟩ := exists_openingAttributes hdialect
  have hnames := h.atNames_bareNames t ht.mem.1
  have hclass : s.document.classPlace t = ⟨t.nameEnd, .endOfName⟩ := by
    rw [hwritten.classPlace_eq ht.mem.2, hstop]
    rfl
  have hgets : t.nameEnd ∈ s.bareNames :=
    (h.nameEnd_mem_bareNames hselection ht).mpr (by rw [hclass])
  obtain ⟨hplain, hwritten'⟩ := hwritten.inserting htakes hnames (if_pos hgets)
  have hangled : (t.name ++ (a.text ++ tail)).angled =
      '<' :: (t.name ++ (a.text ++ (tail ++ ['>']))) := by simp [Text.angled]
  have hk := ClassList.stopIn?_emptyClassAttribute hdialect htakes.isAlphanum (tail ++ ['>'])
  rw [← hangled] at hk
  obtain ⟨p, hp, hvalid, hfound⟩ :=
    hwritten'.exists_classPlace? (s := s.focused a.text) hplain ht.mem.2 henclosing hk
  refine ⟨p, ?_, hvalid, hfound⟩
  have hplace := (h.classPlace?_eq_some_iff hselection _).mpr ⟨t, ht, hclass⟩
  have hlanding := hwritten.landing_eq (hwritten.dividedAt_nameEnd htakes.isAlphanum)
    (hwritten.insertedText_name htakes.isAlphanum hnames a.text)
  have hlength := List.length_pos_iff.mpr hne
  rw [← hp, landed_of_endOfName hplace, hlanding, List.length_cons]
  congr 2
  omega

/-- A caret on a tag with a class list goes to its end, and the tag stays as it is. -/
theorem landed_of_stopIn?_eq_some {pre tail post : Text} {k : Nat} (h : s.CaretsInForest f)
    (hdialect : s.dialect.emptyClassAttribute = some spelling)
    (hselection : selection ∈ s.selections) (ht : f.IsClassTag selection.active t)
    (hwritten : t.WrittenIn s.document pre (t.name ++ tail) post)
    (htakes : TakesAttributes t.name tail t.kind)
    (hstop : ClassList.stopIn? (t.name ++ tail).angled = some k) :
    ∃ p, s.landed spelling selection = .caret p ∧ (s.focused spelling).document.isValid p ∧
      (s.focused spelling).classPlace? (.caret p) = some ⟨p, .endOfClassList⟩ := by
  have henclosing := h.lineCount_focused_le hdialect
  obtain ⟨a, rfl, -⟩ := exists_openingAttributes hdialect
  have hnames := h.atNames_bareNames t ht.mem.1
  have hclass : s.document.classPlace t =
      ⟨t.range.start.afterText ((t.name ++ tail).angled.take k), .endOfClassList⟩ := by
    rw [hwritten.classPlace_eq ht.mem.2, hstop]
    rfl
  have hgets : t.nameEnd ∉ s.bareNames := by
    rw [h.nameEnd_mem_bareNames hselection ht, hclass]
    intro hname
    cases hname
  have hclear : ∀ q ∈ s.bareNames, ¬t.range.covers q := by
    intro q hq hcovers
    exact hgets ((hnames q hq hcovers).2 ▸ hq)
  obtain ⟨hplain, hwritten'⟩ := hwritten.inserting htakes hnames (if_neg hgets)
  obtain ⟨p, hp, hvalid, hfound⟩ :=
    hwritten'.exists_classPlace? (s := s.focused a.text) hplain ht.mem.2 henclosing hstop
  refine ⟨p, ?_, hvalid, hfound⟩
  have hplace := (h.classPlace?_eq_some_iff hselection _).mpr ⟨t, ht, hclass⟩
  have hlength := ClassList.lt_of_stopIn?_angled hstop
  have hlanding := hwritten.landing_eq (hwritten.dividedAt_take hlength).1
    (hwritten.insertedText_take hclear a.text k)
  rw [← hp, landed_of_endOfClassList hplace, hlanding,
    List.length_take_of_le (Nat.le_of_lt hlength)]
  rfl

/-- A caret goes to the end of the class list that is found in its tag from then on. -/
theorem landed_of_isClassTag (h : s.CaretsInForest f)
    (hdialect : s.dialect.emptyClassAttribute = some spelling)
    (hselection : selection ∈ s.selections) (ht : f.IsClassTag selection.active t) :
    ∃ p, s.landed spelling selection = .caret p ∧ (s.focused spelling).document.isValid p ∧
      (s.focused spelling).classPlace? (.caret p) = some ⟨p, .endOfClassList⟩ := by
  obtain ⟨pre, tail, post, hwritten, htakes⟩ := h.exists_writtenIn ht.mem.1 ht.mem.2
  cases hstop : ClassList.stopIn? (t.name ++ tail).angled with
  | none => exact h.landed_of_stopIn?_eq_none hdialect hselection ht hwritten htakes hstop
  | some k => exact h.landed_of_stopIn?_eq_some hdialect hselection ht hwritten htakes hstop

/-- Afterwards every caret is where it goes. -/
theorem isAtClasses_focused (h : s.CaretsInForest f)
    (hdialect : s.dialect.emptyClassAttribute = some spelling) :
    (s.focused spelling).IsAtClasses ∧
      ((∃ selection ∈ s.selections, f.IsInside selection.active) →
        ∃ selection ∈ (s.focused spelling).selections,
          (s.focused spelling).classPlace? selection ≠ none) := by
  have hlanded {selection : Selection} (hselection : selection ∈ s.selections) :
      ∃ p, s.landed spelling selection = .caret p ∧ (s.focused spelling).document.isValid p ∧
        ((s.focused spelling).classPlace? (.caret p) = some ⟨p, .endOfClassList⟩ ∨
          ¬f.IsInside selection.active ∧ (s.focused spelling).classPlace? (.caret p) = none) := by
    have hvalid := h.isValid selection hselection
    by_cases hinside : f.IsInside selection.active
    · obtain ⟨t, ht⟩ := hinside.exists_isClassTag h.text_eq h.isUncommented hvalid
      obtain ⟨p, hp, hpvalid, hplace⟩ := h.landed_of_isClassTag hdialect hselection ht
      exact ⟨p, hp, hpvalid, .inl hplace⟩
    · obtain ⟨pre, post, hgap, hdiv⟩ :=
        Forest.exists_gap_of_not_isInside hinside h.text_eq h.isUncommented hvalid
      obtain ⟨p, hp, hpvalid, hplace⟩ := h.landed_of_gap hdialect hselection hgap hdiv
      exact ⟨p, hp, hpvalid, .inr ⟨hinside, hplace⟩⟩
  have hempty : ∀ x ∈ s.selections.map (s.landed spelling), x.isEmpty := by
    rw [List.forall_mem_map]
    intro selection hselection
    obtain ⟨p, hp, -⟩ := hlanded hselection
    rw [hp]
    exact beq_self_eq_true p
  have hmem (x : Selection) : x ∈ (s.focused spelling).selections ↔
      ∃ selection ∈ s.selections, s.landed spelling selection = x := by
    rw [focused, Selection.mem_normalize_of_isEmpty hempty, List.mem_map]
  constructor
  · intro x hx
    obtain ⟨selection, hselection, rfl⟩ := (hmem x).mp hx
    obtain ⟨p, hp, hvalid, hplace⟩ := hlanded hselection
    rw [hp]
    refine ⟨beq_self_eq_true p, hvalid, ?_⟩
    rcases hplace with hplace | ⟨-, hplace⟩
    · exact .inr hplace
    · exact .inl hplace
  · rintro ⟨selection, hselection, hinside⟩
    obtain ⟨p, hp, -, hplace | ⟨hnot, -⟩⟩ := hlanded hselection
    · refine ⟨.caret p, (hmem _).mpr ⟨selection, hselection, hp⟩, ?_⟩
      rw [hplace]
      exact Option.some_ne_none _
    · exact absurd hinside hnot

end CaretsInForest

/-- In a forest of elements, carets at least one of which is on a tag or inside an element go to the
class lists of their tags. A tag without one gets an empty class attribute right behind its name,
once however many carets go there, and nothing else in the text changes. Going there again changes
nothing at all. -/
theorem execute_focusClass_focusClass {spelling : Text} (h : s.CaretsInForest f)
    (hdialect : s.dialect = .html ∧ spelling = " class=\x22\x22".toList ∨
      s.dialect = .jsx ∧ spelling = " className=\x22\x22".toList)
    (hinside : ∃ selection ∈ s.selections, f.IsInside selection.active) :
    ∃ names after, names.Nodup ∧
      (∀ p, p ∈ names ↔ ∃ selection ∈ s.selections, ∃ t,
        f.IsClassTag selection.active t ∧ (s.document.classPlace t).kind = .endOfName ∧
          p = t.nameEnd) ∧
      s.execute .focusClass =
        .ok (if names = [] then .moved else .applied names.length false, after) ∧
      after.document.text = Cell.insertedText names spelling s.document.cells ∧
      after.execute .focusClass = .ok (.moved, after) := by
  have hspelling : s.dialect.emptyClassAttribute = some spelling := by
    rcases hdialect with ⟨hhtml, rfl⟩ | ⟨hjsx, rfl⟩
    · rw [hhtml]
      rfl
    · rw [hjsx]
      rfl
  obtain ⟨hplaces, hsome⟩ := h.isAtClasses_focused hspelling
  have hbefore : ∃ selection ∈ s.selections, s.classPlace? selection ≠ none := by
    obtain ⟨selection, hselection, hin⟩ := hinside
    obtain ⟨t, ht⟩ := hin.exists_isClassTag h.text_eq h.isUncommented
      (h.isValid selection hselection)
    refine ⟨selection, hselection, ?_⟩
    rw [(h.classPlace?_eq_some_iff hselection _).mpr ⟨t, ht, rfl⟩]
    exact Option.some_ne_none _
  have hselected : s.selections ≠ [] := by
    obtain ⟨selection, hselection, -⟩ := hinside
    exact List.ne_nil_of_mem hselection
  have hselected' : (s.focused spelling).selections ≠ [] := by
    obtain ⟨selection, hselection, -⟩ := hsome hinside
    exact List.ne_nil_of_mem hselection
  obtain ⟨hnodup, hnames⟩ := h.mem_bareNames_iff
  refine ⟨s.bareNames, s.focused spelling, hnodup, hnames, ?_, rfl, ?_⟩
  · rw [execute_of_ne_nil hselected]
    exact h.focusClass_eq hspelling hbefore
  · rw [execute_of_ne_nil hselected']
    exact focusClass_of_isAtClasses hspelling hplaces
      (Selection.isOrdered_normalize _) (hsome hinside)

/-- An element with one by itself in it, `x<p k><br/></p>`. Of the carets one is in front, two go to
the element, from its closing tag and from its opening one, and one goes to the other element. -/
theorem execute_focusClass_focusClass_shared :
    let f : Forest := .text ⟨['x'], by decide⟩ (.node (.element ⟨'p', [], by decide, by decide⟩
      ⟨⟨[' ', 'k'], by decide, by decide⟩, by decide⟩ ⟨[], by decide⟩)
      (.single ⟨'b', ['r'], by decide, by decide⟩ ⟨[], by decide, by decide⟩ .nil) .nil)
    let s : Session := ⟨⟨f.toText, .lf⟩,
      [.caret ⟨0, 12⟩, .caret ⟨0, 2⟩, .caret ⟨0, 8⟩, .caret ⟨0, 0⟩], .default, .html⟩
    let after : Session := ⟨⟨"x<p class=\x22\x22 k><br class=\x22\x22/></p>".toList, .lf⟩,
      [.caret ⟨0, 0⟩, .caret ⟨0, 11⟩, .caret ⟨0, 26⟩], .default, .html⟩
    s.CaretsInForest f ∧ (∃ selection ∈ s.selections, f.IsInside selection.active) ∧
      s.execute .focusClass = .ok (.applied 2 false, after) ∧
      after.execute .focusClass = .ok (.moved, after) := by
  intro f s after
  have hcarets : s.CaretsInForest f := by
    refine ⟨rfl, ⟨trivial, trivial⟩, ⟨by decide, trivial, trivial⟩, ⟨by decide, trivial, trivial⟩,
      by decide, by decide, by decide, by decide, by decide⟩
  have hinside : ∃ selection ∈ s.selections, f.IsInside selection.active :=
    ⟨.caret ⟨0, 2⟩, by decide, .inl ⟨_, List.mem_cons_self, by decide⟩⟩
  have hspelling : s.dialect.emptyClassAttribute = some " class=\x22\x22".toList := rfl
  have hplace : ∃ selection ∈ s.selections, s.classPlace? selection ≠ none := by decide +kernel
  have hnames : s.bareNames = [⟨0, 3⟩, ⟨0, 9⟩] := by decide +kernel
  have hlanded : s.selections.map (s.landed " class=\x22\x22".toList) =
      [.caret ⟨0, 11⟩, .caret ⟨0, 11⟩, .caret ⟨0, 26⟩, .caret ⟨0, 0⟩] := by decide +kernel
  have hfocused : s.focused " class=\x22\x22".toList = after := by
    have hperm : [Selection.caret ⟨0, 11⟩, .caret ⟨0, 11⟩, .caret ⟨0, 26⟩, .caret ⟨0, 0⟩].Perm
        [.caret ⟨0, 0⟩, .caret ⟨0, 11⟩, .caret ⟨0, 11⟩, .caret ⟨0, 26⟩] := by decide
    rw [focused, hlanded, hnames, Selection.normalize_of_perm hperm (by decide)]
    rfl
  have hexecute : s.execute .focusClass = .ok (.applied 2 false, after) := by
    rw [execute_of_ne_nil (List.cons_ne_nil _ _), action, hcarets.focusClass_eq hspelling hplace,
      hnames, hfocused]
    rfl
  obtain ⟨names, after', -, -, hfirst, -, hsecond⟩ :=
    execute_focusClass_focusClass hcarets (.inl ⟨rfl, rfl⟩) hinside
  obtain ⟨-, rfl⟩ := Prod.mk.inj (Except.ok.inj (hexecute.symm.trans hfirst))
  exact ⟨hcarets, hinside, hexecute, hsecond⟩

end Session

end MarkupPairs
