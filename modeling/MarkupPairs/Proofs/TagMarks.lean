import MarkupPairs.Proofs.Partner

/-!
# What a tag counts for

The searches for a partner count the tags of one name: a tag opens an element, closes one, or does
neither. What it counts for depends on the characters between its `<` and the next angle, and the
two searches do not read these alike. A search forward wants the next angle to be the `>` of the
tag, and takes the last character before it that is not blank for a slash wherever that stands. A
search backward counts a closing tag without its `>`, may lend a `>` to a `<` that has none, and
looks for the slash on the line of the `>` only.
-/

namespace MarkupPairs

/-- What a tag counts for. -/
inductive Mark where
  | opens
  | closes
deriving DecidableEq

namespace Mark

/-- The number of elements that are open behind a mark when `n` are open before it. -/
def step : Mark → Nat → Option Nat
  | opens, n => some (n + 1)
  | closes, 0 => none
  | closes, n + 1 => some n

/-- The number of elements that are open before a mark when `n` are open behind it. -/
def stepBack : Mark → Nat → Option Nat
  | opens, 0 => none
  | opens, n + 1 => some n
  | closes, n => some (n + 1)

/-- The number of elements that are open behind some marks when `n` are open before them. There is
none if a mark closes what is not open. -/
def depthAfter? : List Mark → Nat → Option Nat
  | [], n => some n
  | m :: rest, n => (m.step n).bind (depthAfter? rest)

/-- The number of elements that are open before some marks when `n` are open behind them. There is
none if a mark opens what is not closed. -/
def depthBefore? : List Mark → Nat → Option Nat
  | [], n => some n
  | m :: rest, n => (depthBefore? rest n).bind m.stepBack

/-- Whether each element that the marks open is closed by them, and the other way round. -/
def IsNested (ms : List Mark) : Prop := depthAfter? ms 0 = some 0

instance (ms : List Mark) : Decidable (IsNested ms) := inferInstanceAs (Decidable (_ = _))

theorem stepBack_eq_some_iff {m : Mark} {n k : Nat} :
    m.stepBack k = some n ↔ m.step n = some k := by
  cases m with
  | opens => cases k <;> simp [step, stepBack, eq_comm]
  | closes => cases n <;> simp [step, stepBack, eq_comm]

/-- Counting backward undoes counting forward. -/
theorem depthBefore?_eq_some_iff {ms : List Mark} {n k : Nat} :
    depthBefore? ms k = some n ↔ depthAfter? ms n = some k := by
  induction ms generalizing n with
  | nil => simp [depthBefore?, depthAfter?, eq_comm]
  | cons m rest ih =>
      simp only [depthBefore?, depthAfter?, Option.bind_eq_some_iff, ih, stepBack_eq_some_iff]
      exact exists_congr fun _ => and_comm

theorem depthAfter?_append (ms rest : List Mark) (n : Nat) :
    depthAfter? (ms ++ rest) n = (depthAfter? ms n).bind (depthAfter? rest) := by
  induction ms generalizing n with
  | nil => rfl
  | cons m ms ih =>
      simp only [List.cons_append, depthAfter?, Option.bind_assoc]
      congr 1
      funext k
      exact ih k

theorem depthBefore?_append (ms rest : List Mark) (n : Nat) :
    depthBefore? (ms ++ rest) n = (depthBefore? rest n).bind (depthBefore? ms) := by
  induction ms with
  | nil => cases h : depthBefore? rest n <;> simp [depthBefore?, h]
  | cons m ms ih =>
      simp only [List.cons_append, depthBefore?, ih, Option.bind_assoc]

/-- One mark closes what is not open only if nothing is. -/
theorem depthAfter?_toList_eq_none {m : Option Mark} {n : Nat}
    (h : depthAfter? m.toList n = none) : m = some .closes ∧ n = 0 := by
  match m, n with
  | none, _ => cases h
  | some .opens, _ => cases h
  | some .closes, 0 => exact ⟨rfl, rfl⟩
  | some .closes, _ + 1 => cases h

/-- One mark opens what is not closed only if nothing is. -/
theorem depthBefore?_toList_eq_none {m : Option Mark} {n : Nat}
    (h : depthBefore? m.toList n = none) : m = some .opens ∧ n = 0 := by
  match m, n with
  | none, _ => cases h
  | some .closes, _ => cases h
  | some .opens, 0 => exact ⟨rfl, rfl⟩
  | some .opens, _ + 1 => cases h

end Mark

/-! ## Segments -/

/-- The characters behind a `<` up to the next angle, and whether that is a `>`. -/
structure Segment where
  text : Text
  isClosed : Bool
deriving DecidableEq

/-- Whether the last character on the last line of a text that is not blank is a slash. -/
def Text.endsSlashed (t : Text) : Bool :=
  ((t.reverse.takeWhile (· != '\n')).dropWhile Unicode.isWhite).head? == some '/'

namespace Segment

/-- The head of the tag that the segment starts, if it starts one: whether there is a slash before
the name, and the name. -/
def head? (s : Segment) : Option (Bool × Text) :=
  TagHead.read? (s.text ++ [if s.isClosed then '>' else '<'])

/-- What the segment counts for in a search for `wanted`, unless a slash ends it. -/
def mark? (s : Segment) (wanted : Text) (slashed : Bool) : Option Mark :=
  match s.head? with
  | some (closing, name) =>
    if name = wanted then
      if closing then some .closes else if slashed then none else some .opens
    else none
  | none => none

/-- What the segment counts for in a search forward. -/
def forwardMark? (wanted : Text) (s : Segment) : Option Mark :=
  if s.isClosed then s.mark? wanted (s.text.trimEnd.getLast? == some '/') else none

/-- Whether a slash stands before the `>` that a search backward gives to the segment. There is none
if the segment has no `>` and none is left over behind it. -/
def close? (s : Segment) (left : Option Bool) : Option Bool :=
  if s.isClosed then some s.text.endsSlashed else left

/-- What the segment counts for in a search backward. -/
def backwardMark? (wanted : Text) (s : Segment) (left : Option Bool) : Option Mark :=
  s.mark? wanted (s.close? left != some false)

/-- The `>` of some segments that none of their heads takes: whether a slash stands before it. -/
def left? : List Segment → Option Bool
  | [] => none
  | s :: rest => if s.head?.isSome then none else s.close? (left? rest)

/-- What some segments count for in a search forward. -/
def forwardMarks (wanted : Text) (segments : List Segment) : List Mark :=
  segments.filterMap (forwardMark? wanted)

theorem forwardMarks_cons (wanted : Text) (x : Segment) (rest : List Segment) :
    forwardMarks wanted (x :: rest) =
      (x.forwardMark? wanted).toList ++ forwardMarks wanted rest := by
  unfold forwardMarks
  cases h : x.forwardMark? wanted with
  | none => rw [List.filterMap_cons_none h, Option.toList_none, List.nil_append]
  | some m => rw [List.filterMap_cons_some h, Option.toList_some, List.singleton_append]

/-- What some segments count for in a search backward. -/
def backwardMarks (wanted : Text) : List Segment → List Mark
  | [] => []
  | s :: rest => (s.backwardMark? wanted (left? rest)).toList ++ backwardMarks wanted rest

end Segment

/-! ## Reading a segment -/

namespace TagHead

variable {t name tail more : Text} {closing slash : Bool} {c : Char}

theorem takeWhile_append_stop (hc : isNameChar c = false) (t more : Text) :
    (t ++ c :: more).takeWhile isNameChar = t.takeWhile isNameChar := by
  rw [List.takeWhile_append]
  split
  next hall =>
    rw [List.takeWhile_cons, hc, (List.takeWhile_prefix isNameChar).eq_of_length hall]
    simp
  next => rfl

theorem dropWhile_append_stop (hc : isNameChar c = false) (t more : Text) :
    (t ++ c :: more).dropWhile isNameChar = t.dropWhile isNameChar ++ c :: more := by
  by_cases hall : t.dropWhile isNameChar = []
  · simp [List.dropWhile_append, hall, hc]
  · simp [List.dropWhile_append, hall]

theorem isNameChar_angle (hc : c = '<' ∨ c = '>') : isNameChar c = false := by
  rcases hc with rfl | rfl
  · decide
  · decide

/-- What the head of a tag is when an angle follows the text. -/
theorem readName?_append_angle (hc : c = '<' ∨ c = '>') (slash : Bool) (t more : Text) :
    readName? slash (t ++ c :: more) = readName? slash (t ++ [c]) := by
  have hname := isNameChar_angle hc
  rw [readName?, readName?, takeWhile_append_stop hname, takeWhile_append_stop hname,
    dropWhile_append_stop hname, dropWhile_append_stop hname]
  cases t.dropWhile isNameChar with
  | nil => rfl
  | cons x rest => rfl

/-- An angle ends what is read of a head. -/
theorem read?_append_angle (hc : c = '<' ∨ c = '>') (t more : Text) :
    read? (t ++ c :: more) = read? (t ++ [c]) := by
  have hslash : c ≠ '/' := by
    rcases hc with rfl | rfl
    · decide
    · decide
  by_cases hhead : (t ++ [c]).head? = some '/'
  · cases t with
    | nil => exact absurd (Option.some.inj hhead) hslash
    | cons x t =>
        obtain rfl := Option.some.inj hhead
        rw [List.cons_append, List.cons_append, read?_slash, read?_slash]
        exact readName?_append_angle hc true t more
  · have hhead' : (t ++ c :: more).head? ≠ some '/' := by
      cases t with
      | nil => exact hhead
      | cons x t => exact hhead
    rw [read?_of_head?_ne hhead, read?_of_head?_ne hhead']
    exact readName?_append_angle hc false t more

/-- A name that is read up to a `>` is ended there or before. -/
theorem exists_of_readName? (ht : '>' ∉ t)
    (h : readName? slash (t ++ ['>']) = some (closing, name)) :
    closing = slash ∧ ∃ tail : Text, t = name ++ tail ∧ (∀ c ∈ name, isNameChar c) ∧
      (∀ c, tail.head? = some c → endsName c) ∧ (name = [] → tail = []) := by
  have hangle := isNameChar_angle (.inr rfl : '>' = '<' ∨ '>' = '>')
  have hall : ∀ c ∈ t.takeWhile isNameChar, isNameChar c := fun c hc => List.mem_takeWhile_imp hc
  have hsplit := (List.takeWhile_append_dropWhile (p := isNameChar) (l := t)).symm
  rw [readName?, takeWhile_append_stop hangle, dropWhile_append_stop hangle] at h
  cases htail : t.dropWhile isNameChar with
  | nil =>
      rw [htail] at h hsplit
      obtain ⟨rfl, rfl⟩ : slash = closing ∧ t.takeWhile isNameChar = name := by
        simpa [endsName] using h
      refine ⟨rfl, [], hsplit, hall, ?_, fun _ => rfl⟩
      intro c hc
      cases hc
  | cons x tail =>
      rw [htail] at h hsplit
      have hx : x ≠ '>' := by
        rintro rfl
        exact ht (hsplit ▸ by simp)
      obtain ⟨⟨hends, hname⟩, rfl, rfl⟩ :
          (endsName x ∧ t.takeWhile isNameChar ≠ []) ∧ slash = closing ∧
            t.takeWhile isNameChar = name := by
        simpa [hx, and_assoc] using h
      refine ⟨rfl, x :: tail, hsplit, hall, ?_, fun hnil => absurd hnil hname⟩
      intro c hc
      exact Option.some.inj hc ▸ hends

/-- A name that is not read is followed by a character that does not end it. -/
theorem exists_of_readName?_eq_none (h : readName? slash (t ++ ['>']) = none) :
    ∃ (name tail : Text) (c : Char), t = name ++ c :: tail ∧ (∀ x ∈ name, isNameChar x) ∧
      isNameChar c = false ∧ ∀ start, isEndedBy ⟨start, slash, name⟩ c = false := by
  have hangle := isNameChar_angle (.inr rfl : '>' = '<' ∨ '>' = '>')
  have hsplit := (List.takeWhile_append_dropWhile (p := isNameChar) (l := t)).symm
  rw [readName?, takeWhile_append_stop hangle, dropWhile_append_stop hangle] at h
  cases htail : t.dropWhile isNameChar with
  | nil =>
      rw [htail] at h
      simp [endsName] at h
  | cons c tail =>
      rw [htail] at h hsplit
      have hc : isNameChar c = false := by
        have hhead := List.head?_dropWhile_not isNameChar t
        rw [htail] at hhead
        simpa using hhead
      refine ⟨t.takeWhile isNameChar, tail, c, hsplit, ?_, hc, ?_⟩
      · exact fun x hx => List.mem_takeWhile_imp hx
      · intro start
        simpa [isEndedBy] using h

/-- A text whose head is read up to a `>` starts with the slash of a closing tag, the name and
what ends that. -/
theorem exists_of_read? (ht : '>' ∉ t) (h : read? (t ++ ['>']) = some (closing, name)) :
    ∃ tail : Text, t = (if closing then ['/'] else []) ++ (name ++ tail) ∧
      (∀ c ∈ name, isNameChar c) ∧ (∀ c, tail.head? = some c → endsName c) ∧
      (name = [] → tail = []) := by
  by_cases hhead : (t ++ ['>']).head? = some '/'
  · cases t with
    | nil => cases hhead
    | cons x t =>
        obtain rfl := Option.some.inj hhead
        rw [List.cons_append, read?_slash] at h
        obtain ⟨rfl, tail, rfl, hrest⟩ :=
          exists_of_readName? (fun hmem => ht (List.mem_cons_of_mem _ hmem)) h
        exact ⟨tail, rfl, hrest⟩
  · rw [read?_of_head?_ne hhead] at h
    obtain ⟨rfl, tail, rfl, hrest⟩ := exists_of_readName? ht h
    exact ⟨tail, rfl, hrest⟩

end TagHead

/-- A text without angles whose head is read is taken apart that way. -/
theorem exists_readsAs {t name : Text} {closing : Bool} (ht : t.IsPlain)
    (h : TagHead.read? (t ++ ['>']) = some (closing, name)) :
    ∃ tail, ReadsAs t closing name tail := by
  obtain ⟨tail, rfl, hname, hends, hnil⟩ :=
    TagHead.exists_of_read? (fun hmem => (ht _ hmem).2 rfl) h
  have htail := (Text.isPlain_append.mp (Text.isPlain_append.mp ht).2).2
  exact ⟨tail, rfl, hname, hends, htail, hnil⟩

/-! ## What a segment does to the searches -/

section Forward

variable {wanted : Text} {depth : Nat} {ink : Option Char} {p : Position} {rest : List Cell}
  {t name tail : Text} {closing : Bool}

theorem seekClosing_close_outside :
    seekClosing wanted depth .outside ink (⟨p, '>'⟩ :: rest) =
      seekClosing wanted depth .outside (some '>') rest := by
  rw [seekClosing.eq_def]
  rfl

/-- A head that is not completed does nothing. -/
theorem seekClosing_incomplete {start : Position} {c : Char}
    (hname : ∀ x ∈ name, TagHead.isNameChar x)
    (htail : Text.IsPlain (c :: tail)) (hc : TagHead.isNameChar c = false)
    (hends : TagHead.isEndedBy ⟨start, closing, name⟩ c = false)
    (hslash : c = '/' → name = [] → closing = true) :
    seekClosing wanted depth (.reading ⟨start, closing, []⟩) (some '<')
        (Cell.layOut p (name ++ c :: tail ++ ['>']) ++ rest) =
      seekClosing wanted depth .outside (some '>') rest := by
  obtain ⟨hopen, hclose⟩ := htail c List.mem_cons_self
  have hextend : (TagPhase.reading ⟨start, closing, name⟩).extend? c = none := by
    rw [TagPhase.extend?, TagHead.extend?, if_neg, if_neg]
    · simp [hc]
    · rintro ⟨rfl, hnil, hopening⟩
      simp [hslash rfl hnil] at hopening
  have hsettle : (TagPhase.reading ⟨start, closing, name⟩).settle c = .outside := by
    simp [TagPhase.settle, hends]
  have hplain : Text.IsPlain tail := fun x hx => htail x (List.mem_cons_of_mem _ hx)
  rw [List.append_assoc, Cell.layOut_append, List.append_assoc, seekClosing_name hname,
    List.nil_append, List.cons_append, Cell.layOut_cons, List.cons_append,
    seekClosing_other hextend hopen hclose, hsettle, Cell.layOut_append, List.append_assoc,
    seekClosing_plain TagPhase.isSettled_outside hplain]
  exact seekClosing_close_outside

/-- Angles around a text whose head is not read are no tag for the search forward. -/
theorem seekClosing_unread (ht : t.IsPlain) (h : TagHead.read? (t ++ ['>']) = none) :
    seekClosing wanted depth .outside ink (Cell.layOut p t.angled ++ rest) =
      seekClosing wanted depth .outside (some '>') rest := by
  rw [Text.angled, List.cons_append, Cell.layOut_cons, List.cons_append, seekClosing_open]
  by_cases hhead : (t ++ ['>']).head? = some '/'
  · cases t with
    | nil => cases hhead
    | cons x t =>
        obtain rfl := Option.some.inj hhead
        rw [List.cons_append, TagHead.read?_slash] at h
        obtain ⟨name, tail, c, rfl, hname, hc, hends⟩ := TagHead.exists_of_readName?_eq_none h
        have hplain : Text.IsPlain (c :: tail) := fun x hx =>
          ht x (List.mem_cons_of_mem _ (List.mem_append_right _ hx))
        have hextend : (TagPhase.reading ⟨p, false, []⟩).extend? '/' =
          some ⟨p, true, []⟩ := rfl
        rw [List.cons_append, Cell.layOut_cons, List.cons_append, seekClosing_read hextend]
        exact seekClosing_incomplete hname hplain hc (hends p) fun _ _ => rfl
  · rw [TagHead.read?_of_head?_ne hhead] at h
    obtain ⟨name, tail, c, rfl, hname, hc, hends⟩ := TagHead.exists_of_readName?_eq_none h
    have hplain : Text.IsPlain (c :: tail) := fun x hx => ht x (List.mem_append_right _ hx)
    refine seekClosing_incomplete hname hplain hc (hends p) ?_
    rintro rfl rfl
    exact absurd rfl hhead

/-- A segment with its `>` changes the depth of the search forward by what it counts for. The
search stops at a closing tag when no element is open. -/
theorem seekClosing_angled (ht : t.IsPlain) :
    seekClosing wanted depth .outside ink (Cell.layOut p t.angled ++ rest) =
      match Mark.depthAfter? ((Segment.mk t true).forwardMark? wanted).toList depth with
      | some n => seekClosing wanted n .outside (some '>') rest
      | none => some ⟨wanted, .closing, Range.spanning p t.angled⟩ := by
  cases hread : TagHead.read? (t ++ ['>']) with
  | none =>
      rw [seekClosing_unread ht hread]
      simp [Segment.forwardMark?, Segment.mark?, Segment.head?, hread, Mark.depthAfter?]
  | some head =>
      obtain ⟨closing, name⟩ := head
      obtain ⟨tail, hreads⟩ := exists_readsAs ht hread
      rw [hreads.seekClosing_angled]
      simp only [Segment.forwardMark?, Segment.mark?, Segment.head?, hread, if_true]
      by_cases hname : name = wanted
      · cases closing with
        | true => cases depth <;> simp [hname, Mark.depthAfter?, Mark.step]
        | false =>
            by_cases hslash : tail.trimEnd.getLast? = some '/'
            · have hslash' := hreads.slashed_iff.mpr hslash
              simp [hname, hslash, hslash', Mark.depthAfter?]
            · have hslash' := hreads.slashed_iff.not.mpr hslash
              simp [hname, hslash, hslash', Mark.depthAfter?, Mark.step]
      · simp [hname, Mark.depthAfter?]

/-- When a segment with its `>` counts in a search forward: its name is the wanted one and stands
right behind its `<` and slash, and an opening tag has no slash at its end. -/
theorem forwardMark?_eq_some_iff {m : Mark} (ht : t.IsPlain) :
    (Segment.mk t true).forwardMark? wanted = some m ↔
      ∃ tail, ReadsAs t (decide (m = .closes)) wanted tail ∧
        (m = .opens → t.trimEnd.getLast? ≠ some '/') := by
  constructor
  · intro h
    cases hread : TagHead.read? (t ++ ['>']) with
    | none => simp [Segment.forwardMark?, Segment.mark?, Segment.head?, hread] at h
    | some head =>
        obtain ⟨closing, name⟩ := head
        obtain ⟨tail, hreads⟩ := exists_readsAs ht hread
        obtain ⟨rfl, hmark⟩ : name = wanted ∧
            (if closing then some .closes
              else if t.trimEnd.getLast? = some '/' then none else some .opens) = some m := by
          simpa [Segment.forwardMark?, Segment.mark?, Segment.head?, hread] using h
        cases closing with
        | true =>
            obtain rfl := Option.some.inj hmark
            exact ⟨tail, hreads, fun hopens => by cases hopens⟩
        | false =>
            by_cases hslash : t.trimEnd.getLast? = some '/'
            · simp [hslash] at hmark
            · obtain rfl : .opens = m := by simpa [hslash] using hmark
              exact ⟨tail, hreads, fun _ => hslash⟩
  · rintro ⟨tail, hreads, hslash⟩
    have hread : TagHead.read? (t ++ ['>']) = some (decide (m = .closes), wanted) := hreads.read? []
    cases m with
    | opens => simp [Segment.forwardMark?, Segment.mark?, Segment.head?, hread, hslash rfl]
    | closes => simp [Segment.forwardMark?, Segment.mark?, Segment.head?, hread]

end Forward

section Backward

variable {wanted : Text} {depth : Nat} {close : Option (Position × Bool)} {behind : Text}
  {p : Position} {before : List Cell} {t : Text} {s : Segment}

/-- What a `<` does to the search backward, by the `>` that is left over there. -/
theorem seekOpening_segment (left : Option Bool) (hread : TagHead.read? behind = s.head?)
    (hclose : close.map Prod.snd = s.close? left) :
    seekOpening wanted depth close behind (⟨p, '<'⟩ :: before) =
      match Mark.depthBefore? (s.backwardMark? wanted left).toList depth with
      | some n =>
        seekOpening wanted n (if s.head?.isSome then none else close) ('<' :: behind) before
      | none => close.map fun x => ⟨wanted, .opening, Range.between p (x.1.right 1)⟩ := by
  have hangle : '<' ≠ '>' := by decide
  rw [seekOpening.eq_def, Segment.backwardMark?, Segment.mark?, ← hclose]
  simp only [if_neg hangle, if_pos, hread]
  cases s.head? with
  | none => rfl
  | some head =>
      obtain ⟨closing, name⟩ := head
      by_cases hname : name = wanted
      · cases closing with
        | true => simp [hname, Mark.depthBefore?, Mark.stepBack]
        | false =>
            rcases close with _ | ⟨stop, _ | _⟩
            · simp [hname, Mark.depthBefore?]
            · cases depth <;> simp [hname, Mark.depthBefore?, Mark.stepBack]
            · simp [hname, Mark.depthBefore?]
      · simp [hname, Mark.depthBefore?]

theorem Text.endsSlashed_append (s t : Text) : (s ++ '<' :: t).endsSlashed = t.endsSlashed := by
  have hreverse (l rest : Text) :
      ((((l ++ '<' :: rest).takeWhile (· != '\n')).dropWhile Unicode.isWhite).head? == some '/') =
        (((l.takeWhile (· != '\n')).dropWhile Unicode.isWhite).head? == some '/') := by
    induction l with
    | nil => rfl
    | cons c l ih =>
        rw [List.cons_append, List.takeWhile_cons, List.takeWhile_cons]
        split
        next =>
          rw [List.dropWhile_cons, List.dropWhile_cons]
          split
          next => exact ih
          next => rfl
        next => rfl
  rw [endsSlashed, List.reverse_append, List.reverse_cons, List.append_assoc,
    List.singleton_append]
  exact hreverse _ _

theorem followsSlash_eq (cells : List Cell) :
    followsSlash cells = Text.endsSlashed (Cell.text cells).reverse := by
  rw [followsSlash, Text.endsSlashed, List.reverse_reverse, Cell.text, List.takeWhile_map,
    List.dropWhile_map, List.head?_map]
  rfl

/-- A segment with its `>` changes the depth of the search backward by what it counts for. The
search stops at an opening tag when no element is closed behind it. -/
theorem seekOpening_angled (ht : t.IsPlain) (left : Option Bool) :
    seekOpening wanted depth close behind ((Cell.layOut p t.angled).reverse ++ before) =
      match Mark.depthBefore? ((Segment.mk t true).backwardMark? wanted left).toList depth with
      | some n => seekOpening wanted n (if (Segment.mk t true).head?.isSome then none
          else some ((p.after '<').afterText t, t.endsSlashed)) (t.angled ++ behind) before
      | none => some ⟨wanted, .opening, Range.spanning p t.angled⟩ := by
  have hslash : followsSlash ((Cell.layOut (p.after '<') t).reverse ++ (⟨p, '<'⟩ :: before)) =
      t.endsSlashed := by
    rw [followsSlash_eq, Cell.text_append, Cell.text, List.map_reverse, ← Cell.text,
      Cell.text_layOut, List.reverse_append, List.reverse_reverse, Cell.text, List.map_cons,
      List.reverse_cons, List.append_assoc, List.singleton_append, Text.endsSlashed_append]
  have hread : TagHead.read? (t ++ '>' :: behind) = (Segment.mk t true).head? :=
    TagHead.read?_append_angle (.inr rfl) t behind
  have hrange : Range.between p (((p.after '<').afterText t).right 1) = Range.spanning p t.angled :=
    Range.between_right (t := '<' :: t) (by decide)
  rw [Cell.reverse_layOut_angled, List.cons_append, List.append_assoc, List.singleton_append,
    seekOpening_close, hslash, seekOpening_plain ht,
    seekOpening_segment left hread rfl, Text.angled_append, Option.map_some, hrange]

/-- A segment that ends at the next `<` has only a `>` that is left over there. -/
theorem seekOpening_unclosed {more : Text} {left : Option Bool} (ht : t.IsPlain)
    (hclose : close.map Prod.snd = left) :
    seekOpening wanted depth close ('<' :: more)
        ((Cell.layOut p ('<' :: t)).reverse ++ before) =
      match Mark.depthBefore? ((Segment.mk t false).backwardMark? wanted left).toList depth with
      | some n => seekOpening wanted n (if (Segment.mk t false).head?.isSome then none else close)
          ('<' :: (t ++ '<' :: more)) before
      | none => close.map fun x => ⟨wanted, .opening, Range.between p (x.1.right 1)⟩ := by
  have hread : TagHead.read? (t ++ '<' :: more) = (Segment.mk t false).head? :=
    TagHead.read?_append_angle (.inl rfl) t more
  rw [Cell.layOut_cons, List.reverse_cons, List.append_assoc, List.singleton_append,
    seekOpening_plain ht, seekOpening_segment left hread hclose]

end Backward

/-! ## Where the searches count alike -/

/-- A slash on the last line is the last character that is not blank. -/
theorem Text.getLast?_of_endsSlashed {t : Text} (h : t.endsSlashed) :
    t.trimEnd.getLast? = some '/' := by
  have hslash : followsSlash (Cell.layOut Position.origin t).reverse := by
    rw [followsSlash_eq, Cell.text, List.map_reverse, ← Cell.text, Cell.text_layOut,
      List.reverse_reverse]
    exact h
  have hhead := followsSlash_imp hslash
  rwa [Cell.text, List.map_reverse, ← Cell.text, Cell.text_layOut, ← List.getLast?_reverse] at hhead

namespace Segment

variable {s : Segment} {segments : List Segment}

/-- Whether a segment has its `>` and, on the line of that, the slash that is the last character
before it which is not blank, if there is such a slash. -/
def EndsAlike (s : Segment) : Prop :=
  s.isClosed ∧ (s.text.trimEnd.getLast? = some '/' → s.text.endsSlashed)

theorem backwardMark?_of_endsAlike (h : s.EndsAlike) (wanted : Text) (left : Option Bool) :
    s.backwardMark? wanted left = s.forwardMark? wanted := by
  obtain ⟨hclosed, hends⟩ := h
  have hslash : s.text.endsSlashed = (s.text.trimEnd.getLast? == some '/') := by
    rw [Bool.eq_iff_iff, beq_iff_eq]
    exact ⟨Text.getLast?_of_endsSlashed, hends⟩
  rw [backwardMark?, forwardMark?, close?, if_pos hclosed, if_pos hclosed, hslash]
  cases s.text.trimEnd.getLast? == some '/' with
  | true => rfl
  | false => rfl

theorem backwardMarks_of_endsAlike (h : ∀ s ∈ segments, s.EndsAlike) (wanted : Text) :
    backwardMarks wanted segments = forwardMarks wanted segments := by
  induction segments with
  | nil => rfl
  | cons s rest ih =>
      obtain ⟨hs, hrest⟩ := List.forall_mem_cons.mp h
      rw [backwardMarks, forwardMarks_cons, backwardMark?_of_endsAlike hs, ih hrest]

end Segment

end MarkupPairs
