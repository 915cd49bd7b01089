import MarkupPairs.Proofs.ClassListSearch
import MarkupPairs.Proofs.Forest
import MarkupPairs.Proofs.NamePlace
import MarkupPairs.Proofs.TagReading

/-!
# The class list of a tag with quoted attributes

In a tag whose attributes have their values in double quotes, the class list ends at the closing
quote of the class attribute. The search for it reads lines, not attributes, so it is led astray in
two ways: by a line break in the value of the class attribute, which it does not look beyond, and by
what reads as a class attribute inside the value of another one. In all other tags it is right.
-/

namespace MarkupPairs

open ClassList

/-- An attribute with its value in double quotes, and the blanks in front of it. -/
structure QuotedAttribute where
  blank : Blank
  key : Text
  value : Text
  blank_ne_nil : blank.text ≠ []
  key_ne_nil : key ≠ []
  isKey : IsKey key
  isPlain : value.IsPlain
  not_mem : '\x22' ∉ value

namespace QuotedAttribute

variable {a : QuotedAttribute} {as : List QuotedAttribute}

/-- From the key to the last character of the value. -/
def spelled (a : QuotedAttribute) : Text := a.key ++ '=' :: '\x22' :: a.value

def text (a : QuotedAttribute) : Text := a.blank.text ++ (a.spelled ++ ['\x22'])

def IsClass (a : QuotedAttribute) : Prop := IsClassKey a.key

instance (a : QuotedAttribute) : Decidable a.IsClass := inferInstanceAs (Decidable (IsClassKey _))

/-- Whether nothing in the value reads as a class attribute behind a blank or a line feed. -/
def IsQuiet (a : QuotedAttribute) : Prop := valueAfterBlank? a.value = none

instance (a : QuotedAttribute) : Decidable a.IsQuiet := inferInstanceAs (Decidable (_ = none))

theorem exists_spelled (a : QuotedAttribute) :
    ∃ c rest, a.spelled = c :: rest ∧ Unicode.isWhite c = false ∧ c ≠ '=' ∧ c ≠ ')' ∧
      c ≠ '\x7d' := by
  obtain ⟨c, rest, hkey⟩ := List.exists_cons_of_ne_nil a.key_ne_nil
  have hc : c ∈ a.key := hkey ▸ List.mem_cons_self
  refine ⟨c, rest ++ '=' :: '\x22' :: a.value, by rw [spelled, hkey]; rfl, ?_, ?_, ?_, ?_⟩
  · exact a.isKey.not_isWhite hc
  · exact a.isKey.ne hc (by decide) (by decide)
  · exact a.isKey.ne hc (by decide) (by decide)
  · exact a.isKey.ne hc (by decide) (by decide)

theorem exists_getLast?_blank (a : QuotedAttribute) :
    ∃ x ∈ a.blank.text.getLast?, Unicode.isWhite x :=
  ⟨_, List.getLast?_eq_some_getLast a.blank_ne_nil, a.blank.isWhite (List.getLast_mem _)⟩

/-- From the key on, a class attribute is read up to its closing quote and beyond. -/
theorem firstValue?_of_isClass (h : a.IsClass) (m : Text) :
    firstValue? (a.spelled ++ m) = some ('\x22' :: (a.value ++ m)) := by
  have hkey : value? (a.spelled ++ m) = some ('\x22' :: (a.value ++ m)) := by
    rw [spelled, List.append_assoc, List.cons_append, value?_key a.isKey]
    exact if_pos h
  rw [firstValue?, hkey]
  rfl

/-- From the key of another attribute on, nothing is found up to its closing quote but in the
value. -/
theorem firstValue?_of_not_isClass (h : ¬a.IsClass) (m : Text) :
    firstValue? (a.spelled ++ '\x22' :: m) =
      ((valueAfterBlank? a.value).map (· ++ '\x22' :: m)).or (valueAfterBlank? m) := by
  have hkey : value? (a.spelled ++ '\x22' :: m) = none := by
    rw [spelled, List.append_assoc, List.cons_append, value?_key a.isKey]
    exact if_neg h
  have hink : ∀ c ∈ a.key ++ ['=', '\x22'], Unicode.isWhite c = false :=
    List.forall_mem_append.mpr ⟨fun _ hc => a.isKey.not_isWhite hc,
      List.forall_mem_cons.mpr ⟨rfl, List.forall_mem_singleton.mpr rfl⟩⟩
  have hsplit : a.spelled ++ '\x22' :: m =
      (a.key ++ ['=', '\x22']) ++ (a.value ++ '\x22' :: m) := by simp [spelled]
  rw [firstValue?, hkey, hsplit, valueAfterBlank?_append hink,
    valueAfterBlank?_append_cons (by decide) (by decide) (by decide)]
  rfl

/-- In attributes that are no class attributes nothing is found if nothing is found in their
values. -/
theorem valueAfterBlank?_flatMap (hclass : ∀ a ∈ as, ¬a.IsClass) (hquiet : ∀ a ∈ as, a.IsQuiet)
    (m : Text) : valueAfterBlank? (as.flatMap text ++ m) = valueAfterBlank? m := by
  induction as with
  | nil => rfl
  | cons a as ih =>
      obtain ⟨ha, has⟩ := List.forall_mem_cons.mp hclass
      obtain ⟨hvalue, hvalues⟩ := List.forall_mem_cons.mp hquiet
      obtain ⟨c, rest, hspelled, hwhite, hequals, -⟩ := a.exists_spelled
      have hsplit : (a :: as).flatMap text ++ m =
          a.blank.text ++ (a.spelled ++ '\x22' :: (as.flatMap text ++ m)) := by simp [text]
      rw [hsplit, hspelled, List.cons_append, valueAfterBlank?_append_cons_of_blank hwhite hequals
        a.exists_getLast?_blank, valueAfterBlank?_blank fun _ hc => a.blank.isWhite hc,
        ← List.cons_append, ← hspelled, firstValue?_of_not_isClass ha, hvalue, ih has hvalues]
      rfl

/-- In a part of a line the class list ends at the closing quote of a class attribute if and only if
nothing is found in front of the attribute. -/
theorem endInLine?_eq_length_iff (h : a.IsClass) {s w : Text}
    (hs : ∀ x ∈ s.getLast?, Unicode.isWhite x)
    (hw : ∀ c ∈ (Text.trimStart w).head?, c ≠ ')' ∧ c ≠ '\x7d') :
    endInLine? (s ++ a.spelled ++ '\x22' :: w) = some (s ++ a.spelled).length ↔
      firstValue? s = none := by
  obtain ⟨c, rest, hspelled, hwhite, hequals, -⟩ := a.exists_spelled
  have hfirst : firstValue? (s ++ a.spelled ++ '\x22' :: w) =
      ((firstValue? s).map (· ++ (a.spelled ++ '\x22' :: w))).or
        (some ('\x22' :: (a.value ++ '\x22' :: w))) := by
    rw [← firstValue?_of_isClass h, List.append_assoc, hspelled, List.cons_append,
      firstValue?_append_cons hwhite hequals hs]
  constructor
  · intro hend
    obtain ⟨before, value, -, hvalue, hfound⟩ := exists_of_endInLine? hend hw
    rw [Option.eq_none_iff_forall_ne_some]
    intro v hv
    -- what is found would start in front of the attribute, and have its opening quote inside
    rw [hfirst, hv, Option.map_some, Option.some_or, ← List.append_assoc, Option.some_inj,
      ← List.cons_append, List.append_cancel_right_eq, spelled] at hfound
    obtain ⟨x, front, hfront⟩ : ∃ x front, v ++ (a.key ++ ['=']) = x :: front :=
      List.exists_cons_of_ne_nil (by simp)
    have hsplit : v ++ (a.key ++ '=' :: '\x22' :: a.value) =
        x :: (front ++ '\x22' :: a.value) := by
      rw [← List.cons_append, ← hfront]
      simp
    rw [hsplit] at hfound
    exact hvalue ((List.cons.inj hfound).2 ▸ by simp)
  · intro hnone
    rw [endInLine?, hfirst, hnone, Option.map_none, Option.none_or, Option.bind_some,
      endInValue?_quoted a.not_mem, Option.map_some, Option.some_inj]
    simp only [spelled, List.length_append, List.length_cons]
    omega

/-- In a text the class list ends at the closing quote of a class attribute if and only if the value
has no line break and nothing is found in front of the attribute. -/
theorem stopIn?_eq_length_iff (h : a.IsClass) {s w : Text}
    (hs : ∀ x ∈ s.getLast?, Unicode.isWhite x)
    (hw : ∀ c ∈ (Text.trimStart w).head?, c ≠ ')' ∧ c ≠ '\x7d') :
    stopIn? (s ++ a.spelled ++ '\x22' :: w) = some (s ++ a.spelled).length ↔
      '\n' ∉ a.value ∧ (∀ l ∈ s.lines.dropLast, endInLine? l = none) ∧
        firstValue? s.lastLine = none := by
  have hw' : ∀ c ∈ (Text.trimStart w.firstLine).head?, c ≠ ')' ∧ c ≠ '\x7d' := by
    intro c hc
    obtain ⟨rest, hrest⟩ := w.firstLine_prefix
    apply hw
    rw [← hrest, Text.trimStart_append (by rintro hnil; simp [hnil] at hc), List.head?_append, hc]
    rfl
  rw [ClassList.stopIn?_eq_length_iff]
  by_cases hfeed : '\n' ∈ a.value
  · -- no quote opens on the line of the closing quote
    refine iff_of_false ?_ fun hflat => hflat.1 hfeed
    rintro ⟨-, hend⟩
    obtain ⟨front, behind, hvalue⟩ : ∃ front behind : Text, a.value = front ++ '\n' :: behind :=
      List.append_of_mem hfeed
    have hsplit : s ++ a.spelled =
        (s ++ (a.key ++ '=' :: '\x22' :: front)) ++ '\n' :: behind := by
      simp [spelled, hvalue]
    rw [hsplit, Text.lastLine_append_lineFeed] at hend
    obtain ⟨before, value, hbehind, -⟩ := exists_of_endInLine? hend hw'
    have hquote : '\x22' ∈ behind := behind.lastLine_suffix.subset (hbehind ▸ by simp)
    exact a.not_mem (hvalue ▸ by simp [hquote])
  · have hkey : '\n' ∉ a.key := fun hmem => absurd (a.isKey.not_isWhite hmem) (by decide)
    have hflat : '\n' ∉ a.spelled := by simp [spelled, hkey, hfeed]
    have hlast : ∀ x ∈ s.lastLine.getLast?, Unicode.isWhite x := by
      intro x hx
      obtain ⟨rest, hrest⟩ := s.lastLine_suffix
      apply hs
      rw [← hrest, List.getLast?_append, hx]
      rfl
    rw [Text.lastLine_append_of_flat hflat, Text.lines_append_of_flat hflat, List.dropLast_concat,
      endInLine?_eq_length_iff h hlast hw']
    simp [hfeed]

end QuotedAttribute

/-- A tag that opens an element, or is one by itself, with quoted attributes. -/
structure QuotedTag where
  name : TagName
  attributes : List QuotedAttribute
  blank : Blank
  isSelfClosing : Bool

namespace QuotedTag

variable {x : QuotedTag} {a : QuotedAttribute} {d : Document} {p : Position} {pre post : Text}

/-- What follows the attributes. -/
def ending (x : QuotedTag) : Text :=
  x.blank.text ++ (if x.isSelfClosing then ['/', '>'] else ['>'])

def text (x : QuotedTag) : Text :=
  '<' :: x.name.text ++ (x.attributes.flatMap QuotedAttribute.text ++ x.ending)

/-- The tag, for a place where it starts. -/
def tag (x : QuotedTag) (p : Position) : Tag :=
  ⟨x.name.text, if x.isSelfClosing then .selfClosing else .opening, Range.spanning p x.text⟩

/-- The first class attribute. -/
def classAttribute? (x : QuotedTag) : Option QuotedAttribute := x.attributes.find? (·.IsClass)

/-- What stands in front of the first class attribute and its blanks, or of the ending. -/
def front (x : QuotedTag) : Text :=
  '<' :: x.name.text ++ (x.attributes.takeWhile (¬·.IsClass)).flatMap QuotedAttribute.text

/-- Where the caret belongs to edit the classes of the tag: at the closing quote of the class
attribute, or right behind the name. -/
def place (x : QuotedTag) (p : Position) : ClassPlace :=
  match x.classAttribute? with
  | some a => ⟨p.afterText (x.front ++ a.blank.text ++ a.spelled), .endOfClassList⟩
  | none => ⟨p.afterText ('<' :: x.name.text), .endOfName⟩

/-- Whether the tag reads right line by line: the value of the class attribute has no line break,
and nothing else reads as a class attribute with a class list, neither on the lines in front of that
attribute nor in front of it on its own line. -/
def IsReadByLine (x : QuotedTag) : Prop :=
  match x.classAttribute? with
  | some a =>
    '\n' ∉ a.value ∧ (∀ l ∈ Text.lines (x.front ++ a.blank.text) |>.dropLast, endInLine? l = none) ∧
      firstValue? (Text.lastLine (x.front ++ a.blank.text)) = none
  | none => ∀ l ∈ x.text.lines, endInLine? l = none

theorem slash_not_suffix (n : TagName) (as : List QuotedAttribute) (b : Blank) :
    ¬['/'] <:+ n.text ++ (as.flatMap QuotedAttribute.text ++ b.text) := by
  rintro ⟨front, hfront⟩
  have hlast := congrArg List.getLast? hfront
  rw [List.getLast?_concat, List.getLast?_append, List.getLast?_append, eq_comm,
    Option.or_eq_some_iff, Option.or_eq_some_iff] at hlast
  rcases hlast with (hblank | ⟨-, hattribute⟩) | ⟨-, hname⟩
  · exact absurd (b.isWhite (List.mem_of_getLast? hblank)) (by decide)
  · -- every attribute ends with its quote
    obtain ⟨a, before, rfl⟩ : ∃ a before, as = before ++ [a] := by
      cases as using List.reverseRecOn with
      | nil => cases hattribute
      | append_singleton before a => exact ⟨a, before, rfl⟩
    simp [QuotedAttribute.text, List.getLast?_append] at hattribute
  · exact absurd (n.isAlphanum (List.mem_of_getLast? hname)) (by decide)

/-- What follows the name, up to the `>`. -/
def tail (x : QuotedTag) : Text :=
  x.attributes.flatMap QuotedAttribute.text ++
    (x.blank.text ++ if x.isSelfClosing then ['/'] else [])

theorem text_eq (x : QuotedTag) : x.text = Text.angled (x.name.text ++ x.tail) := by
  rw [text, ending, tail]
  split
  next => simp [Text.angled]
  next => simp [Text.angled]

/-- A blank or a slash follows the name. -/
theorem endsName_tail (x : QuotedTag) : ∀ c, x.tail.head? = some c → TagHead.endsName c := by
  have hwhite (b : Blank) {c : Char} (hc : c ∈ b.text) : TagHead.endsName c := by
    simp [TagHead.endsName, b.isWhite hc]
  intro c hc
  rw [tail] at hc
  cases hattributes : x.attributes with
  | nil =>
      rw [hattributes, List.flatMap_nil, List.nil_append, List.head?_append,
        Option.or_eq_some_iff] at hc
      rcases hc with hblank | ⟨-, hslash⟩
      · exact hwhite x.blank (List.mem_of_head? hblank)
      · split at hslash
        next =>
          obtain rfl := Option.some.inj hslash
          rfl
        next => cases hslash
  | cons a as =>
      obtain ⟨y, blank, hblank⟩ := List.exists_cons_of_ne_nil a.blank_ne_nil
      rw [hattributes, List.flatMap_cons, QuotedAttribute.text, hblank] at hc
      obtain rfl := Option.some.inj hc
      exact hwhite a.blank (hblank ▸ List.mem_cons_self)

/-- The text reads as the tag. -/
theorem parse?_text (x : QuotedTag) (p : Position) :
    Tag.parse? x.text (x.tag p).range = some (x.tag p) := by
  have hspelled : x.name.text ++ x.tail =
      (if false then ['/'] else []) ++ (x.name.text ++ x.tail) := rfl
  have hsingle : Tag.endsSelfClosed (Text.angled (x.name.text ++ x.tail)) ↔ x.isSelfClosing := by
    rw [Tag.endsSelfClosed_angled, tail]
    cases x.isSelfClosing with
    | true =>
        rw [if_pos rfl, ← List.append_assoc, ← List.append_assoc]
        exact iff_of_true (List.suffix_append _ _) rfl
    | false =>
        refine iff_of_false ?_ Bool.false_ne_true
        rw [if_neg Bool.false_ne_true, List.append_nil]
        exact slash_not_suffix x.name x.attributes x.blank
  rw [text_eq, Tag.parse?_head hspelled x.name.isName x.endsName_tail
    fun hnil => absurd hnil (List.cons_ne_nil _ _)]
  simp only [hsingle]
  rfl

/-- Behind an attribute comes another key, a slash or the `>`. -/
theorem head?_trimStart_behind (x : QuotedTag) (as : List QuotedAttribute) :
    ∀ c ∈ (Text.trimStart (as.flatMap QuotedAttribute.text ++ x.ending)).head?,
      c ≠ ')' ∧ c ≠ '\x7d' := by
  obtain ⟨c, hc, hparen, hbrace⟩ :
      ∃ c, (Text.trimStart (as.flatMap QuotedAttribute.text ++ x.ending)).head? = some c ∧
        c ≠ ')' ∧ c ≠ '\x7d' := by
    cases as with
    | nil =>
        have hblank : ∀ c ∈ x.blank.text, Unicode.isWhite c := fun _ hc => x.blank.isWhite hc
        rw [List.flatMap_nil, List.nil_append, ending]
        split
        next => exact ⟨'/', head?_trimStart_blank hblank (by decide) _, by decide, by decide⟩
        next => exact ⟨'>', head?_trimStart_blank hblank (by decide) _, by decide, by decide⟩
    | cons a as =>
        have hblank : ∀ c ∈ a.blank.text, Unicode.isWhite c := fun _ hc => a.blank.isWhite hc
        obtain ⟨c, rest, hspelled, hwhite, -, hparen, hbrace⟩ := a.exists_spelled
        refine ⟨c, ?_, hparen, hbrace⟩
        rw [List.flatMap_cons, QuotedAttribute.text, hspelled, List.append_assoc, List.cons_append,
          List.append_assoc, List.cons_append]
        exact head?_trimStart_blank hblank hwhite _
  intro y hy
  obtain rfl := Option.some.inj (hc.symm.trans hy)
  exact ⟨hparen, hbrace⟩

theorem not_isClass_of_mem_takeWhile {b : QuotedAttribute}
    (h : b ∈ x.attributes.takeWhile (¬·.IsClass)) : ¬b.IsClass := by
  simpa using List.mem_takeWhile_imp h

/-- A class attribute stands between what is in front of it and its closing quote. -/
theorem exists_of_classAttribute? (h : x.classAttribute? = some a) :
    a.IsClass ∧ a ∈ x.attributes ∧
      ∃ w, x.text = x.front ++ a.blank.text ++ a.spelled ++ '\x22' :: w ∧
        ∀ c ∈ (Text.trimStart w).head?, c ≠ ')' ∧ c ≠ '\x7d' := by
  obtain ⟨hclass, before, after, hsplit, hbefore⟩ := List.find?_eq_some_iff_append.mp h
  have hclass : a.IsClass := of_decide_eq_true hclass
  have hfront : x.attributes.takeWhile (¬·.IsClass) = before := by
    rw [hsplit, List.takeWhile_append_of_pos, List.takeWhile_cons_of_neg, List.append_nil]
    · simpa using hclass
    · simpa using hbefore
  refine ⟨hclass, by simp [hsplit], _, ?_, x.head?_trimStart_behind after⟩
  rw [text, front, hfront, hsplit]
  simp [QuotedAttribute.text]

theorem not_isWhite_name (n : TagName) : ∀ c ∈ '<' :: n.text, Unicode.isWhite c = false :=
  List.forall_mem_cons.mpr
    ⟨rfl, fun _ hc => Unicode.not_isWhite_of_isAlphanum (n.isAlphanum hc)⟩

/-- Nothing is found behind a name in attributes that are no class attributes and have values in
which nothing is found. -/
theorem firstValue?_name (n : TagName) {as : List QuotedAttribute} (hclass : ∀ a ∈ as, ¬a.IsClass)
    (hquiet : ∀ a ∈ as, a.IsQuiet) {m : Text} (hm : valueAfterBlank? m = none) :
    firstValue? ('<' :: n.text ++ (as.flatMap QuotedAttribute.text ++ m)) = none := by
  rw [firstValue?, valueAfterBlank?_append (not_isWhite_name n),
    QuotedAttribute.valueAfterBlank?_flatMap hclass hquiet, hm]
  rfl

theorem valueAfterBlank?_ending (x : QuotedTag) : valueAfterBlank? x.ending = none := by
  have hblank := valueAfterBlank?_blank fun _ hc => x.blank.isWhite hc
  rw [ending]
  split
  next =>
    rw [valueAfterBlank?_append_cons (by decide) (by decide) (by decide), hblank]
    rfl
  next =>
    rw [valueAfterBlank?_append_cons (by decide) (by decide) (by decide), hblank]
    rfl

theorem isReadByLine (h : ∀ a ∈ x.attributes, a.IsQuiet ∧ (a.IsClass → '\n' ∉ a.value)) :
    x.IsReadByLine := by
  have hquiet : ∀ a ∈ x.attributes, a.IsQuiet := fun a ha => (h a ha).1
  rw [IsReadByLine]
  split
  next a ha =>
    obtain ⟨hclass, hmem, -⟩ := exists_of_classAttribute? ha
    have hfront : firstValue? (x.front ++ a.blank.text) = none := by
      rw [front, List.append_assoc]
      exact firstValue?_name x.name (fun _ hb => not_isClass_of_mem_takeWhile hb)
        (fun b hb => hquiet b ((List.takeWhile_sublist _).subset hb))
        (valueAfterBlank?_blank fun _ hc => a.blank.isWhite hc)
    have hlines := firstValue?_line hfront
    refine ⟨(h a hmem).2 hclass, ?_, hlines _ (List.getLast_mem _)⟩
    exact fun l hl => endInLine?_eq_none (hlines l (List.mem_of_mem_dropLast hl))
  next hnone =>
    have hclass : ∀ a ∈ x.attributes, ¬a.IsClass := by
      simpa [classAttribute?] using hnone
    exact fun l hl => endInLine?_eq_none
      (firstValue?_line (firstValue?_name x.name hclass hquiet x.valueAfterBlank?_ending) l hl)

/-- The name of the tag stands right behind its `<`. -/
theorem nameStop_tag (hdiv : d.DividedAt p pre (x.text ++ post)) :
    d.nameStop (x.tag p) = p.afterText ('<' :: x.name.text) := by
  have hhead : (x.tag p).head = '<' :: x.name.text := by
    rw [Tag.head, if_neg]
    · rfl
    · rw [tag]
      split
      next => exact fun hkind => by cases hkind
      next => exact fun hkind => by cases hkind
  have hflat : ∀ c ∈ '<' :: x.name.text, c ≠ '\n' := by
    rintro c hc rfl
    exact absurd (not_isWhite_name x.name _ hc) (by decide)
  rw [Document.nameStop_eq hdiv.isValid, hhead, Position.afterText_of_flat hflat]
  rfl

/-- A tag with quoted attributes reads as the tag that it is. The caret goes to the closing quote of
the class attribute, or behind the name if there is none, as long as no value reads as a class
attribute behind a blank or a line feed and the class list is on one line. In general it goes there
if and only if the tag reads right line by line. -/
theorem classPlace_tag (x : QuotedTag) (hdiv : d.DividedAt p pre (x.text ++ post)) :
    Tag.parse? (d.slice (x.tag p).range) (x.tag p).range = some (x.tag p) ∧
    ((∀ a ∈ x.attributes, a.IsQuiet ∧ (a.IsClass → '\n' ∉ a.value)) →
      d.classPlace (x.tag p) = x.place p) ∧
    (d.classPlace (x.tag p) = x.place p ↔ x.IsReadByLine) := by
  have hslice : d.slice (x.tag p).range = x.text := hdiv.slice
  refine ⟨hslice ▸ x.parse?_text p, ?_⟩
  refine (and_iff_right_of_imp fun hiff hquiet => hiff.mpr (isReadByLine hquiet)).mpr ?_
  rw [Document.classPlace_eq hdiv rfl, place, IsReadByLine]
  split
  next a ha =>
    obtain ⟨hclass, -, w, htext, hw⟩ := exists_of_classAttribute? ha
    have hlast : ∀ c ∈ (x.front ++ a.blank.text).getLast?, Unicode.isWhite c := by
      obtain ⟨c, hc, hwhite⟩ := a.exists_getLast?_blank
      rw [List.getLast?_append_of_ne_nil _ a.blank_ne_nil, hc]
      exact fun y hy => Option.some.inj hy ▸ hwhite
    rw [← QuotedAttribute.stopIn?_eq_length_iff hclass hlast hw, ← htext]
    cases stopIn? x.text with
    | none => simp
    | some k =>
        simp only [Option.map_some, Option.getD_some, ClassPlace.mk.injEq, and_true,
          Option.some_inj]
        constructor
        · intro hplace
          have hsplit := (List.take_append_drop k x.text).trans htext
          have htake := congrArg List.length (Position.afterText_inj hsplit hplace)
          have hlength := congrArg List.length htext
          simp only [List.length_take, List.length_append, List.length_cons] at htake hlength ⊢
          omega
        · rintro rfl
          rw [htext, List.take_left]
  next hnone =>
    rw [← stopInLines?_eq_none_iff, ← stopIn?, nameStop_tag hdiv]
    cases stopIn? x.text with
    | none => simp
    | some k => simp

/-- The tag `<a b-c="d" class="e f"/>` behind a text, over two lines. -/
theorem classPlace_tag_lines :
    let a : QuotedAttribute := ⟨⟨['\n'], rfl⟩, "b-c".toList, "d".toList, by decide, by decide,
      by decide, by decide, by decide⟩
    let b : QuotedAttribute := ⟨⟨[' '], rfl⟩, "class".toList, "e f".toList, by decide, by decide,
      by decide, by decide, by decide⟩
    let x : QuotedTag := ⟨⟨'a', [], by decide, rfl⟩, [a, b], ⟨[], rfl⟩, true⟩
    let d : Document := ⟨['t'] ++ (x.text ++ ['u']), .lf⟩
    (∀ a ∈ x.attributes, a.IsQuiet ∧ (a.IsClass → '\n' ∉ a.value)) ∧
      x.place ⟨0, 1⟩ = ⟨⟨1, 18⟩, .endOfClassList⟩ ∧
      d.classPlace (x.tag ⟨0, 1⟩) = x.place ⟨0, 1⟩ := by
  intro a b x d
  have hquiet : ∀ a ∈ x.attributes, a.IsQuiet ∧ (a.IsClass → '\n' ∉ a.value) := by decide
  have hdiv : d.DividedAt ⟨0, 1⟩ ['t'] (x.text ++ ['u']) := ⟨rfl, rfl⟩
  exact ⟨hquiet, by decide, (classPlace_tag x hdiv).2.1 hquiet⟩

/-- A title that reads as a class attribute hides that there is none, and a class list over two
lines is not found. -/
theorem classPlace_tag_ne_place :
    let title : QuotedAttribute := ⟨⟨[' '], rfl⟩, "title".toList, " class=x".toList, by decide,
      by decide, by decide, by decide, by decide⟩
    let list : QuotedAttribute := ⟨⟨[' '], rfl⟩, "class".toList, "x\ny".toList, by decide,
      by decide, by decide, by decide, by decide⟩
    let x : QuotedTag := ⟨⟨'a', [], by decide, rfl⟩, [title], ⟨[], rfl⟩, false⟩
    let y : QuotedTag := ⟨⟨'a', [], by decide, rfl⟩, [list], ⟨[], rfl⟩, false⟩
    x.place .origin = ⟨⟨0, 2⟩, .endOfName⟩ ∧
      Document.classPlace ⟨x.text, .lf⟩ (x.tag .origin) = ⟨⟨0, 19⟩, .endOfClassList⟩ ∧
      y.place .origin = ⟨⟨1, 1⟩, .endOfClassList⟩ ∧
      Document.classPlace ⟨y.text, .lf⟩ (y.tag .origin) = ⟨⟨0, 2⟩, .endOfName⟩ := by
  decide

end QuotedTag

end MarkupPairs
