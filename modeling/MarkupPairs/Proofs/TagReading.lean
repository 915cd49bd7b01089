import MarkupPairs.Proofs.Enclosing
import MarkupPairs.Proofs.Forest

/-!
# Reading the tags of a forest

The tags of a forest are read alike by the search for a partner, which takes their heads apart, and
by the search for the tag under a position, which reads them as a whole.
-/

namespace MarkupPairs

/-- A text that stands between the angles of a tag, as the searches take it apart: a slash if the
tag closes, a name, and the rest. -/
structure ReadsAs (t : Text) (closing : Bool) (name tail : Text) : Prop where
  text_eq : t = (if closing then ['/'] else []) ++ (name ++ tail)
  isNameChar : ∀ c ∈ name, TagHead.isNameChar c
  endsName : ∀ c, tail.head? = some c → TagHead.endsName c
  isPlain : tail.IsPlain
  nameless : name = [] → tail = []

theorem Attributes.endsName_head (a : Attributes) {c : Char} (h : a.text.head? = some c) :
    TagHead.endsName c := by
  have hwhite := a.isWhite_head
  rw [h, Option.all_some] at hwhite
  simp [TagHead.endsName, hwhite]

theorem TagName.isNameChar (n : TagName) : ∀ c ∈ n.text, TagHead.isNameChar c :=
  fun _ hc => TagHead.isNameChar_of_isAlphanum (n.isAlphanum hc)

theorem Shell.readsAs_opening (s : Shell) : ReadsAs s.opening false s.name s.attributes := by
  cases s with
  | element name attributes blank =>
      exact ⟨rfl, name.isNameChar, fun c hc => attributes.endsName_head hc, attributes.isPlain,
        fun h => absurd h (List.cons_ne_nil _ _)⟩
  | fragment => exact ⟨rfl, by simp [name], by simp [attributes], Text.isPlain_nil, fun _ => rfl⟩

theorem Shell.readsAs_closing (s : Shell) : ReadsAs s.closing true s.name s.blank := by
  cases s with
  | element name attributes blank =>
      refine ⟨rfl, name.isNameChar, fun c hc => ?_, blank.isPlain,
        fun h => absurd h (List.cons_ne_nil _ _)⟩
      simp [TagHead.endsName, blank.isWhite (List.mem_of_head? hc)]
  | fragment => exact ⟨rfl, by simp [name], by simp [blank], Text.isPlain_nil, fun _ => rfl⟩

theorem TagName.readsAs_single (n : TagName) (a : Attributes) :
    ReadsAs (n.single a) false n.text (a.text ++ ['/']) := by
  refine ⟨rfl, n.isNameChar, fun c hc => ?_, Text.isPlain_append.mpr ⟨a.isPlain, by decide⟩,
    fun h => absurd h (List.cons_ne_nil _ _)⟩
  cases htext : a.text with
  | nil =>
      rw [htext] at hc
      obtain rfl := Option.some.inj hc
      rfl
  | cons x rest =>
      rw [htext] at hc
      exact a.endsName_head (by rw [htext]; exact hc)

/-- The name at the start of a text, if the text after it ends it, with the slash before it. -/
def TagHead.readName? (closing : Bool) (t : Text) : Option (Bool × Text) :=
  match t.dropWhile isNameChar with
  | [] => if t.takeWhile isNameChar = [] then none else some (closing, t.takeWhile isNameChar)
  | c :: _ =>
    if endsName c && (t.takeWhile isNameChar != [] || c == '>') then
      some (closing, t.takeWhile isNameChar)
    else none

theorem TagHead.read?_slash (t : Text) : read? ('/' :: t) = readName? true t := rfl

theorem TagHead.read?_of_head?_ne {t : Text} (h : t.head? ≠ some '/') :
    read? t = readName? false t := by
  cases t with
  | nil => rfl
  | cons c rest =>
      have hc : c ≠ '/' := fun heq => h (congrArg some heq)
      rw [read?]
      · rfl
      · exact fun u hu => hc (List.cons.inj hu).1

/-- The last character of a text that is not blank, or else the one before the text. -/
def Text.lastInk (ink : Option Char) (t : Text) : Option Char :=
  t.foldl (fun ink c => if Unicode.isWhite c then ink else some c) ink

theorem Text.trimEnd_concat (t : Text) (c : Char) :
    trimEnd (t ++ [c]) = if Unicode.isWhite c then trimEnd t else t ++ [c] := by
  rw [trimEnd, List.reverse_append, List.reverse_singleton, List.singleton_append,
    List.dropWhile_cons]
  split
  · rfl
  · simp

theorem Text.lastInk_eq (ink : Option Char) (t : Text) :
    t.lastInk ink = (trimEnd t).getLast?.or ink := by
  induction t using List.reverseRecOn with
  | nil => rfl
  | append_singleton t c ih =>
      have hstep : lastInk ink (t ++ [c]) =
          if Unicode.isWhite c then lastInk ink t else some c := List.foldl_append
      rw [hstep, trimEnd_concat]
      split
      · exact ih
      · simp

theorem Text.getLast?_trimEnd_append (s t : Text) :
    (trimEnd (s ++ t)).getLast? = (trimEnd t).getLast?.or (trimEnd s).getLast? := by
  have happend := lastInk_eq none (s ++ t)
  rw [lastInk, List.foldl_append, ← lastInk, ← lastInk, lastInk_eq, lastInk_eq] at happend
  simpa using happend.symm

theorem Text.mem_of_mem_trimEnd {t : Text} {c : Char} (h : c ∈ trimEnd t) : c ∈ t := by
  rw [trimEnd, List.mem_reverse] at h
  simpa using (List.dropWhile_sublist _).subset h

theorem Shell.unslashed (s : Shell) : s.attributes.trimEnd.getLast? ≠ some '/' := by
  cases s with
  | element name attributes blank => exact attributes.unslashed
  | fragment => decide

/-- In a tag that does not close, a slash at the end belongs to what follows the name. -/
theorem ReadsAs.slashed_iff {t name tail : Text} (h : ReadsAs t false name tail) :
    t.trimEnd.getLast? = some '/' ↔ tail.trimEnd.getLast? = some '/' := by
  have htext : t = name ++ tail := h.text_eq
  rw [htext, Text.getLast?_trimEnd_append]
  cases htail : tail.trimEnd.getLast? with
  | some c => rw [Option.some_or]
  | none =>
      rw [Option.none_or]
      constructor
      · intro hslash
        have hmem : '/' ∈ name := Text.mem_of_mem_trimEnd (List.mem_of_getLast? hslash)
        exact absurd (h.isNameChar _ hmem) (by decide)
      · intro hslash
        cases hslash

theorem Shell.trimEnd_opening (s : Shell) : s.opening.trimEnd.getLast? ≠ some '/' :=
  s.readsAs_opening.slashed_iff.not.mpr s.unslashed

theorem Attributes.trimEnd_slash (a : Attributes) :
    (Text.trimEnd (a.text ++ ['/'])).getLast? = some '/' := by
  rw [Text.trimEnd_concat, if_neg (by decide), List.getLast?_concat]

namespace ReadsAs

variable {t name tail : Text} {closing : Bool}

/-- The first character behind the name ends it. -/
theorem endsName_of_cons (h : ReadsAs t closing name tail) {c : Char} {u : Text}
    (hu : tail ++ ['>'] = c :: u) : TagHead.endsName c := by
  cases tail with
  | nil =>
      obtain ⟨rfl, -⟩ := List.cons.inj hu
      rfl
  | cons x tail =>
      obtain ⟨rfl, -⟩ := List.cons.inj hu
      exact h.endsName x rfl

theorem readName? (h : ReadsAs t closing name tail) (slash : Bool) (rest : Text) :
    TagHead.readName? slash (name ++ (tail ++ '>' :: rest)) = some (slash, name) := by
  obtain ⟨c, u, hu⟩ : ∃ c u, tail ++ ['>'] = c :: u := List.exists_cons_of_ne_nil (by simp)
  have hc := h.endsName_of_cons hu
  have hchar := (TagHead.not_isNameChar_of_endsName hc).1
  have hbehind : tail ++ '>' :: rest = c :: (u ++ rest) := by
    rw [← List.cons_append, ← hu, List.append_assoc, List.singleton_append]
  have htake : (name ++ (tail ++ '>' :: rest)).takeWhile TagHead.isNameChar = name := by
    rw [List.takeWhile_append_of_pos h.isNameChar, hbehind, List.takeWhile_cons, hchar]
    simp
  have hdrop : (name ++ (tail ++ '>' :: rest)).dropWhile TagHead.isNameChar = c :: (u ++ rest) := by
    rw [List.dropWhile_append_of_pos h.isNameChar, hbehind, List.dropWhile_cons, hchar]
    simp
  have hcomplete : (name != [] || c == '>') = true := by
    by_cases hname : name = []
    · rw [h.nameless hname] at hu
      obtain ⟨rfl, -⟩ := List.cons.inj hu
      simp
    · simp [hname]
  rw [TagHead.readName?, htake, hdrop]
  simp only [hc, hcomplete, Bool.and_self, if_pos]

/-- The head of the tag, read again from the text between its angles. -/
theorem read? (h : ReadsAs t closing name tail) (rest : Text) :
    TagHead.read? (t ++ '>' :: rest) = some (closing, name) := by
  rw [h.text_eq, List.append_assoc, List.append_assoc]
  cases closing with
  | true => exact (TagHead.read?_slash _).trans (h.readName? true rest)
  | false =>
      refine (TagHead.read?_of_head?_ne ?_).trans (h.readName? false rest)
      cases hname : name with
      | nil =>
          rw [h.nameless hname]
          exact fun hhead => by cases hhead
      | cons x name' =>
          intro hhead
          have hx : TagHead.isNameChar '/' :=
            Option.some.inj hhead ▸ h.isNameChar x (by simp [hname])
          exact absurd hx (by decide)

/-- The tag as a whole has the name that its head has. -/
theorem parse? (h : ReadsAs t closing name tail) (hname : Tag.IsName name) (r : Range) :
    Tag.parse? t.angled r = some ⟨name, if closing then .closing
      else if Tag.endsSelfClosed t.angled then .selfClosing else .opening, r⟩ :=
  Tag.parse?_head h.text_eq hname h.endsName h.nameless r

end ReadsAs

/-! ## Tags as a whole -/

namespace TagName

theorem isName (n : TagName) : Tag.IsName n.text := by
  have hrest : ∀ x ∈ n.rest, Tag.isNameRest x := fun x hx =>
    Tag.isNameRest_of_isAlphanum (List.all_eq_true.mp n.isAlphanum_rest x hx)
  refine .inr (Tag.leadingName_eq_some_iff.mpr ⟨n.first, n.rest, rfl, n.first_isAlpha, ?_⟩)
  rw [List.takeWhile_eq_self_iff.mpr hrest, text]

theorem parse?_single (n : TagName) (a : Attributes) (r : Range) :
    Tag.parse? (n.single a).angled r = some ⟨n.text, .selfClosing, r⟩ := by
  have hends : Tag.endsSelfClosed (n.single a).angled :=
    Tag.endsSelfClosed_angled.mpr ⟨n.text ++ a.text, by rw [single, List.append_assoc]⟩
  rw [(n.readsAs_single a).parse? n.isName, if_neg Bool.false_ne_true, if_pos hends]

end TagName

namespace Shell

theorem isName (s : Shell) : Tag.IsName s.name := by
  cases s with
  | element name attributes blank => exact name.isName
  | fragment => exact .inl rfl

theorem slash_not_suffix_opening (s : Shell) : ¬['/'] <:+ s.opening := by
  rintro ⟨body, hbody⟩
  have htrim := s.trimEnd_opening
  rw [← hbody, Text.trimEnd_concat, if_neg (by decide), List.getLast?_concat] at htrim
  exact htrim rfl

theorem parse?_opening (s : Shell) (r : Range) :
    Tag.parse? s.opening.angled r = some ⟨s.name, .opening, r⟩ := by
  have hends : ¬Tag.endsSelfClosed s.opening.angled :=
    Tag.endsSelfClosed_angled.not.mpr s.slash_not_suffix_opening
  rw [s.readsAs_opening.parse? s.isName, if_neg Bool.false_ne_true, if_neg hends]

theorem parse?_closing (s : Shell) (r : Range) :
    Tag.parse? s.closing.angled r = some ⟨s.name, .closing, r⟩ := by
  rw [s.readsAs_closing.parse? s.isName, if_pos rfl]

end Shell

/-- A comment is no tag. -/
theorem CommentBody.parse?_dashed (c : CommentBody) (r : Range) :
    Tag.parse? c.dashed.angled r = none := by
  rw [Tag.parse?_angled (by simp [dashed]) (by simp [dashed])]
  rfl

end MarkupPairs
