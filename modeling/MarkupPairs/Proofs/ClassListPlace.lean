import Mathlib.Data.List.Basic
import MarkupPairs.Dialect
import MarkupPairs.Proofs.Layout
import MarkupPairs.Proofs.Lines
import MarkupPairs.Proofs.TagCharacters
import MarkupPairs.Tag.ClassList

/-!
# The class list in the text of a tag

Where the class list of a tag ends hangs on the text of the tag alone, wherever in a document that
stands: it is found before the `>`, and an empty class attribute right behind the name is the one
that is found.
-/

namespace MarkupPairs

/-- Every text is one line, or a line and a line feed with a text behind them. -/
theorem Text.induction_lines {motive : Text → Prop} (line : ∀ l, '\n' ∉ l → motive l)
    (feed : ∀ l t, '\n' ∉ l → motive t → motive (l ++ '\n' :: t)) (t : Text) : motive t := by
  have hflat : ∀ l ∈ lines t, '\n' ∉ l := fun l hl => not_mem_of_mem_lines hl
  rw [← ofLines_lines t]
  revert hflat
  cases hlines : lines t with
  | nil => exact absurd hlines (lines_ne_nil t)
  | cons l rest =>
      clear hlines
      induction rest generalizing l with
      | nil =>
          intro hflat
          rw [ofLines_singleton]
          exact line l (hflat l List.mem_cons_self)
      | cons m rest ih =>
          intro hflat
          obtain ⟨hl, hrest⟩ := List.forall_mem_cons.mp hflat
          rw [ofLines_cons_cons]
          exact feed l _ hl (ih m hrest)

namespace ClassList

variable {t u v n key : Text} {c : Char} {k : Nat}

/-! ## The name of the attribute -/

/-- Whether a text is the name of a class attribute. -/
def IsClassKey (key : Text) : Prop := key = "className".toList ∨ key = "class".toList

instance (key : Text) : Decidable (IsClassKey key) := inferInstanceAs (Decidable (_ ∨ _))

theorem IsClassKey.mem (h : IsClassKey key) (hc : c ∈ key) : c ∈ "className".toList := by
  have hprefix : "class".toList <+: "className".toList := ⟨"Name".toList, rfl⟩
  rcases h with rfl | rfl
  · exact hc
  · exact hprefix.subset hc

/-- What follows the name of a class attribute and is passed over up to the value. -/
theorem value?_of_key {rest value : Text} (hkey : IsClassKey key)
    (hequals : Text.trimStart rest = '=' :: value) :
    value? (key ++ rest) = some (Text.trimStart value) := by
  rw [value?, Option.bind_eq_bind, Option.bind_eq_some_iff]
  refine ⟨rest, ?_, by rw [hequals]; rfl⟩
  simp only [Option.orElse_eq_orElse, Option.orElse_eq_or, Option.or_eq_some_iff,
    List.isPrefixOf?_eq_some_iff_append_eq]
  rcases hkey with rfl | rfl
  · exact .inl rfl
  · refine .inr ⟨?_, rfl⟩
    rw [Option.eq_none_iff_forall_ne_some]
    intro more hmore
    rw [List.isPrefixOf?_eq_some_iff_append_eq] at hmore
    have hsplit : "class".toList ++ 'N' :: 'a' :: 'm' :: 'e' :: more =
        "class".toList ++ rest := hmore
    obtain rfl := List.append_cancel_left hsplit
    exact absurd (List.cons.inj hequals).1 (by decide)

/-- A class attribute is its name, an equals sign and the value, with blanks around the sign. -/
theorem value?_eq_some_iff :
    value? t = some v ↔ ∃ key rest value, IsClassKey key ∧ t = key ++ rest ∧
      Text.trimStart rest = '=' :: value ∧ v = Text.trimStart value := by
  constructor
  · intro h
    rw [value?, Option.bind_eq_bind, Option.bind_eq_some_iff] at h
    obtain ⟨rest, hrest, hvalue⟩ := h
    simp only [Option.orElse_eq_orElse, Option.orElse_eq_or, Option.or_eq_some_iff,
      List.isPrefixOf?_eq_some_iff_append_eq] at hrest
    split at hvalue
    next value hequals =>
      obtain rfl := Option.some.inj hvalue
      rcases hrest with hrest | ⟨-, hrest⟩
      · exact ⟨_, rest, value, .inl rfl, hrest.symm, hequals, rfl⟩
      · exact ⟨_, rest, value, .inr rfl, hrest.symm, hequals, rfl⟩
    next => cases hvalue
  · rintro ⟨key, rest, value, hkey, rfl, hequals, rfl⟩
    exact value?_of_key hkey hequals

/-! ## A part of a line -/

theorem suffix_of_value? (h : value? t = some v) : v <:+ t := by
  obtain ⟨key, rest, value, -, rfl, hequals, rfl⟩ := value?_eq_some_iff.mp h
  have hbehind : value <:+ rest :=
    (hequals ▸ List.suffix_cons '=' value).trans (List.dropWhile_suffix _)
  exact (List.dropWhile_suffix _).trans (hbehind.trans (List.suffix_append key rest))

theorem suffix_of_valueAfterBlank? (h : valueAfterBlank? t = some v) : v <:+ t := by
  induction t with
  | nil => cases h
  | cons c t ih =>
      rw [valueAfterBlank?] at h
      split at h
      next =>
        simp only [Option.orElse_eq_orElse, Option.orElse_eq_or, Option.or_eq_some_iff] at h
        rcases h with h | ⟨-, h⟩
        · exact (suffix_of_value? h).trans (List.suffix_cons c t)
        · exact (ih h).trans (List.suffix_cons c t)
      next => exact (ih h).trans (List.suffix_cons c t)

/-- The value of a class attribute is read with all that follows it. -/
theorem suffix_of_firstValue? (h : firstValue? t = some v) : v <:+ t := by
  simp only [firstValue?, Option.orElse_eq_orElse, Option.orElse_eq_or, Option.or_eq_some_iff] at h
  rcases h with h | ⟨-, h⟩
  · exact suffix_of_value? h
  · exact suffix_of_valueAfterBlank? h

theorem exists_of_seekIndex {nest goal : Char} {i depth : Nat}
    (h : seekIndex nest goal i depth t = some k) :
    ∃ before behind, t = before ++ goal :: behind ∧ k = i + before.length := by
  induction t generalizing i depth with
  | nil => cases h
  | cons x t ih =>
      have hlater {j : Nat} (h : seekIndex nest goal (i + 1) j t = some k) :
          ∃ before behind, x :: t = before ++ goal :: behind ∧ k = i + before.length := by
        obtain ⟨before, behind, rfl, rfl⟩ := ih h
        refine ⟨x :: before, behind, rfl, ?_⟩
        rw [List.length_cons]
        omega
      unfold seekIndex at h
      split at h
      next => exact hlater h
      next =>
        split at h
        next hgoal =>
          cases depth with
          | zero => exact ⟨[], t, by rw [hgoal]; rfl, (Option.some.inj h).symm⟩
          | succ depth => exact hlater h
        next => exact hlater h

theorem inkLength_le (t : Text) : inkLength t ≤ t.length := by
  have hle := (List.dropWhile_sublist Unicode.isWhite (l := t.reverse)).length_le
  rwa [List.length_reverse, ← List.length_reverse] at hle

theorem endInBraces_le (t : Text) : endInBraces t ≤ t.length := by
  have hink := inkLength_le t
  have hcall := inkLength_le (t.take (inkLength t - 1))
  rw [List.length_take] at hcall
  rw [endInBraces]
  split
  next =>
    split
    next =>
      dsimp only
      split
      · omega
      · omega
    next =>
      split
      · omega
      · exact Nat.le_refl _
  next => exact Nat.le_refl _

/-- The class list ends within the value, and before a `>` that the text ends with. -/
theorem endInValue?_le (h : endInValue? v = some k) :
    k ≤ v.length ∧ (v.getLast? = some '>' → k < v.length) := by
  cases v with
  | nil => cases h
  | cons c rest =>
      rw [endInValue?] at h
      split at h
      next =>
        obtain ⟨i, hi, rfl⟩ := Option.map_eq_some_iff.mp h
        obtain ⟨hlt, -⟩ := List.findIdx?_eq_some_iff_getElem.mp hi
        rw [List.length_cons]
        omega
      next =>
        split at h
        next =>
          obtain ⟨i, hi, rfl⟩ := Option.map_eq_some_iff.mp h
          obtain ⟨before, behind, rfl, rfl⟩ := exists_of_seekIndex hi
          rw [Nat.zero_add, List.take_left, List.length_cons, List.length_append, List.length_cons]
          have hle := endInBraces_le before
          omega
        next =>
          obtain rfl := Option.some.inj h
          have hbegins := List.takeWhile_prefix (l := c :: rest) (!endsBare ·)
          refine ⟨hbegins.length_le, ?_⟩
          intro hlast
          -- the `>` would be part of the value
          apply Nat.lt_of_le_of_ne hbegins.length_le
          intro hlength
          have hmem : '>' ∈ c :: rest := List.mem_of_getLast? hlast
          rw [← hbegins.eq_of_length hlength] at hmem
          exact absurd (List.mem_takeWhile_imp hmem) (by decide)

/-- The class list ends within the part of a line that it is looked for in. -/
theorem endInLine?_le (h : endInLine? t = some k) :
    k ≤ t.length ∧ (t.getLast? = some '>' → k < t.length) := by
  rw [endInLine?, Option.bind_eq_some_iff] at h
  obtain ⟨v, hv, h⟩ := h
  obtain ⟨i, hi, rfl⟩ := Option.map_eq_some_iff.mp h
  obtain ⟨before, rfl⟩ := suffix_of_firstValue? hv
  have hne : v ≠ [] := by
    rintro rfl
    cases hi
  obtain ⟨hle, hlt⟩ := endInValue?_le hi
  rw [List.getLast?_append_of_ne_nil _ hne, List.length_append]
  refine ⟨by omega, ?_⟩
  intro hlast
  have hlt := hlt hlast
  omega

/-! ## The lines of a tag -/

/-- The number of characters before the end of the class list in a text, given line by line. -/
def stopInLines? : List Text → Option Nat
  | [] => none
  | l :: rest => (endInLine? l).or ((stopInLines? rest).map (l.length + 1 + ·))

/-- The number of characters before the end of the class list in the text of a tag. -/
def stopIn? (t : Text) : Option Nat := stopInLines? t.lines

theorem stopIn?_line {l : Text} (hl : '\n' ∉ l) : stopIn? l = endInLine? l := by
  rw [stopIn?, Text.lines_of_flat hl, stopInLines?, stopInLines?, Option.map_none, Option.or_none]

theorem stopIn?_feed {l : Text} (hl : '\n' ∉ l) (t : Text) :
    stopIn? (l ++ '\n' :: t) = (endInLine? l).or ((stopIn? t).map (l.length + 1 + ·)) := by
  rw [stopIn?, Text.lines_append_lineFeed, Text.lines_of_flat hl, List.singleton_append,
    stopInLines?]
  rfl

/-- The class list of a tag ends before the `>` of the tag. -/
theorem lt_of_stopIn? (hlast : t.getLast? = some '>') (h : stopIn? t = some k) : k < t.length := by
  induction t using Text.induction_lines generalizing k with
  | line l hl =>
      rw [stopIn?_line hl] at h
      exact (endInLine?_le h).2 hlast
  | feed l t hl ih =>
      rw [stopIn?_feed hl, Option.or_eq_some_iff] at h
      rw [List.length_append, List.length_cons]
      rcases h with h | ⟨-, h⟩
      · have hle := (endInLine?_le h).1
        omega
      · obtain ⟨i, hi, rfl⟩ := Option.map_eq_some_iff.mp h
        have ht : t.getLast? = some '>' := by
          cases t with
          | nil => simp at hlast
          | cons c t => simpa using hlast
        have hlt := ih ht hi
        omega

/-! ## An empty class attribute -/

variable {dialect : Dialect} {spelling name : Text}

theorem value?_empty (h : dialect.classAttribute = some name) (t : Text) :
    value? (name ++ '=' :: '\x22' :: '\x22' :: t) = some ('\x22' :: '\x22' :: t) := by
  cases dialect with
  | html =>
      obtain rfl := Option.some.inj h
      rfl
  | jsx =>
      obtain rfl := Option.some.inj h
      rfl
  | other => cases h

theorem valueAfterBlank?_append (hs : ∀ c ∈ u, Unicode.isWhite c = false) (t : Text) :
    valueAfterBlank? (u ++ t) = valueAfterBlank? t := by
  induction u with
  | nil => rfl
  | cons c u ih =>
      obtain ⟨hc, hu⟩ := List.forall_mem_cons.mp hs
      rw [List.cons_append, valueAfterBlank?, hc, if_neg (by decide), ih hu]

theorem not_mem_lineFeed_emptyClassAttribute (h : dialect.emptyClassAttribute = some spelling) :
    '\n' ∉ spelling := by
  cases dialect with
  | html =>
      obtain rfl := Option.some.inj h
      decide
  | jsx =>
      obtain rfl := Option.some.inj h
      decide
  | other => cases h

/-- An empty class attribute at the first blank of a line is the one that is found, with the end of
its class list between the quotes. -/
theorem endInLine?_emptyClassAttribute (h : dialect.emptyClassAttribute = some spelling)
    (hn : ∀ c ∈ n, c.isAlphanum) (l : Text) :
    endInLine? ('<' :: (n ++ (spelling ++ l))) = some (n.length + spelling.length) := by
  obtain ⟨name, hname, rfl⟩ := Option.map_eq_some_iff.mp h
  have hblank : ∀ c ∈ '<' :: n, Unicode.isWhite c = false :=
    List.forall_mem_cons.mpr ⟨rfl, fun c hc => Unicode.not_isWhite_of_isAlphanum (hn c hc)⟩
  have hspelling : ' ' :: (name ++ ['=', '\x22', '\x22']) ++ l =
      ' ' :: (name ++ '=' :: '\x22' :: '\x22' :: l) := by simp
  have hvalue : valueAfterBlank? (' ' :: (name ++ '=' :: '\x22' :: '\x22' :: l)) =
      some ('\x22' :: '\x22' :: l) := by
    rw [valueAfterBlank?, if_pos (by decide), value?_empty hname]
    rfl
  have hfirst : firstValue? ('<' :: (n ++ ' ' :: (name ++ '=' :: '\x22' :: '\x22' :: l))) =
      some ('\x22' :: '\x22' :: l) := by
    rw [← hvalue, ← valueAfterBlank?_append hblank]
    rfl
  have hempty : endInValue? ('\x22' :: '\x22' :: l) = some 1 := by
    simp [endInValue?, List.findIdx?_cons]
  rw [hspelling, endInLine?, hfirst, Option.bind_some, hempty, Option.map_some, Option.some_inj]
  simp only [List.length_cons, List.length_append, List.length_nil]
  omega

theorem stopIn?_emptyClassAttribute (h : dialect.emptyClassAttribute = some spelling)
    (hn : ∀ c ∈ n, c.isAlphanum) (tail : Text) :
    stopIn? ('<' :: (n ++ (spelling ++ tail))) = some (n.length + spelling.length) := by
  have hflat : '\n' ∉ '<' :: (n ++ spelling) := by
    rw [List.mem_cons, List.mem_append]
    rintro (hfeed | hfeed | hfeed)
    · exact absurd hfeed (by decide)
    · exact absurd (hn _ hfeed) (by decide)
    · exact not_mem_lineFeed_emptyClassAttribute h hfeed
  obtain ⟨l, rest, hlines⟩ := List.exists_cons_of_ne_nil (Text.lines_ne_nil tail)
  have hwhole : Text.lines ('<' :: (n ++ (spelling ++ tail))) =
      ('<' :: (n ++ (spelling ++ l))) :: rest := by
    rw [← List.append_assoc, ← List.cons_append, Text.lines_append]
    simp [Text.lines_of_flat hflat, hlines]
  rw [stopIn?, hwhole, stopInLines?, endInLine?_emptyClassAttribute h hn, Option.some_or]

end ClassList

namespace Document

open ClassList

variable {d : Document} {r : Range} {p q : Position} {pre post x z : Text} {t : Tag}

/-- A range covers the rest of a line from a place on, up to where the range stops on the line or
up to the line feed. -/
theorem linePart_eq {l rest : Text} (hdiv : d.DividedAt q pre (l ++ rest)) (hl : '\n' ∉ l)
    (hfirst : q.character = if q.line = r.start.line then r.start.character else 0)
    (hstop : r.stop = q.right l.length ∨ q.line < r.stop.line ∧ rest.head? = some '\n') :
    d.linePart r q.line = (q.character, l) := by
  obtain ⟨before, hbefore⟩ : ∃ before, before = (Text.lines pre).getLast (Text.lines_ne_nil pre) :=
    ⟨_, rfl⟩
  have hcharacter : q.character = before.length := hbefore ▸ hdiv.character_eq
  have hline : d.line q.line = before ++ (l ++ rest.lines.head (Text.lines_ne_nil rest)) := by
    rw [hdiv.line_eq, ← hbefore]
    simp [Text.lines_append, Text.lines_of_flat hl]
  rw [linePart, ← hfirst, hline, hcharacter]
  rcases hstop with hstop | ⟨hlt, hhead⟩
  · have htake : r.stop.character = (before ++ l).length := by
      rw [hstop, List.length_append, ← hcharacter]
      rfl
    rw [if_pos (by rw [hstop]; rfl), htake, ← List.append_assoc, List.take_left, List.drop_left]
  · obtain ⟨rest, rfl⟩ := List.head?_eq_some_iff.mp hhead
    have hempty : (Text.lines ('\n' :: rest)).head (Text.lines_ne_nil _) = [] := by
      simp [Text.lines]
    rw [if_neg (Nat.ne_of_lt hlt), hempty, List.append_nil, List.drop_left]

/-- Where the class list ends that starts on a line, by the part of the line. -/
theorem classListStop?_of_linePart {l : Text} (h : d.linePart r q.line = (q.character, l))
    (hl : '\n' ∉ l) :
    d.classListStop? r q.line = (endInLine? l).map fun k => q.afterText (l.take k) := by
  rw [classListStop?, h]
  change (endInLine? l).map (fun k => (⟨q.line, q.character + k⟩ : Position)) = _
  cases hstop : endInLine? l with
  | none => rfl
  | some k =>
      have hflat : q.afterText (l.take k) = q.right (l.take k).length :=
        Position.afterText_of_flat fun c hc => ne_of_mem_of_not_mem (List.mem_of_mem_take hc) hl
      rw [Option.map_some, Option.map_some, hflat, List.length_take_of_le (endInLine?_le hstop).1]
      rfl

theorem findSome?_classListStop? (hdiv : d.DividedAt q pre (z ++ post))
    (hstart : r.start.line ≤ q.line)
    (hfirst : q.character = if q.line = r.start.line then r.start.character else 0)
    (hstop : r.stop = q.afterText z) :
    (List.range' q.line z.lines.length).findSome? (d.classListStop? r) =
      (stopIn? z).map fun k => q.afterText (z.take k) := by
  induction z using Text.induction_lines generalizing q pre with
  | line l hl =>
      have hflat : q.afterText l = q.right l.length :=
        Position.afterText_of_flat fun c hc => ne_of_mem_of_not_mem hc hl
      have hpart := linePart_eq hdiv hl hfirst (.inl (hstop.trans hflat))
      rw [Text.lines_of_flat hl, stopIn?_line hl]
      simp only [List.length_singleton, List.range'_one, List.findSome?_singleton]
      exact classListStop?_of_linePart hpart hl
  | feed l z hl ih =>
      have hnext : q.afterText (l ++ ['\n']) = ⟨q.line + 1, 0⟩ := by
        rw [Position.afterText_append, Position.afterText_of_flat fun c hc =>
          ne_of_mem_of_not_mem hc hl]
        rfl
      have hsplit : l ++ '\n' :: z = (l ++ ['\n']) ++ z := by simp
      rw [hsplit, List.append_assoc] at hdiv
      have hlater := hdiv.append
      rw [hnext] at hlater
      rw [hsplit, Position.afterText_append, hnext] at hstop
      have hline : q.line < r.stop.line := by
        rw [hstop, Position.line_afterText]
        exact Nat.le_add_right _ _
      rw [List.append_assoc] at hdiv
      have hpart := linePart_eq hdiv hl hfirst (.inr ⟨hline, rfl⟩)
      have hrest := ih hlater (Nat.le_succ_of_le hstart)
        (if_neg (Nat.ne_of_gt (Nat.lt_succ_of_le hstart))).symm hstop
      rw [Text.lines_append_lineFeed, Text.lines_of_flat hl, List.singleton_append,
        List.length_cons, List.range'_succ, List.findSome?_cons, stopIn?_feed hl,
        classListStop?_of_linePart hpart hl, hrest]
      cases hfound : endInLine? l with
      | some k =>
          have hk := (endInLine?_le hfound).1
          simp [List.take_append_of_le_length hk]
      | none =>
          cases stopIn? z with
          | none => rfl
          | some k =>
              have htake : (l ++ '\n' :: z).take (l.length + 1 + k) =
                  (l ++ ['\n']) ++ z.take k := by
                rw [hsplit, ← List.take_length_add_append]
                simp
              simp [htake, Position.afterText_append, ← hnext]

theorem classPlace_eq (hdiv : d.DividedAt p pre (x ++ post))
    (hrange : t.range = Range.spanning p x) :
    d.classPlace t =
      ((stopIn? x).map fun k => ⟨p.afterText (x.take k), .endOfClassList⟩).getD
        ⟨d.nameStop t, .endOfName⟩ := by
  have hstart : t.range.start = p := by rw [hrange]; rfl
  have hstop : t.range.stop = p.afterText x := by rw [hrange]; rfl
  have hlines : min (t.range.stop.line + 1) d.lineCount - t.range.start.line = x.lines.length := by
    have hlt := hdiv.append.line_lt
    rw [hstart, hstop, Text.length_lines]
    rw [Position.line_afterText] at hlt ⊢
    omega
  have hfound := findSome?_classListStop? (r := t.range) hdiv
    (Nat.le_of_eq (congrArg Position.line hstart))
    (by rw [hstart, if_pos rfl]) hstop
  rw [classPlace, hlines, hstart, hfound]
  cases stopIn? x with
  | none => rfl
  | some k => rfl

end Document

end MarkupPairs
