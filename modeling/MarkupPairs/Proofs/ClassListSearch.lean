import MarkupPairs.Proofs.ClassListPlace

/-!
# Where the search for a class list looks

A class list is searched for line by line, at the start of a part of a line and behind each blank in
it. The search does not know where attributes and their values start and stop: what it finds in a
part of a line is what it finds in front of a place there, or else what it finds behind. That it
stops at a double quote still means that it has read a value up to that quote.
-/

namespace MarkupPairs

theorem Text.trimStart_append_cons {c : Char} (hc : Unicode.isWhite c = false) (s t : Text) :
    trimStart (s ++ c :: t) = trimStart s ++ c :: t := by
  rw [trimStart, List.dropWhile_append]
  split
  next hblank =>
    rw [List.isEmpty_iff] at hblank
    rw [trimStart, hblank, List.dropWhile_cons, hc]
    rfl
  next => rfl

theorem Text.trimStart_append {s : Text} (hs : trimStart s ≠ []) (t : Text) :
    trimStart (s ++ t) = trimStart s ++ t := by
  rw [trimStart, List.dropWhile_append, if_neg]
  · rfl
  · rw [List.isEmpty_iff]
    exact hs

namespace ClassList

variable {s t m v key : Text} {c : Char}

/-! ## The key of an attribute -/

/-- The characters of a key, as they are written in front of an equals sign. -/
def IsKey (key : Text) : Prop := ∀ c ∈ key, c.isAlpha ∨ c = '-'

instance (key : Text) : Decidable (IsKey key) :=
  List.decidableBAll _ key

theorem IsKey.not_isWhite (h : IsKey key) (hc : c ∈ key) : Unicode.isWhite c = false := by
  rcases h c hc with halpha | rfl
  · exact Unicode.not_isWhite_of_isAlphanum (by simp [Char.isAlphanum, halpha])
  · decide

theorem IsKey.ne (h : IsKey key) (hc : c ∈ key) {x : Char} (hx : x.isAlphanum = false)
    (hdash : x ≠ '-') : c ≠ x := by
  rcases h c hc with halpha | rfl
  · exact Unicode.ne_of_isAlphanum (by simp [Char.isAlphanum, halpha]) hx
  · exact hdash.symm

/-- A key with an equals sign right behind it has a class list for a value only as a whole. -/
theorem value?_key (hkey : IsKey key) (t : Text) :
    value? (key ++ '=' :: t) = if IsClassKey key then some (Text.trimStart t) else none := by
  split
  next hclass => exact value?_of_key hclass rfl
  next hclass =>
    rw [Option.eq_none_iff_forall_ne_some]
    intro v hv
    obtain ⟨name, rest, value, hname, htext, hequals, -⟩ := value?_eq_some_iff.mp hv
    rcases List.append_eq_append_iff.mp htext with ⟨r, rfl, hr⟩ | ⟨r, rfl, hr⟩
    · -- the name goes on behind the key, with the equals sign
      cases r with
      | nil => exact hclass (by rwa [List.append_nil] at hname)
      | cons x r =>
          obtain rfl : '=' = x := (List.cons.inj hr).1
          exact absurd (hname.mem (List.mem_append_right _ List.mem_cons_self)) (by decide)
    · -- the key goes on behind the name
      cases r with
      | nil => exact hclass (by rwa [List.append_nil])
      | cons x r =>
          have hx : x ∈ name ++ x :: r := List.mem_append_right _ List.mem_cons_self
          rw [hr, List.cons_append, Text.trimStart, List.dropWhile_cons, hkey.not_isWhite hx]
            at hequals
          exact hkey.ne hx (by decide) (by decide) (List.cons.inj hequals).1

/-! ## A place in a part of a line -/

/-- Whether no name of a class attribute, and none of the blanks around its equals sign, runs over
the end of a text into the character `c`. -/
def Parts (s : Text) (c : Char) : Prop :=
  Unicode.isWhite c = false ∧ c ≠ '=' ∧
    (c ∉ "className".toList ∨ ∃ x ∈ s.getLast?, Unicode.isWhite x)

/-- In front of a place that parts a text, a class attribute is read as if the text ended there. -/
theorem value?_append_cons (hparts : Parts s c) (m : Text) :
    value? (s ++ c :: m) = (value? s).map (· ++ c :: m) := by
  obtain ⟨hwhite, hequals, hname⟩ := hparts
  have htrim (r : Text) := Text.trimStart_append_cons hwhite r m
  apply Option.ext
  intro v
  rw [Option.map_eq_some_iff, value?_eq_some_iff]
  constructor
  · rintro ⟨key, rest, value, hkey, htext, hrest, rfl⟩
    obtain ⟨r, rfl, rfl⟩ : ∃ r, s = key ++ r ∧ rest = r ++ c :: m := by
      rcases List.append_eq_append_iff.mp htext with ⟨r, rfl, hr⟩ | hbehind
      · cases r with
        | nil => exact ⟨[], by simp, hr.symm⟩
        | cons x r =>
            -- the name would run over the place
            obtain rfl : c = x := (List.cons.inj hr).1
            have hmem : c ∈ s ++ c :: r := List.mem_append_right _ List.mem_cons_self
            rcases hname with hname | ⟨x, hx, hblank⟩
            · exact absurd (hkey.mem hmem) hname
            · have hx : x ∈ s ++ c :: r := List.mem_append_left _ (List.mem_of_getLast? hx)
              have hink : "className".toList.all (!Unicode.isWhite ·) := by decide
              have hx := List.all_eq_true.mp hink x (hkey.mem hx)
              rw [hblank] at hx
              cases hx
      · exact hbehind
    rw [htrim] at hrest
    cases hr : Text.trimStart r with
    | nil =>
        rw [hr] at hrest
        exact absurd (List.cons.inj hrest).1 hequals
    | cons x value' =>
        rw [hr] at hrest
        obtain ⟨rfl, rfl⟩ := List.cons.inj hrest
        exact ⟨_, value?_of_key hkey hr, (htrim value').symm⟩
  · rintro ⟨u, hu, rfl⟩
    obtain ⟨key, rest, value, hkey, rfl, hrest, rfl⟩ := value?_eq_some_iff.mp hu
    refine ⟨key, rest ++ c :: m, value ++ c :: m, hkey, List.append_assoc _ _ _, ?_, ?_⟩
    · rw [htrim, hrest, List.cons_append]
    · rw [htrim]

/-- At a character that no class attribute has outside of its value, the search starts again. -/
theorem valueAfterBlank?_append_cons (hwhite : Unicode.isWhite c = false) (hequals : c ≠ '=')
    (hname : c ∉ "className".toList) (s m : Text) :
    valueAfterBlank? (s ++ c :: m) =
      ((valueAfterBlank? s).map (· ++ c :: m)).or (valueAfterBlank? m) := by
  induction s with
  | nil => simp [valueAfterBlank?, hwhite]
  | cons x s ih =>
      rw [List.cons_append, valueAfterBlank?, valueAfterBlank?, ih,
        value?_append_cons ⟨hwhite, hequals, .inl hname⟩]
      split
      next => simp [Option.map_or, Option.or_assoc]
      next => rfl

/-- Behind a blank the search starts again as well, with the place itself. -/
theorem valueAfterBlank?_append_cons_of_blank (hwhite : Unicode.isWhite c = false)
    (hequals : c ≠ '=') (hs : ∃ x ∈ s.getLast?, Unicode.isWhite x) (m : Text) :
    valueAfterBlank? (s ++ c :: m) =
      ((valueAfterBlank? s).map (· ++ c :: m)).or (firstValue? (c :: m)) := by
  induction s with
  | nil => simp at hs
  | cons x s ih =>
      rw [List.cons_append, valueAfterBlank?, valueAfterBlank?]
      cases s with
      | nil =>
          have hx : Unicode.isWhite x := by simpa using hs
          rw [if_pos hx, if_pos hx]
          rfl
      | cons y s =>
          have hs' : ∃ z ∈ (y :: s).getLast?, Unicode.isWhite z := by simpa using hs
          rw [ih hs', value?_append_cons ⟨hwhite, hequals, .inr hs'⟩]
          split
          next => simp [Option.map_or, Option.or_assoc]
          next => rfl

/-- Of a part of a line, the search finds what is in front of a place behind a blank, or else what
starts there. -/
theorem firstValue?_append_cons (hwhite : Unicode.isWhite c = false) (hequals : c ≠ '=')
    (hs : ∀ x ∈ s.getLast?, Unicode.isWhite x) (m : Text) :
    firstValue? (s ++ c :: m) = ((firstValue? s).map (· ++ c :: m)).or (firstValue? (c :: m)) := by
  cases hlast : s.getLast? with
  | none =>
      rw [List.getLast?_eq_none_iff.mp hlast]
      rfl
  | some x =>
      have hs' : ∃ x ∈ s.getLast?, Unicode.isWhite x := ⟨x, hlast, hs x hlast⟩
      rw [firstValue?, value?_append_cons ⟨hwhite, hequals, .inr hs'⟩,
        valueAfterBlank?_append_cons_of_blank hwhite hequals hs']
      simp [firstValue?, Option.map_or, Option.or_assoc]

/-! ## Stopping at a double quote -/

/-- Up to its last character that is not blank, and behind it. -/
theorem exists_of_lastInk? (h : lastInk? t = some c) :
    ∃ before blank, t = before ++ c :: blank ∧ (∀ x ∈ blank, Unicode.isWhite x) ∧
      inkLength t = before.length + 1 := by
  have hsplit : t = t.trimEnd ++ (t.reverse.takeWhile Unicode.isWhite).reverse := by
    rw [Text.trimEnd, ← List.reverse_append, List.takeWhile_append_dropWhile, List.reverse_reverse]
  obtain ⟨before, hbefore⟩ := List.getLast?_eq_some_iff.mp h
  refine ⟨before, (t.reverse.takeWhile Unicode.isWhite).reverse, ?_, ?_, ?_⟩
  · rw [hbefore] at hsplit
    simpa using hsplit
  · intro x hx
    exact List.mem_takeWhile_imp (List.mem_reverse.mp hx)
  · rw [inkLength, hbefore, List.length_append, List.length_singleton]

theorem head?_trimStart_blank {blank : Text} (hblank : ∀ x ∈ blank, Unicode.isWhite x)
    (hc : Unicode.isWhite c = false) (m : Text) :
    (Text.trimStart (blank ++ c :: m)).head? = some c := by
  rw [Text.trimStart_append_cons hc, Text.trimStart, List.dropWhile_eq_nil_iff.mpr hblank]
  rfl

/-- Where a class list in braces stops at a double quote, a parenthesis or a brace comes next. -/
theorem head?_trimStart_of_endInBraces {more w : Text}
    (h : t ++ '\x7d' :: more = s ++ '\x22' :: w) (hlength : s.length = endInBraces t) :
    ∃ c ∈ (Text.trimStart w).head?, c = ')' ∨ c = '\x7d' := by
  have hbehind : s.length ≠ t.length := fun heq =>
    absurd (List.cons.inj (List.append_inj h heq.symm).2).1 (by decide)
  rw [endInBraces] at hlength
  split at hlength
  next x hx =>
    obtain ⟨before, blank, rfl, hblank, hink⟩ := exists_of_lastInk? hx
    rw [hink, Nat.add_sub_cancel, List.take_left] at hlength
    rw [List.append_assoc, List.cons_append] at h
    split at hlength
    next hparen =>
      subst hparen
      dsimp only at hlength
      split at hlength
      next hquote =>
        obtain ⟨q, hq, -⟩ := (Option.any_eq_true _ _).mp hquote
        obtain ⟨call, gap, rfl, hgap, hcall⟩ := exists_of_lastInk? hq
        rw [hcall, Nat.add_sub_cancel] at hlength
        rw [List.append_assoc, List.cons_append] at h
        obtain ⟨-, hw⟩ := List.append_inj h hlength.symm
        obtain ⟨-, rfl⟩ := List.cons.inj hw
        exact ⟨')', head?_trimStart_blank hgap (by decide) _, .inl rfl⟩
      next =>
        obtain ⟨-, hw⟩ := List.append_inj h hlength.symm
        exact absurd (List.cons.inj hw).1 (by decide)
    next =>
      split at hlength
      next =>
        obtain ⟨-, hw⟩ := List.append_inj h hlength.symm
        obtain ⟨-, rfl⟩ := List.cons.inj hw
        exact ⟨'\x7d', head?_trimStart_blank hblank (by decide) _, .inr rfl⟩
      next => exact absurd hlength hbehind
  next => exact absurd hlength hbehind

/-- A value in double quotes ends at the second one. -/
theorem endInValue?_quoted (h : '\x22' ∉ v) (m : Text) :
    endInValue? ('\x22' :: (v ++ '\x22' :: m)) = some (v.length + 1) := by
  have hnone : v.findIdx? (· == '\x22') = none := by
    rw [List.findIdx?_eq_none_iff]
    exact fun c hc => beq_eq_false_iff_ne.mpr (ne_of_mem_of_not_mem hc h)
  rw [endInValue?, if_pos (.inl rfl), List.findIdx?_append, hnone, Option.none_or]
  simp [List.findIdx?_cons]

/-- A value in which the class list stops at a double quote is in double quotes, up to that one,
unless a parenthesis or a brace comes next. -/
theorem exists_of_endInValue? {w : Text} (h : endInValue? (s ++ '\x22' :: w) = some s.length)
    (hw : ∀ c ∈ (Text.trimStart w).head?, c ≠ ')' ∧ c ≠ '\x7d') :
    ∃ value, s = '\x22' :: value ∧ '\x22' ∉ value := by
  cases s with
  | nil => simp [endInValue?] at h
  | cons c s =>
      rw [List.cons_append, endInValue?, List.length_cons] at h
      split at h
      next =>
        obtain ⟨i, hi, hlength⟩ := Option.map_eq_some_iff.mp h
        obtain rfl : i = s.length := Nat.add_right_cancel hlength
        rw [List.findIdx?_append, Option.or_eq_some_iff] at hi
        rcases hi with hi | ⟨hnone, hi⟩
        · obtain ⟨hlt, -⟩ := List.findIdx?_eq_some_iff_getElem.mp hi
          exact absurd hlt (Nat.lt_irrefl _)
        · rw [List.findIdx?_cons] at hi
          split at hi
          next hquote =>
            obtain rfl : '\x22' = c := beq_iff_eq.mp hquote
            rw [List.findIdx?_eq_none_iff] at hnone
            exact ⟨s, rfl, fun hmem => by simpa using hnone _ hmem⟩
          next =>
            obtain ⟨i, hi, hsum⟩ := Option.map_eq_some_iff.mp hi
            obtain ⟨j, -, rfl⟩ := Option.map_eq_some_iff.mp hi
            omega
      next =>
        split at h
        next =>
          obtain ⟨i, hi, hlength⟩ := Option.map_eq_some_iff.mp h
          obtain ⟨t, more, hsplit, rfl⟩ := exists_of_seekIndex hi
          rw [Nat.zero_add, hsplit, List.take_left] at hlength
          obtain ⟨x, hx, hclose⟩ :=
            head?_trimStart_of_endInBraces hsplit.symm (Nat.add_right_cancel hlength).symm
          obtain ⟨hparen, hbrace⟩ := hw x hx
          exact absurd hclose (not_or.mpr ⟨hparen, hbrace⟩)
        next =>
          -- a value without quotes stops at no quote
          have hlength : ((c :: (s ++ '\x22' :: w)).takeWhile (!endsBare ·)).length =
              (c :: s).length := Option.some.inj h
          have hsplit : (c :: (s ++ '\x22' :: w)).takeWhile (!endsBare ·) ++
              (c :: (s ++ '\x22' :: w)).dropWhile (!endsBare ·) = c :: s ++ '\x22' :: w :=
            List.takeWhile_append_dropWhile
          have hstop := List.head?_dropWhile_not (!endsBare ·) (c :: (s ++ '\x22' :: w))
          rw [(List.append_inj hsplit hlength).2] at hstop
          have hquote : (!endsBare '\x22') = false := hstop
          exact absurd hquote (by decide)

/-- Where the class list of a part of a line stops at a double quote, its value is in double quotes,
up to that one. -/
theorem exists_of_endInLine? {u w : Text} (h : endInLine? (u ++ '\x22' :: w) = some u.length)
    (hw : ∀ c ∈ (Text.trimStart w).head?, c ≠ ')' ∧ c ≠ '\x7d') :
    ∃ before value, u = before ++ '\x22' :: value ∧ '\x22' ∉ value ∧
      firstValue? (u ++ '\x22' :: w) = some ('\x22' :: (value ++ '\x22' :: w)) := by
  rw [endInLine?, Option.bind_eq_some_iff] at h
  obtain ⟨v, hv, h⟩ := h
  obtain ⟨i, hi, hlength⟩ := Option.map_eq_some_iff.mp h
  obtain ⟨before, hbefore⟩ := suffix_of_firstValue? hv
  have hu : before.length + i = u.length := by
    rw [← hlength, ← hbefore, List.length_append]
    omega
  obtain ⟨s, rfl⟩ : before <+: u :=
    List.prefix_of_prefix_length_le ⟨v, hbefore⟩ ⟨_, rfl⟩ (by omega)
  rw [List.append_assoc, List.append_cancel_left_eq] at hbefore
  subst hbefore
  rw [List.length_append, Nat.add_left_cancel_iff] at hu
  subst hu
  obtain ⟨value, rfl, hvalue⟩ := exists_of_endInValue? hi hw
  exact ⟨before, value, rfl, hvalue, hv⟩

/-! ## Line by line -/

theorem stopInLines?_append (ls ms : List Text) :
    stopInLines? (ls ++ ms) =
      (stopInLines? ls).or ((stopInLines? ms).map (Text.lengthOfLines ls + ·)) := by
  induction ls with
  | nil => simp [stopInLines?, Text.lengthOfLines]
  | cons l ls ih =>
      rw [List.cons_append, stopInLines?, stopInLines?, ih, Option.map_or, Option.or_assoc,
        Option.map_map, Text.lengthOfLines]
      congr 3
      funext k
      simp [Nat.add_assoc]

theorem stopInLines?_eq_none_iff {ls : List Text} :
    stopInLines? ls = none ↔ ∀ l ∈ ls, endInLine? l = none := by
  induction ls with
  | nil => simp [stopInLines?]
  | cons l ls ih => simp [stopInLines?, ih]

theorem lt_of_stopInLines? {ls : List Text} {k : Nat} (h : stopInLines? ls = some k) :
    k < Text.lengthOfLines ls := by
  induction ls generalizing k with
  | nil => cases h
  | cons l ls ih =>
      rw [stopInLines?, Option.or_eq_some_iff] at h
      rw [Text.lengthOfLines]
      rcases h with h | ⟨-, h⟩
      · have hle := (endInLine?_le h).1
        omega
      · obtain ⟨i, hi, rfl⟩ := Option.map_eq_some_iff.mp h
        have hlt := ih hi
        omega

/-- The class list of a text is found at a double quote if no line in front has one and the line of
the quote has it there. -/
theorem stopIn?_eq_length_iff (u w : Text) :
    stopIn? (u ++ '\x22' :: w) = some u.length ↔
      (∀ l ∈ u.lines.dropLast, endInLine? l = none) ∧
        endInLine? (u.lastLine ++ '\x22' :: w.firstLine) = some u.lastLine.length := by
  have hlines : Text.lines (u ++ '\x22' :: w) =
      u.lines.dropLast ++ (u.lastLine ++ '\x22' :: w.firstLine) :: w.lines.tail := by
    obtain ⟨l, ls, hls⟩ := List.exists_cons_of_ne_nil (Text.lines_ne_nil w)
    have hquote : Text.lines ('\x22' :: w) = ('\x22' :: l) :: ls := by
      rw [Text.lines_cons_of_ne (by decide), hls, List.modifyHead_cons]
    rw [Text.lines_append]
    simp only [Text.lastLine, Text.firstLine, hquote, hls, List.head_cons, List.tail_cons]
  have hlength : Text.lengthOfLines u.lines.dropLast + u.lastLine.length = u.length :=
    Text.lengthOfLines_dropLast_lines u
  rw [stopIn?, hlines, stopInLines?_append, ← stopInLines?_eq_none_iff]
  constructor
  · intro h
    rw [Option.or_eq_some_iff] at h
    rcases h with h | ⟨hnone, h⟩
    · have hlt := lt_of_stopInLines? h
      omega
    · obtain ⟨k, hk, hsum⟩ := Option.map_eq_some_iff.mp h
      obtain rfl : k = u.lastLine.length := by omega
      refine ⟨hnone, ?_⟩
      rw [stopInLines?, Option.or_eq_some_iff] at hk
      rcases hk with hk | ⟨-, hk⟩
      · exact hk
      · obtain ⟨i, -, hsum⟩ := Option.map_eq_some_iff.mp hk
        rw [List.length_append] at hsum
        omega
  · rintro ⟨hnone, hend⟩
    rw [hnone, Option.none_or, stopInLines?, hend, Option.some_or, Option.map_some, hlength]

/-! ## Texts without a class attribute -/

theorem value?_eq_none_of_append (h : value? (s ++ t) = none) : value? s = none := by
  rw [Option.eq_none_iff_forall_ne_some] at h ⊢
  intro v hv
  obtain ⟨key, rest, value, hkey, rfl, hequals, -⟩ := value?_eq_some_iff.mp hv
  refine h (Text.trimStart (value ++ t)) ?_
  rw [List.append_assoc]
  refine value?_of_key hkey ?_
  rw [Text.trimStart_append (by simp [hequals]), hequals, List.cons_append]

/-- No class attribute is found behind blanks if none stands behind one. -/
theorem valueAfterBlank?_eq_none_iff :
    valueAfterBlank? t = none ↔
      ∀ s c u, t = s ++ c :: u → Unicode.isWhite c → value? u = none := by
  induction t with
  | nil => simp [valueAfterBlank?]
  | cons x t ih =>
      rw [valueAfterBlank?]
      constructor
      · intro h s c u hsplit hc
        cases s with
        | nil =>
            obtain ⟨rfl, rfl⟩ := List.cons.inj hsplit
            rw [if_pos hc] at h
            simp only [Option.orElse_eq_orElse, Option.orElse_eq_or, Option.or_eq_none_iff] at h
            exact h.1
        | cons y s =>
            obtain ⟨rfl, rfl⟩ := List.cons.inj hsplit
            refine ih.mp ?_ s c u rfl hc
            split at h
            next =>
              simp only [Option.orElse_eq_orElse, Option.orElse_eq_or, Option.or_eq_none_iff] at h
              exact h.2
            next => exact h
      · intro h
        have hrest := ih.mpr fun s c u hsplit => h (x :: s) c u (congrArg (x :: ·) hsplit)
        split
        next hx => rw [h [] x t rfl hx, hrest]; rfl
        next => exact hrest

/-- In a text without a class attribute no line has one. -/
theorem firstValue?_line (h : firstValue? t = none) : ∀ l ∈ t.lines, firstValue? l = none := by
  induction t using Text.induction_lines with
  | line l hl => simpa [Text.lines_of_flat hl] using h
  | feed l t hl ih =>
      simp only [firstValue?, Option.orElse_eq_orElse, Option.orElse_eq_or, Option.or_eq_none_iff,
        valueAfterBlank?_eq_none_iff] at h ih ⊢
      obtain ⟨hstart, hblank⟩ := h
      rw [Text.lines_append_lineFeed, Text.lines_of_flat hl, List.singleton_append,
        List.forall_mem_cons]
      refine ⟨⟨value?_eq_none_of_append hstart, ?_⟩, ih ⟨?_, ?_⟩⟩
      · rintro s c u rfl hc
        exact value?_eq_none_of_append (hblank s c _ (List.append_assoc _ _ _) hc)
      · exact hblank l '\n' t rfl (by decide)
      · rintro s c u rfl hc
        exact hblank (l ++ '\n' :: s) c u (by simp) hc

theorem valueAfterBlank?_blank (h : ∀ c ∈ t, Unicode.isWhite c) : valueAfterBlank? t = none := by
  rw [valueAfterBlank?_eq_none_iff]
  rintro s c u rfl -
  rw [Option.eq_none_iff_forall_ne_some]
  intro v hv
  obtain ⟨key, rest, value, hkey, rfl, -⟩ := value?_eq_some_iff.mp hv
  have hmem : 'c' ∈ key := by
    rcases hkey with rfl | rfl
    · decide
    · decide
  exact absurd (h 'c' (by simp [hmem])) (by decide)

theorem endInLine?_eq_none (h : firstValue? t = none) : endInLine? t = none := by
  rw [endInLine?, h, Option.bind_none]

end ClassList

end MarkupPairs
