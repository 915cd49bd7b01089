import MarkupPairs.Tag.Partner

/-!
# The characters of a tag

The searches for a partner and the reading of a tag have each a rule for the characters of a name.
The rules agree on ASCII letters and digits, and on what ends a name: a blank, a slash or a `>`.
-/

namespace MarkupPairs

/-- The code points with the property White_Space. -/
def Unicode.whiteCodes : List Nat :=
  [0x9, 0xa, 0xb, 0xc, 0xd, 0x20, 0x85, 0xa0, 0x1680, 0x2000, 0x2001, 0x2002, 0x2003, 0x2004,
   0x2005, 0x2006, 0x2007, 0x2008, 0x2009, 0x200a, 0x2028, 0x2029, 0x202f, 0x205f, 0x3000]

theorem Unicode.mem_whiteCodes {c : Char} (h : isWhite c) : c.toNat ∈ whiteCodes := by
  simp only [isWhite, Bool.or_eq_true, Bool.and_eq_true, decide_eq_true_eq, beq_iff_eq] at h
  simp only [whiteCodes, List.mem_cons, List.not_mem_nil, or_false]
  omega

/-- A blank belongs to no name, by either rule for the characters of a name. -/
theorem Unicode.not_name_of_isWhite {c : Char} (h : isWhite c) :
    TagHead.isNameChar c = false ∧ Tag.isNameRest c = false := by
  have hall : ∀ n ∈ whiteCodes, TagHead.isNameChar (Char.ofNat n) = false ∧
      Tag.isNameRest (Char.ofNat n) = false := by decide +kernel
  rw [← Char.ofNat_toNat c]
  exact hall _ (mem_whiteCodes h)

theorem Unicode.ne_of_isWhite {c x : Char} (h : isWhite c) (hx : isWhite x = false) : c ≠ x := by
  rintro rfl
  simp [hx] at h

theorem TagHead.not_isNameChar_of_endsName {c : Char} (h : endsName c) :
    isNameChar c = false ∧ Tag.isNameRest c = false := by
  simp only [endsName, Bool.or_eq_true, beq_iff_eq] at h
  rcases h with (h | rfl) | rfl
  · exact Unicode.not_name_of_isWhite h
  · decide
  · decide

theorem Unicode.toNat_lt_of_isAlphanum {c : Char} (h : c.isAlphanum) : c.toNat < 0x80 := by
  have hlt : ∀ {last : Char}, c.val ≤ last.val → last.toNat < 0x80 → c.toNat < 0x80 :=
    fun hle hlast => Nat.lt_of_le_of_lt (UInt32.le_iff_toNat_le.mp hle) hlast
  have hclass : (c.isUpper || c.isLower || c.isDigit) = true := h
  simp only [Bool.or_eq_true] at hclass
  rcases hclass with (hupper | hlower) | hdigit
  · exact hlt (of_decide_eq_true hupper).2 (by decide)
  · exact hlt (of_decide_eq_true (Bool.and_eq_true_iff.mp hlower).2) (by decide)
  · exact hlt (of_decide_eq_true (Bool.and_eq_true_iff.mp hdigit).2) (by decide)

theorem TagHead.isNameChar_of_isAlphanum {c : Char} (h : c.isAlphanum) : isNameChar c := by
  simp [isNameChar, Unicode.isAlphanumeric, Unicode.toNat_lt_of_isAlphanum h, h]

theorem Tag.isNameRest_of_isAlphanum {c : Char} (h : c.isAlphanum) : isNameRest c := by
  simp [isNameRest, Unicode.isWordChar, Unicode.toNat_lt_of_isAlphanum h, h]

theorem Unicode.not_isWhite_of_isAlphanum {c : Char} (h : c.isAlphanum) : isWhite c = false := by
  apply Bool.eq_false_iff.mpr
  intro hwhite
  have hname := TagHead.isNameChar_of_isAlphanum h
  simp [(not_name_of_isWhite hwhite).1] at hname

theorem Unicode.ne_of_isAlphanum {c x : Char} (h : c.isAlphanum) (hx : x.isAlphanum = false) :
    c ≠ x := by
  rintro rfl
  simp [hx] at h

end MarkupPairs
