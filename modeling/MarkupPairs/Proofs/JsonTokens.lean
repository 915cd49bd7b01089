import MarkupPairs.Json.Token

/-!
# Spellings of tokens of JSON

The grammar of numbers and of string literals, and that the tokens of a text are the ones that it
spells. A number or a word goes on as long as its characters do, so it is told from what stands
behind it only where that starts with another character.
-/

namespace MarkupPairs.Json

variable {t u rest body digits front behind : Text} {tokens others : List Token}
  {pieces : List Piece} {token : Token} {c : Char} {n : Nat}

/-! ## The grammar -/

def IsDigits (t : Text) : Prop := t ≠ [] ∧ ∀ c ∈ t, c.isDigit

/-- A zero, or digits of which the first is no zero. -/
def IsWhole (t : Text) : Prop := t = ['0'] ∨ IsDigits t ∧ t.head? ≠ some '0'

def IsFraction (t : Text) : Prop := t = [] ∨ ∃ digits, IsDigits digits ∧ t = '.' :: digits

def IsExponent (t : Text) : Prop :=
  t = [] ∨ ∃ letter sign digits, (letter = 'e' ∨ letter = 'E') ∧
    (sign = [] ∨ sign = ['+'] ∨ sign = ['-']) ∧ IsDigits digits ∧ t = letter :: (sign ++ digits)

/-- A number as it is spelled. -/
def IsNumeral (t : Text) : Prop :=
  ∃ sign whole fraction exponent, (sign = [] ∨ sign = ['-']) ∧ IsWhole whole ∧
    IsFraction fraction ∧ IsExponent exponent ∧ t = sign ++ (whole ++ (fraction ++ exponent))

/-- A hexadecimal digit, in small or in capital letters. -/
def IsHexDigit (c : Char) (n : Nat) : Prop :=
  "0123456789abcdef".toList[n]? = some c ∨ "0123456789ABCDEF".toList[n]? = some c

/-- The short escapes, by the letter behind the backslash. -/
def shortEscapes : List (Char × Char) :=
  [('\x22', '\x22'), ('\\', '\\'), ('/', '/'), ('b', '\x08'), ('f', '\x0c'), ('n', '\n'),
    ('r', '\r'), ('t', '\t')]

/-- A piece of a string literal as it is spelled. -/
inductive Piece.IsSpelled : Piece → Text → Prop where
  | plain {c : Char} (quote : c ≠ '\x22') (backslash : c ≠ '\\') (control : 0x20 ≤ c.toNat) :
      IsSpelled (.char c) [c]
  | short {letter c : Char} (mem : (letter, c) ∈ shortEscapes) : IsSpelled (.char c) ['\\', letter]
  | unit {a b c d : Char} {i j k l : Nat} (first : IsHexDigit a i) (second : IsHexDigit b j)
      (third : IsHexDigit c k) (fourth : IsHexDigit d l) :
      IsSpelled (.unit (0x1000 * i + 0x100 * j + 0x10 * k + l)) ['\\', 'u', a, b, c, d]

/-- What stands between the quotes of a string literal. -/
inductive IsBody : List Piece → Text → Prop where
  | nil : IsBody [] []
  | cons {piece : Piece} {pieces : List Piece} {t rest : Text} (spelled : piece.IsSpelled t)
      (body : IsBody pieces rest) : IsBody (piece :: pieces) (t ++ rest)

def IsBlanks (t : Text) : Prop := ∀ c ∈ t, isBlank c

/-! ## Numbers -/

section

variable {p : Char → Bool}

theorem dropWhile_append_of_head (ht : ∀ c ∈ t, p c) (hrest : ∀ c ∈ rest.head?, ¬p c) :
    (t ++ rest).dropWhile p = rest := by
  rw [List.dropWhile_append_of_pos ht]
  cases rest with
  | nil => rfl
  | cons c rest => exact List.dropWhile_cons_of_neg (hrest c rfl)

theorem takeWhile_append_of_head (ht : ∀ c ∈ t, p c) (hrest : ∀ c ∈ rest.head?, ¬p c) :
    (t ++ rest).takeWhile p = t := by
  rw [List.takeWhile_append_of_pos ht]
  cases rest with
  | nil => exact List.append_nil t
  | cons c rest => rw [List.takeWhile_cons_of_neg (hrest c rfl), List.append_nil]

end

theorem IsDigits.exists_cons (h : IsDigits t) :
    ∃ c more, t = c :: more ∧ c.isDigit ∧ ∀ d ∈ more, d.isDigit := by
  obtain ⟨hne, hdigits⟩ := h
  cases t with
  | nil => exact absurd rfl hne
  | cons c more => exact ⟨c, more, rfl, List.forall_mem_cons.mp hdigits⟩

theorem skipDigits?_append (h : IsDigits t) (hrest : ∀ c ∈ rest.head?, ¬c.isDigit) :
    skipDigits? (t ++ rest) = some rest := by
  obtain ⟨c, more, rfl, hc, hmore⟩ := h.exists_cons
  rw [List.cons_append, skipDigits?, if_pos hc, dropWhile_append_of_head hmore hrest]

theorem skipWhole?_append (h : IsWhole t) (hrest : ∀ c ∈ rest.head?, ¬c.isDigit) :
    skipWhole? (t ++ rest) = some rest := by
  rcases h with rfl | ⟨hdigits, hzero⟩
  · rfl
  · obtain ⟨c, more, rfl, -, -⟩ := hdigits.exists_cons
    have hc : c ≠ '0' := fun heq => hzero (congrArg some heq)
    rw [← skipDigits?_append hdigits hrest, List.cons_append]
    exact skipWhole?.eq_2 _ fun _ heq => hc (List.cons.inj heq).1

theorem IsExponent.head (h : IsExponent t) : ∀ c ∈ t.head?, ¬c.isDigit ∧ c ≠ '.' := by
  rcases h with rfl | ⟨letter, sign, digits, hletter, -, -, rfl⟩
  · exact nofun
  · rintro c ⟨⟩
    rcases hletter with rfl | rfl
    · decide
    · decide

theorem skipFraction?_append (h : IsFraction t)
    (hrest : ∀ c ∈ rest.head?, ¬c.isDigit ∧ c ≠ '.') : skipFraction? (t ++ rest) = some rest := by
  rcases h with rfl | ⟨digits, hdigits, rfl⟩
  · cases rest with
    | nil => rfl
    | cons c rest => exact skipFraction?.eq_2 _ fun _ heq => (hrest c rfl).2 (List.cons.inj heq).1
  · exact skipDigits?_append hdigits fun c hc => (hrest c hc).1

theorem skipSign_append (hsign : t = [] ∨ t = ['+'] ∨ t = ['-']) (h : IsDigits digits) :
    skipSign (t ++ digits) = digits := by
  obtain ⟨c, more, rfl, hc, -⟩ := h.exists_cons
  rcases hsign with rfl | rfl | rfl
  · refine skipSign.eq_3 _ ?_ ?_
    · rintro rest ⟨⟩
      exact absurd hc (by decide)
    · rintro rest ⟨⟩
      exact absurd hc (by decide)
  · rfl
  · rfl

theorem skipExponent?_of_isExponent (h : IsExponent t) : skipExponent? t = some [] := by
  rcases h with rfl | ⟨letter, sign, digits, hletter, hsign, hdigits, rfl⟩
  · rfl
  · have hskip : skipDigits? (skipSign (sign ++ digits)) = some [] := by
      rw [skipSign_append hsign hdigits, ← List.append_nil digits]
      exact skipDigits?_append hdigits nofun
    rcases hletter with rfl | rfl
    · exact hskip
    · exact hskip

theorem IsWhole.isDigits (h : IsWhole t) : IsDigits t := by
  rcases h with rfl | ⟨hdigits, -⟩
  · exact ⟨List.cons_ne_nil _ _, List.forall_mem_singleton.mpr rfl⟩
  · exact hdigits

theorem isNumber_of_isNumeral (h : IsNumeral t) : isNumber t := by
  obtain ⟨sign, whole, fraction, exponent, hsign, hwhole, hfraction, hexponent, rfl⟩ := h
  have hhead : ∀ c ∈ (fraction ++ exponent).head?, ¬c.isDigit := by
    rcases hfraction with rfl | ⟨digits, -, rfl⟩
    · exact fun c hc => (hexponent.head c hc).1
    · rintro c ⟨⟩
      decide
  have hskip : (skipWhole? (whole ++ (fraction ++ exponent)) >>= skipFraction? >>=
      skipExponent?) = some [] := by
    rw [skipWhole?_append hwhole hhead, Option.bind_eq_bind, Option.bind_some,
      skipFraction?_append hfraction hexponent.head, Option.bind_some,
      skipExponent?_of_isExponent hexponent]
  have hminus (rest : Text) : whole ++ (fraction ++ exponent) ≠ '-' :: rest := by
    obtain ⟨c, more, rfl, hc, -⟩ := hwhole.isDigits.exists_cons
    rintro ⟨⟩
    exact absurd hc (by decide)
  rcases hsign with rfl | rfl
  · rw [List.nil_append, isNumber]
    · exact beq_iff_eq.mpr hskip
    · exact hminus
  · exact beq_iff_eq.mpr hskip

theorem isNumberChar_of_isDigit (h : c.isDigit) : isNumberChar c := by
  simp [isNumberChar, h]

theorem IsNumeral.forall_isNumberChar (h : IsNumeral t) : ∀ c ∈ t, isNumberChar c := by
  obtain ⟨sign, whole, fraction, exponent, hsign, hwhole, hfraction, hexponent, rfl⟩ := h
  have hdigits {t : Text} (h : IsDigits t) : ∀ c ∈ t, isNumberChar c :=
    fun c hc => isNumberChar_of_isDigit (h.2 c hc)
  simp only [List.forall_mem_append]
  refine ⟨?_, hdigits hwhole.isDigits, ?_, ?_⟩
  · rcases hsign with rfl | rfl
    · exact nofun
    · exact List.forall_mem_singleton.mpr rfl
  · rcases hfraction with rfl | ⟨digits, h, rfl⟩
    · exact nofun
    · exact List.forall_mem_cons.mpr ⟨by decide, hdigits h⟩
  · rcases hexponent with rfl | ⟨letter, sign, digits, hletter, hsign, h, rfl⟩
    · exact nofun
    · refine List.forall_mem_cons.mpr ⟨?_, List.forall_mem_append.mpr ⟨?_, hdigits h⟩⟩
      · rcases hletter with rfl | rfl
        · decide
        · decide
      · rcases hsign with rfl | rfl | rfl
        · exact nofun
        · exact List.forall_mem_singleton.mpr rfl
        · exact List.forall_mem_singleton.mpr rfl

theorem IsNumeral.exists_cons (h : IsNumeral t) :
    ∃ c more, t = c :: more ∧ (c = '-' ∨ c.isDigit) := by
  obtain ⟨sign, whole, fraction, exponent, hsign, hwhole, -, -, rfl⟩ := h
  obtain ⟨c, more, rfl, hc, -⟩ := hwhole.isDigits.exists_cons
  rcases hsign with rfl | rfl
  · exact ⟨c, _, rfl, .inr hc⟩
  · exact ⟨'-', _, rfl, .inl rfl⟩

/-! ## String literals -/

theorem hexDigit?_of_isHexDigit (h : IsHexDigit c n) : hexDigit? c = some n := by
  have hsmall : ∀ i : Fin 16, hexDigit? ("0123456789abcdef".toList[i]) = some i.val := by decide
  have hcapital : ∀ i : Fin 16, hexDigit? ("0123456789ABCDEF".toList[i]) = some i.val := by decide
  rcases h with h | h
  · obtain ⟨hn, rfl⟩ := List.getElem?_eq_some_iff.mp h
    exact hsmall ⟨n, hn⟩
  · obtain ⟨hn, rfl⟩ := List.getElem?_eq_some_iff.mp h
    exact hcapital ⟨n, hn⟩

theorem hexValue?_of_isHexDigit {a b c d : Char} {i j k l : Nat} (ha : IsHexDigit a i)
    (hb : IsHexDigit b j) (hc : IsHexDigit c k) (hd : IsHexDigit d l) :
    hexValue? [a, b, c, d] = some (0x1000 * i + 0x100 * j + 0x10 * k + l) := by
  simp only [hexValue?, List.foldlM_cons, List.foldlM_nil, hexDigit?_of_isHexDigit ha,
    hexDigit?_of_isHexDigit hb, hexDigit?_of_isHexDigit hc, hexDigit?_of_isHexDigit hd,
    Option.map_some, Option.bind_eq_bind, Option.bind_some, Option.pure_def, Option.some.injEq]
  omega

theorem splitLiteral_cons (hbackslash : c ≠ '\\') (hquote : c ≠ '\x22') :
    splitLiteral (c :: t) = (splitLiteral t).map fun (body, rest) => (c :: body, rest) := by
  rw [splitLiteral, if_neg hquote]
  exact fun _ _ heq _ => hbackslash heq

theorem shortEscape?_of_mem {letter : Char} (h : (letter, c) ∈ shortEscapes) :
    shortEscape? letter = some c ∧ letter ≠ 'u' := by
  have hall : ∀ escape ∈ shortEscapes, shortEscape? escape.1 = some escape.2 ∧ escape.1 ≠ 'u' := by
    decide
  exact hall _ h

/-- A hexadecimal digit is neither a backslash nor a quote. -/
theorem IsHexDigit.ne (h : IsHexDigit c n) : c ≠ '\\' ∧ c ≠ '\x22' := by
  have hdigit := hexDigit?_of_isHexDigit h
  constructor
  · rintro rfl
    have hnone : hexDigit? '\\' = none := by decide
    exact absurd (hnone.symm.trans hdigit) nofun
  · rintro rfl
    have hnone : hexDigit? '\x22' = none := by decide
    exact absurd (hnone.symm.trans hdigit) nofun

theorem splitLiteral_append (h : IsBody pieces body) (rest : Text) :
    splitLiteral (body ++ '\x22' :: rest) = some (body, rest) := by
  induction h with
  | nil => rfl
  | cons spelled h ih =>
      cases spelled with
      | plain hquote hbackslash hcontrol =>
          rw [List.append_assoc, List.cons_append, List.nil_append,
            splitLiteral_cons hbackslash hquote, ih]
          rfl
      | short mem =>
          rw [List.append_assoc, List.cons_append, List.cons_append, List.nil_append, splitLiteral,
            ih]
          rfl
      | unit ha hb hc hd =>
          simp only [List.cons_append, List.nil_append, splitLiteral,
            splitLiteral_cons ha.ne.1 ha.ne.2, splitLiteral_cons hb.ne.1 hb.ne.2,
            splitLiteral_cons hc.ne.1 hc.ne.2, splitLiteral_cons hd.ne.1 hd.ne.2, ih,
            Option.map_some]

theorem pieces?_of_isBody (h : IsBody pieces body) : pieces? body = some pieces := by
  induction h with
  | nil => rfl
  | cons spelled h ih =>
      cases spelled with
      | @plain c hquote hbackslash hcontrol =>
          have hplain : ¬(c = '\\' ∨ c.toNat < 0x20) :=
            not_or.mpr ⟨hbackslash, Nat.not_lt.mpr hcontrol⟩
          rw [List.cons_append, List.nil_append,
            pieces?.eq_4 _ _ (fun _ _ _ _ _ h => absurd h hbackslash)
              (fun _ _ h => absurd h hbackslash), if_neg hplain, ih]
          rfl
      | short mem =>
          obtain ⟨hescape, hne⟩ := shortEscape?_of_mem mem
          rw [List.cons_append, List.cons_append, List.nil_append,
            pieces?.eq_3 _ _ (fun _ _ _ _ _ h => absurd h hne), hescape, ih]
          rfl
      | unit ha hb hc hd =>
          have hvalue := hexValue?_of_isHexDigit ha hb hc hd
          simp only [List.cons_append, List.nil_append, pieces?, hvalue, ih]
          rfl

/-! ## Tokens -/

/-- Whether a text goes on with neither a number nor a word. -/
def Ends (t : Text) : Prop := ∀ c ∈ t.head?, ¬isNumberChar c ∧ ¬c.isAlpha

theorem tokens?_append_of_isBlanks (h : IsBlanks t) (rest : Text) :
    tokens? (t ++ rest) = tokens? rest := by
  induction t with
  | nil => rfl
  | cons c t ih =>
      obtain ⟨hc, ht⟩ := List.forall_mem_cons.mp h
      rw [List.cons_append, tokens?, if_pos hc, ih ht]

theorem ends_append_of_isBlanks (h : IsBlanks t) (hrest : Ends rest) : Ends (t ++ rest) := by
  cases t with
  | nil => exact hrest
  | cons c t =>
      rintro d ⟨⟩
      obtain ⟨hc, -⟩ := List.forall_mem_cons.mp h
      simp only [isBlank, Bool.or_eq_true, beq_iff_eq] at hc
      rcases hc with ((rfl | rfl) | rfl) | rfl <;> decide

theorem not_isNumberChar_of_punctuation (h : punctuation? c = some token) :
    ¬isBlank c ∧ c ≠ '\x22' ∧ ¬isNumberChar c ∧ ¬c.isAlpha := by
  have hmem : c = '[' ∨ c = ']' ∨ c = '\x7b' ∨ c = '\x7d' ∨ c = ',' ∨ c = ':' := by
    refine Decidable.byContradiction fun hnot => ?_
    simp only [not_or] at hnot
    simp [punctuation?, hnot] at h
  rcases hmem with rfl | rfl | rfl | rfl | rfl | rfl <;> decide

theorem tokens?_cons_of_punctuation (h : punctuation? c = some token) (rest : Text) :
    tokens? (c :: rest) = (tokens? rest).map (token :: ·) := by
  obtain ⟨hblank, hquote, hnumber, halpha⟩ := not_isNumberChar_of_punctuation h
  have hnumber : ¬(isNumberChar c && !c.isAlpha) := by simp [hnumber]
  rw [tokens?, if_neg hblank, if_neg hquote, if_neg hnumber, if_neg halpha, h]
  exact bind_pure_comp (token :: ·) (tokens? rest)

theorem tokens?_literal (h : IsBody pieces body) (rest : Text) :
    tokens? ('\x22' :: (body ++ '\x22' :: rest)) = (tokens? rest).map (.string pieces :: ·) := by
  rw [tokens?, if_neg (by decide), if_pos rfl]
  split
  next body' rest' heq =>
    rw [splitLiteral_append h] at heq
    obtain ⟨rfl, rfl⟩ := Prod.mk.inj (Option.some.inj heq)
    rw [pieces?_of_isBody h]
    exact bind_pure_comp (.string pieces :: ·) (tokens? rest)
  next heq =>
    rw [splitLiteral_append h] at heq
    cases heq

theorem not_isAlpha_of_isDigit (h : c.isDigit) : ¬c.isAlpha := by
  have hnine : c.val ≤ '9'.val := of_decide_eq_true (Bool.and_eq_true_iff.mp h).2
  have hnot {first : Char} (hle : first.val ≤ c.val) : first.val ≤ '9'.val :=
    UInt32.le_trans hle hnine
  intro halpha
  have hclass : (c.isUpper || c.isLower) = true := halpha
  rcases Bool.or_eq_true_iff.mp hclass with hupper | hlower
  · exact absurd (hnot (of_decide_eq_true hupper).1) (by decide)
  · exact absurd (hnot (of_decide_eq_true (Bool.and_eq_true_iff.mp hlower).1)) (by decide)

theorem tokens?_numeral (h : IsNumeral t) (hrest : Ends rest) :
    tokens? (t ++ rest) = (tokens? rest).map (.number t :: ·) := by
  have hnumber := isNumber_of_isNumeral h
  have hchars := h.forall_isNumberChar
  obtain ⟨c, more, rfl, hc⟩ := h.exists_cons
  obtain ⟨-, hmore⟩ := List.forall_mem_cons.mp hchars
  have hhead : ∀ c ∈ rest.head?, ¬isNumberChar c := fun c hc => (hrest c hc).1
  have hfirst : ¬isBlank c ∧ c ≠ '\x22' ∧ (isNumberChar c && !c.isAlpha) := by
    rcases hc with rfl | hdigit
    · decide
    · refine ⟨?_, ?_, ?_⟩
      · simp only [isBlank, Bool.or_eq_true, beq_iff_eq]
        rintro (((rfl | rfl) | rfl) | rfl) <;> exact absurd hdigit (by decide)
      · rintro rfl
        exact absurd hdigit (by decide)
      · simp [isNumberChar_of_isDigit hdigit, not_isAlpha_of_isDigit hdigit]
  obtain ⟨hblank, hquote, hfirst⟩ := hfirst
  rw [List.cons_append, tokens?, if_neg hblank, if_neg hquote, if_pos hfirst,
    takeWhile_append_of_head hmore hhead, dropWhile_append_of_head hmore hhead]
  exact if_pos hnumber

theorem tokens?_word (h : word? t = some token) (hrest : Ends rest) :
    tokens? (t ++ rest) = (tokens? rest).map (token :: ·) := by
  have hcons : ∃ c more, t = c :: more ∧ c.isAlpha ∧ more.all Char.isAlpha ∧ ¬isBlank c ∧
      c ≠ '\x22' := by
    have hmem : t = "null".toList ∨ t = "true".toList ∨ t = "false".toList := by
      refine Decidable.byContradiction fun hnot => ?_
      obtain ⟨hnull, hnot⟩ := not_or.mp hnot
      obtain ⟨htrue, hfalse⟩ := not_or.mp hnot
      rw [word?, if_neg hnull, if_neg htrue, if_neg hfalse] at h
      cases h
    rcases hmem with rfl | rfl | rfl
    · exact ⟨'n', _, rfl, by decide⟩
    · exact ⟨'t', _, rfl, by decide⟩
    · exact ⟨'f', _, rfl, by decide⟩
  obtain ⟨c, more, rfl, hc, hmore, hblank, hquote⟩ := hcons
  have hmore : ∀ c ∈ more, c.isAlpha := List.all_eq_true.mp hmore
  have hnumber : ¬(isNumberChar c && !c.isAlpha) := by simp [hc]
  have hhead : ∀ c ∈ rest.head?, ¬c.isAlpha := fun c hc => (hrest c hc).2
  rw [List.cons_append, tokens?, if_neg hblank, if_neg hquote, if_neg hnumber, if_pos hc,
    takeWhile_append_of_head hmore hhead, dropWhile_append_of_head hmore hhead, h]
  exact bind_pure_comp (token :: ·) (tokens? rest)

/-! ## Texts in a row -/

/-- Whether the tokens of a text come before those of what stands behind it. -/
def Tokenizes (t : Text) (tokens : List Token) : Prop :=
  ∀ rest more, Ends rest → tokens? rest = some more → tokens? (t ++ rest) = some (tokens ++ more)

theorem Tokenizes.tokens?_eq (h : Tokenizes t tokens) : tokens? t = some tokens := by
  have htokens := h [] [] nofun tokens?.eq_1
  rwa [List.append_nil, List.append_nil] at htokens

theorem tokenizes_of_map (h : ∀ rest, Ends rest → tokens? (t ++ rest) =
    (tokens? rest).map (token :: ·)) : Tokenizes t [token] := by
  intro rest more hrest hmore
  rw [h rest hrest, hmore]
  rfl

theorem tokenizes_nil : Tokenizes [] [] := fun _ _ _ hmore => hmore

theorem tokenizes_of_isBlanks (h : IsBlanks t) : Tokenizes t [] := by
  intro rest more hrest hmore
  rw [tokens?_append_of_isBlanks h, hmore, List.nil_append]

theorem Tokenizes.padded (h : Tokenizes t tokens) (hfront : IsBlanks front)
    (hbehind : IsBlanks behind) : Tokenizes (front ++ t ++ behind) tokens := by
  intro rest more hrest hmore
  rw [List.append_assoc, List.append_assoc, tokens?_append_of_isBlanks hfront]
  exact h _ _ (ends_append_of_isBlanks hbehind hrest)
    ((tokens?_append_of_isBlanks hbehind rest).trans hmore)

theorem Tokenizes.cons_of_punctuation (h : Tokenizes t tokens)
    (hc : punctuation? c = some token) : Tokenizes (c :: t) (token :: tokens) := by
  intro rest more hrest hmore
  rw [List.cons_append, tokens?_cons_of_punctuation hc, h rest more hrest hmore]
  rfl

/-- Whatever stands in front of punctuation ends there. -/
theorem Tokenizes.append_of_punctuation (h : Tokenizes t tokens)
    (hc : punctuation? c = some token) (hu : Tokenizes u others) :
    Tokenizes (t ++ c :: u) (tokens ++ token :: others) := by
  intro rest more hrest hmore
  have hends : Ends (c :: u ++ rest) := by
    obtain ⟨-, -, hends⟩ := not_isNumberChar_of_punctuation hc
    rintro d ⟨⟩
    exact hends
  rw [List.append_assoc, List.append_assoc]
  exact h _ _ hends (hu.cons_of_punctuation hc rest more hrest hmore)

end MarkupPairs.Json
