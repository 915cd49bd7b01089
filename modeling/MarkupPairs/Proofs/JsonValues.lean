import MarkupPairs.Json.Value
import MarkupPairs.Proofs.JsonTokens

/-!
# Spellings of values of JSON

The grammar of JSON, and that a text is read as the value that it spells. Blanks may stand around
every value and every key, and between the brackets of what is empty.
-/

namespace MarkupPairs.Json

variable {t u rest body key : Text} {text? key? : Option Text} {tokens more : List Token}
  {pieces : List Piece} {j : Json} {items : List Json} {fields : List (Option Text × Json)}
  {code : Nat}

/-! ## The grammar -/

/-- The text that the pieces of a literal stand for. Two halves of a surrogate pair are a character,
and half of one by itself is none. -/
inductive Denotes : List Piece → Text → Prop where
  | nil : Denotes [] []
  | char (c : Char) {pieces : List Piece} {t : Text} (rest : Denotes pieces t) :
      Denotes (.char c :: pieces) (c :: t)
  | unit {code : Nat} {pieces : List Piece} {t : Text} (whole : code < 0xd800 ∨ 0xe000 ≤ code)
      (rest : Denotes pieces t) : Denotes (.unit code :: pieces) (Char.ofNat code :: t)
  | pair {high low : Nat} {pieces : List Piece} {t : Text}
      (first : 0xd800 ≤ high ∧ high < 0xdc00) (second : 0xdc00 ≤ low ∧ low < 0xe000)
      (rest : Denotes pieces t) : Denotes (.unit high :: .unit low :: pieces)
        (Char.ofNat (0x10000 + 0x400 * (high - 0xd800) + (low - 0xdc00)) :: t)

/-- A string literal, with the text that it stands for if there is one. -/
def IsLiteral (text? : Option Text) (t : Text) : Prop :=
  ∃ pieces body, IsBody pieces body ∧ (∀ v, text? = some v ↔ Denotes pieces v) ∧
    t = '\x22' :: (body ++ ['\x22'])

mutual

/-- Whether a text spells a value. -/
inductive IsSpelled : Json → Text → Prop where
  | padded {j : Json} {front t behind : Text} (hfront : IsBlanks front) (value : IsSpelled j t)
      (hbehind : IsBlanks behind) : IsSpelled j (front ++ t ++ behind)
  | null : IsSpelled .null "null".toList
  | true : IsSpelled (.bool true) "true".toList
  | false : IsSpelled (.bool false) "false".toList
  | number {t : Text} (numeral : IsNumeral t) : IsSpelled (.number t) t
  | string {text? : Option Text} {t : Text} (literal : IsLiteral text? t) :
      IsSpelled (.string text?) t
  | emptyArray {t : Text} (blanks : IsBlanks t) : IsSpelled (.array []) ('[' :: (t ++ [']']))
  | array {items : List Json} {t : Text} (spelled : AreItems items t) :
      IsSpelled (.array items) ('[' :: (t ++ [']']))
  | emptyObject {t : Text} (blanks : IsBlanks t) :
      IsSpelled (.object []) ('\x7b' :: (t ++ ['\x7d']))
  | object {fields : List (Option Text × Json)} {t : Text} (spelled : AreFields fields t) :
      IsSpelled (.object fields) ('\x7b' :: (t ++ ['\x7d']))

/-- Whether a text spells the items of an array. -/
inductive AreItems : List Json → Text → Prop where
  | one {j : Json} {t : Text} (item : IsSpelled j t) : AreItems [j] t
  | cons {j : Json} {items : List Json} {t u : Text} (item : IsSpelled j t)
      (rest : AreItems items u) : AreItems (j :: items) (t ++ ',' :: u)

/-- Whether a text spells the fields of an object. -/
inductive AreFields : List (Option Text × Json) → Text → Prop where
  | one {key? : Option Text} {j : Json} {front key behind t : Text} (hfront : IsBlanks front)
      (literal : IsLiteral key? key) (hbehind : IsBlanks behind) (value : IsSpelled j t) :
      AreFields [(key?, j)] (front ++ key ++ behind ++ ':' :: t)
  | cons {key? : Option Text} {j : Json} {fields : List (Option Text × Json)}
      {front key behind t u : Text} (hfront : IsBlanks front) (literal : IsLiteral key? key)
      (hbehind : IsBlanks behind) (value : IsSpelled j t) (rest : AreFields fields u) :
      AreFields ((key?, j) :: fields) (front ++ key ++ behind ++ ':' :: (t ++ ',' :: u))

end

/-! ## The text of a literal -/

theorem textOf_unit (h : code < 0xd800 ∨ 0xe000 ≤ code) (pieces : List Piece) :
    textOf (.unit code :: pieces) = (textOf pieces).map (Char.ofNat code :: ·) := by
  have hhigh : ¬(0xd800 ≤ code ∧ code < 0xdc00) := by omega
  have hlow : ¬(0xdc00 ≤ code ∧ code < 0xe000) := by omega
  have hhalf : ¬(0xd800 ≤ code ∧ code < 0xe000) := by omega
  match pieces with
  | .unit low :: rest => rw [textOf, if_neg hhigh, if_neg hlow]
  | [] => exact if_neg hhalf
  | .char c :: rest => exact if_neg hhalf

theorem textOf_eq_some_iff : textOf pieces = some t ↔ Denotes pieces t := by
  constructor
  · intro h
    fun_induction textOf pieces generalizing t with
    | case1 =>
      cases h
      exact .nil
    | case2 c rest ih =>
      obtain ⟨u, hu, rfl⟩ := Option.map_eq_some_iff.mp h
      exact .char c (ih hu)
    | case3 high low rest hfirst hsecond ih =>
      obtain ⟨u, hu, rfl⟩ := Option.map_eq_some_iff.mp h
      exact .pair hfirst hsecond (ih hu)
    | case4 => cases h
    | case5 => cases h
    | case6 high low rest hfirst hsecond ih =>
      obtain ⟨u, hu, rfl⟩ := Option.map_eq_some_iff.mp h
      exact .unit (by omega) (ih hu)
    | case7 => cases h
    | case8 code rest hpair hhalf ih =>
      obtain ⟨u, hu, rfl⟩ := Option.map_eq_some_iff.mp h
      exact .unit (by omega) (ih hu)
  · intro h
    induction h with
    | nil => rfl
    | char c rest ih => rw [textOf, ih, Option.map_some]
    | unit whole rest ih => rw [textOf_unit whole, ih, Option.map_some]
    | pair first second rest ih => rw [textOf, if_pos first, if_pos second, ih, Option.map_some]

/-- The tokens of a literal are one, which stands for its text. -/
theorem IsLiteral.exists_pieces (h : IsLiteral text? t) :
    ∃ pieces, textOf pieces = text? ∧ ∀ rest,
      tokens? (t ++ rest) = (tokens? rest).map (.string pieces :: ·) := by
  obtain ⟨pieces, body, hbody, hdenotes, rfl⟩ := h
  refine ⟨pieces, ?_, fun rest => ?_⟩
  · refine Option.ext fun v => ?_
    rw [textOf_eq_some_iff, ← hdenotes]
  · rw [List.cons_append, List.append_assoc]
    exact tokens?_literal hbody rest

/-- Plain characters stand for themselves. -/
theorem isLiteral_of_plain (h : t.all fun c => c ≠ '\x22' ∧ c ≠ '\\' ∧ 0x20 ≤ c.toNat) :
    IsLiteral (some t) ('\x22' :: (t ++ ['\x22'])) := by
  have hbody : IsBody (t.map .char) t := by
    induction t with
    | nil => exact .nil
    | cons c t ih =>
        rw [List.all_cons, Bool.and_eq_true, decide_eq_true_eq] at h
        obtain ⟨⟨hquote, hbackslash, hcontrol⟩, ht⟩ := h
        exact .cons (.plain hquote hbackslash hcontrol) (ih ht)
  have htext (t : Text) : textOf (t.map .char) = some t := by
    induction t with
    | nil => rfl
    | cons c t ih => rw [List.map_cons, textOf, ih, Option.map_some]
  refine ⟨t.map .char, t, hbody, fun v => ?_, rfl⟩
  rw [← textOf_eq_some_iff, htext]

/-! ## Reading tokens -/

/-- Whether a value is read off the front of some tokens, whatever stands behind them, in fewer than
two steps a token. -/
structure ReadsValue (tokens : List Token) (j : Json) : Prop where
  starts : ∃ first more, tokens = first :: more ∧ first ≠ .closeBracket
  reads : ∀ fuel rest, 2 * tokens.length ≤ fuel + 1 →
    readValue fuel (tokens ++ rest) = some (j, rest)

/-- Whether the items of an array are read off some tokens, with the bracket behind them. -/
structure ReadsItems (tokens : List Token) (items : List Json) : Prop where
  starts : ∃ first more, tokens = first :: more ∧ first ≠ .closeBracket
  reads : ∀ fuel rest, 2 * tokens.length ≤ fuel →
    readItems fuel (tokens ++ .closeBracket :: rest) = some (items, rest)

/-- Whether the fields of an object are read off some tokens, with the brace behind them. -/
structure ReadsFields (tokens : List Token) (fields : List (Option Text × Json)) : Prop where
  starts : ∃ pieces more, tokens = .string pieces :: more
  reads : ∀ fuel rest, 2 * tokens.length ≤ fuel →
    readFields fuel (tokens ++ .closeBrace :: rest) = some (fields, rest)

theorem readsValue_of_atom {token : Token} (htoken : token ≠ .closeBracket)
    (h : ∀ fuel rest, readValue (fuel + 1) (token :: rest) = some (j, rest)) :
    ReadsValue [token] j := by
  refine ⟨⟨token, [], rfl, htoken⟩, fun fuel rest hfuel => ?_⟩
  cases fuel with
  | zero => simp at hfuel
  | succ fuel => exact h fuel rest

theorem ReadsItems.one (h : ReadsValue tokens j) : ReadsItems tokens [j] := by
  refine ⟨h.starts, fun fuel rest hfuel => ?_⟩
  obtain ⟨first, more, rfl, -⟩ := h.starts
  cases fuel with
  | zero => cases hfuel
  | succ fuel =>
      rw [readItems, h.reads fuel _ hfuel]
      rfl

theorem ReadsItems.cons (h : ReadsValue tokens j) (hmore : ReadsItems more items) :
    ReadsItems (tokens ++ .comma :: more) (j :: items) := by
  obtain ⟨first, others, heq, hfirst⟩ := h.starts
  refine ⟨⟨first, others ++ .comma :: more, by rw [heq, List.cons_append], hfirst⟩, ?_⟩
  intro fuel rest hfuel
  rw [List.length_append, List.length_cons] at hfuel
  cases fuel with
  | zero => omega
  | succ fuel =>
      rw [readItems, List.append_assoc, List.cons_append, h.reads fuel _ (by omega)]
      simp only [Option.bind_eq_bind, Option.bind_some]
      rw [hmore.reads fuel rest (by omega)]
      rfl

theorem ReadsItems.array (h : ReadsItems tokens items) :
    ReadsValue (.openBracket :: (tokens ++ [.closeBracket])) (.array items) := by
  refine ⟨⟨_, _, rfl, nofun⟩, fun fuel rest hfuel => ?_⟩
  obtain ⟨first, more, rfl, hfirst⟩ := h.starts
  simp only [List.length_cons, List.length_append, List.length_nil] at hfuel
  cases fuel with
  | zero => omega
  | succ fuel =>
      have hread := h.reads fuel rest (by simp only [List.length_cons]; omega)
      rw [List.cons_append, List.append_assoc, List.singleton_append, List.cons_append, readValue,
        ← List.cons_append, hread]
      · rfl
      · -- the first token closes no array, so this one is not empty
        rintro rest' ⟨⟩
        exact hfirst rfl

theorem ReadsFields.one (h : ReadsValue tokens j) :
    ReadsFields (.string pieces :: .colon :: tokens) [(textOf pieces, j)] := by
  refine ⟨⟨pieces, _, rfl⟩, fun fuel rest hfuel => ?_⟩
  simp only [List.length_cons] at hfuel
  cases fuel with
  | zero => omega
  | succ fuel =>
      rw [List.cons_append, List.cons_append, readFields, h.reads fuel _ (by omega)]
      rfl

theorem ReadsFields.cons (h : ReadsValue tokens j) (hmore : ReadsFields more fields) :
    ReadsFields (.string pieces :: .colon :: (tokens ++ .comma :: more))
      ((textOf pieces, j) :: fields) := by
  refine ⟨⟨pieces, _, rfl⟩, fun fuel rest hfuel => ?_⟩
  simp only [List.length_cons, List.length_append] at hfuel
  cases fuel with
  | zero => omega
  | succ fuel =>
      rw [List.cons_append, List.cons_append, readFields, List.append_assoc, List.cons_append,
        h.reads fuel _ (by omega)]
      simp only [Option.bind_eq_bind, Option.bind_some]
      rw [hmore.reads fuel rest (by omega)]
      rfl

theorem ReadsFields.object (h : ReadsFields tokens fields) :
    ReadsValue (.openBrace :: (tokens ++ [.closeBrace])) (.object fields) := by
  refine ⟨⟨_, _, rfl, nofun⟩, fun fuel rest hfuel => ?_⟩
  obtain ⟨pieces, more, rfl⟩ := h.starts
  simp only [List.length_cons, List.length_append, List.length_nil] at hfuel
  cases fuel with
  | zero => omega
  | succ fuel =>
      have hread := h.reads fuel rest (by simp only [List.length_cons]; omega)
      rw [List.cons_append, List.append_assoc, List.singleton_append, List.cons_append, readValue,
        ← List.cons_append, hread]
      · rfl
      · exact nofun

/-! ## Reading texts -/

mutual

/-- The tokens of a text that spells a value are those that the value is read from. -/
theorem IsSpelled.exists_tokens {j : Json} {t : Text} (h : IsSpelled j t) :
    ∃ tokens, Tokenizes t tokens ∧ ReadsValue tokens j := by
  match h with
  | .padded hfront value hbehind =>
      obtain ⟨tokens, htokens, hreads⟩ := value.exists_tokens
      exact ⟨tokens, htokens.padded hfront hbehind, hreads⟩
  | .null =>
      exact ⟨_, tokenizes_of_map fun rest hrest => tokens?_word rfl hrest,
        readsValue_of_atom nofun fun _ _ => rfl⟩
  | .true =>
      exact ⟨_, tokenizes_of_map fun rest hrest => tokens?_word rfl hrest,
        readsValue_of_atom nofun fun _ _ => rfl⟩
  | .false =>
      exact ⟨_, tokenizes_of_map fun rest hrest => tokens?_word rfl hrest,
        readsValue_of_atom nofun fun _ _ => rfl⟩
  | .number numeral =>
      exact ⟨_, tokenizes_of_map fun rest hrest => tokens?_numeral numeral hrest,
        readsValue_of_atom nofun fun _ _ => rfl⟩
  | .string literal =>
      obtain ⟨pieces, rfl, htokens⟩ := literal.exists_pieces
      exact ⟨_, tokenizes_of_map fun rest _ => htokens rest,
        readsValue_of_atom nofun fun _ _ => rfl⟩
  | .emptyArray blanks =>
      refine ⟨_, ((tokenizes_of_isBlanks blanks).append_of_punctuation rfl
        tokenizes_nil).cons_of_punctuation rfl, ⟨_, _, rfl, nofun⟩, fun fuel rest hfuel => ?_⟩
      cases fuel with
      | zero => simp at hfuel
      | succ fuel => rfl
  | .array spelled =>
      obtain ⟨tokens, htokens, hreads⟩ := spelled.exists_tokens
      exact ⟨_, (htokens.append_of_punctuation rfl tokenizes_nil).cons_of_punctuation rfl,
        hreads.array⟩
  | .emptyObject blanks =>
      refine ⟨_, ((tokenizes_of_isBlanks blanks).append_of_punctuation rfl
        tokenizes_nil).cons_of_punctuation rfl, ⟨_, _, rfl, nofun⟩, fun fuel rest hfuel => ?_⟩
      cases fuel with
      | zero => simp at hfuel
      | succ fuel => rfl
  | .object spelled =>
      obtain ⟨tokens, htokens, hreads⟩ := spelled.exists_tokens
      exact ⟨_, (htokens.append_of_punctuation rfl tokenizes_nil).cons_of_punctuation rfl,
        hreads.object⟩

theorem AreItems.exists_tokens {items : List Json} {t : Text} (h : AreItems items t) :
    ∃ tokens, Tokenizes t tokens ∧ ReadsItems tokens items := by
  match h with
  | .one item =>
      obtain ⟨tokens, htokens, hreads⟩ := item.exists_tokens
      exact ⟨tokens, htokens, .one hreads⟩
  | .cons item rest =>
      obtain ⟨tokens, htokens, hreads⟩ := item.exists_tokens
      obtain ⟨more, hmore, hreadsmore⟩ := rest.exists_tokens
      exact ⟨_, htokens.append_of_punctuation rfl hmore, .cons hreads hreadsmore⟩

theorem AreFields.exists_tokens {fields : List (Option Text × Json)} {t : Text}
    (h : AreFields fields t) : ∃ tokens, Tokenizes t tokens ∧ ReadsFields tokens fields := by
  match h with
  | .one hfront literal hbehind value =>
      obtain ⟨pieces, rfl, hkey⟩ := literal.exists_pieces
      obtain ⟨tokens, htokens, hreads⟩ := value.exists_tokens
      have hname := (tokenizes_of_map fun rest _ => hkey rest).padded hfront hbehind
      exact ⟨_, hname.append_of_punctuation rfl htokens, .one hreads⟩
  | .cons hfront literal hbehind value rest =>
      obtain ⟨pieces, rfl, hkey⟩ := literal.exists_pieces
      obtain ⟨tokens, htokens, hreads⟩ := value.exists_tokens
      obtain ⟨more, hmore, hreadsmore⟩ := rest.exists_tokens
      have hname := (tokenizes_of_map fun rest _ => hkey rest).padded hfront hbehind
      exact ⟨_, hname.append_of_punctuation rfl (htokens.append_of_punctuation rfl hmore),
        .cons hreads hreadsmore⟩

end

/-- A text is read as the value that it spells. -/
theorem parse?_of_isSpelled (h : IsSpelled j t) : parse? t = some j := by
  obtain ⟨tokens, htokens, hreads⟩ := h.exists_tokens
  have hread := hreads.reads (2 * tokens.length + 1) [] (by omega)
  rw [List.append_nil] at hread
  rw [parse?, htokens.tokens?_eq, Option.bind_eq_bind, Option.bind_some, hread]
  rfl

end MarkupPairs.Json
