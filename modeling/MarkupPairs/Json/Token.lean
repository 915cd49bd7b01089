import MarkupPairs.Text

/-!
# Tokens of JSON

A text in JSON is a row of tokens with blanks in between. A string literal keeps its pieces: an
escape may name half of a surrogate pair, which is well formed as a literal even where it stands for
no text. A number keeps its spelling.
-/

namespace MarkupPairs.Json

inductive Piece where
  /-- A character, as it is or by a short escape. -/
  | char (c : Char)
  /-- A code unit, by an escape of four hexadecimal digits. -/
  | unit (code : Nat)
deriving DecidableEq

inductive Token where
  | openBracket
  | closeBracket
  | openBrace
  | closeBrace
  | comma
  | colon
  | null
  | bool (b : Bool)
  | number (spelling : Text)
  | string (pieces : List Piece)
deriving DecidableEq

def isBlank (c : Char) : Bool := c == ' ' || c == '\t' || c == '\n' || c == '\r'

def hexDigit? (c : Char) : Option Nat :=
  if c.isDigit then some (c.toNat - '0'.toNat)
  else if 'a' ≤ c ∧ c ≤ 'f' then some (c.toNat - 'a'.toNat + 10)
  else if 'A' ≤ c ∧ c ≤ 'F' then some (c.toNat - 'A'.toNat + 10)
  else none

/-- The value of hexadecimal digits, the first one the highest. -/
def hexValue? (digits : Text) : Option Nat :=
  digits.foldlM (fun value c => (hexDigit? c).map (16 * value + ·)) 0

def shortEscape? (c : Char) : Option Char :=
  if c = '\x22' ∨ c = '\\' ∨ c = '/' then some c
  else if c = 'b' then some '\x08'
  else if c = 'f' then some '\x0c'
  else if c = 'n' then some '\n'
  else if c = 'r' then some '\r'
  else if c = 't' then some '\t'
  else none

/-- Splits what follows an opening quote at the quote that closes the literal. A character after a
backslash closes nothing. -/
def splitLiteral : Text → Option (Text × Text)
  | [] => none
  | '\\' :: c :: rest => (splitLiteral rest).map fun (body, rest) => ('\\' :: c :: body, rest)
  | c :: rest =>
    if c = '\x22' then some ([], rest)
    else (splitLiteral rest).map fun (body, rest) => (c :: body, rest)

/-- The pieces of what stands between the quotes of a literal. Control characters are refused. -/
def pieces? : Text → Option (List Piece)
  | [] => some []
  | '\\' :: 'u' :: a :: b :: c :: d :: rest => do
    let code ← hexValue? [a, b, c, d]
    return .unit code :: (← pieces? rest)
  | '\\' :: c :: rest => do
    let c ← shortEscape? c
    return .char c :: (← pieces? rest)
  | c :: rest =>
    if c = '\\' ∨ c.toNat < 0x20 then none else (pieces? rest).map (.char c :: ·)

/-- Passes over digits, of which there must be one. -/
def skipDigits? (t : Text) : Option Text :=
  match t with
  | c :: rest => if c.isDigit then some (rest.dropWhile Char.isDigit) else none
  | [] => none

/-- Passes over the whole part of a number: a zero, or digits of which the first is no zero. -/
def skipWhole? : Text → Option Text
  | '0' :: rest => some rest
  | t => skipDigits? t

def skipFraction? : Text → Option Text
  | '.' :: rest => skipDigits? rest
  | t => some t

def skipSign : Text → Text
  | '+' :: rest => rest
  | '-' :: rest => rest
  | t => t

def skipExponent? : Text → Option Text
  | 'e' :: rest => skipDigits? (skipSign rest)
  | 'E' :: rest => skipDigits? (skipSign rest)
  | t => some t

def isNumber (t : Text) : Bool :=
  let unsigned := match t with
    | '-' :: rest => rest
    | _ => t
  (skipWhole? unsigned >>= skipFraction? >>= skipExponent?) == some []

def isNumberChar (c : Char) : Bool :=
  c.isDigit || c == '-' || c == '+' || c == '.' || c == 'e' || c == 'E'

def punctuation? (c : Char) : Option Token :=
  if c = '[' then some .openBracket
  else if c = ']' then some .closeBracket
  else if c = '\x7b' then some .openBrace
  else if c = '\x7d' then some .closeBrace
  else if c = ',' then some .comma
  else if c = ':' then some .colon
  else none

def word? (t : Text) : Option Token :=
  if t = "null".toList then some .null
  else if t = "true".toList then some (.bool true)
  else if t = "false".toList then some (.bool false)
  else none

theorem length_of_splitLiteral {t body rest : Text} (h : splitLiteral t = some (body, rest)) :
    rest.length < t.length := by
  fun_induction splitLiteral t generalizing body rest with
  | case1 => simp at h
  | case2 c t ih =>
    obtain ⟨⟨body', rest'⟩, h', heq⟩ := Option.map_eq_some_iff.mp h
    obtain ⟨-, rfl⟩ := Prod.mk.inj heq
    have := ih h'
    simp only [List.length_cons]
    omega
  | case3 => simp_all
  | case4 c t _ _ ih =>
    obtain ⟨⟨body', rest'⟩, h', heq⟩ := Option.map_eq_some_iff.mp h
    obtain ⟨-, rfl⟩ := Prod.mk.inj heq
    have := ih h'
    simp only [List.length_cons]
    omega

def tokens? : Text → Option (List Token)
  | [] => some []
  | c :: rest =>
    if isBlank c then tokens? rest
    else if c = '\x22' then
      match _h : splitLiteral rest with
      | some (body, rest) => do
        let pieces ← pieces? body
        return .string pieces :: (← tokens? rest)
      | none => none
    else if isNumberChar c && !c.isAlpha then
      let spelling := c :: rest.takeWhile isNumberChar
      if isNumber spelling then (tokens? (rest.dropWhile isNumberChar)).map (.number spelling :: ·)
      else none
    else if c.isAlpha then do
      let word ← word? (c :: rest.takeWhile Char.isAlpha)
      return word :: (← tokens? (rest.dropWhile Char.isAlpha))
    else do
      let token ← punctuation? c
      return token :: (← tokens? rest)
termination_by t => t.length
decreasing_by
  all_goals simp only [List.length_cons]
  · omega
  · have := length_of_splitLiteral _h
    omega
  · exact Nat.lt_succ_of_le (List.dropWhile_sublist _).length_le
  · exact Nat.lt_succ_of_le (List.dropWhile_sublist _).length_le
  · omega

end MarkupPairs.Json
