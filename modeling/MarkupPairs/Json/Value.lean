import MarkupPairs.Json.Token

/-!
# Values of JSON

A value keeps the order and the repetitions of an object's fields, and the spelling of numbers. A
string that names half of a surrogate pair has no text.
-/

namespace MarkupPairs

inductive Json where
  | null
  | bool (b : Bool)
  | number (spelling : Text)
  | string (text? : Option Text)
  | array (items : List Json)
  | object (fields : List (Option Text × Json))

namespace Json

/-- The text that the pieces of a literal stand for: two halves of a surrogate pair one right after
the other are a character, and one half by itself is none. -/
def textOf : List Piece → Option Text
  | [] => some []
  | .char c :: rest => (textOf rest).map (c :: ·)
  | .unit high :: .unit low :: rest =>
    if 0xd800 ≤ high ∧ high < 0xdc00 then
      if 0xdc00 ≤ low ∧ low < 0xe000 then
        (textOf rest).map (Char.ofNat (0x10000 + 0x400 * (high - 0xd800) + (low - 0xdc00)) :: ·)
      else none
    else if 0xdc00 ≤ high ∧ high < 0xe000 then none
    else (textOf (.unit low :: rest)).map (Char.ofNat high :: ·)
  | .unit code :: rest =>
    if 0xd800 ≤ code ∧ code < 0xe000 then none else (textOf rest).map (Char.ofNat code :: ·)

mutual

/-- Reads one value off the front of some tokens, with `fuel` steps at most. -/
def readValue : Nat → List Token → Option (Json × List Token)
  | 0, _ => none
  | fuel + 1, tokens =>
    match tokens with
    | .null :: rest => some (.null, rest)
    | .bool b :: rest => some (.bool b, rest)
    | .number spelling :: rest => some (.number spelling, rest)
    | .string pieces :: rest => some (.string (textOf pieces), rest)
    | .openBracket :: .closeBracket :: rest => some (.array [], rest)
    | .openBracket :: rest => (readItems fuel rest).map fun (items, rest) => (.array items, rest)
    | .openBrace :: .closeBrace :: rest => some (.object [], rest)
    | .openBrace :: rest => (readFields fuel rest).map fun (fields, rest) => (.object fields, rest)
    | _ => none

/-- Reads the items of an array, of which there is at least one, and the bracket after them. -/
def readItems : Nat → List Token → Option (List Json × List Token)
  | 0, _ => none
  | fuel + 1, tokens => do
    let (item, rest) ← readValue fuel tokens
    match rest with
    | .comma :: rest => (readItems fuel rest).map fun (items, rest) => (item :: items, rest)
    | .closeBracket :: rest => some ([item], rest)
    | _ => none

/-- Reads the fields of an object, of which there is at least one, and the brace after them. -/
def readFields : Nat → List Token → Option (List (Option Text × Json) × List Token)
  | 0, _ => none
  | fuel + 1, tokens =>
    match tokens with
    | .string key :: .colon :: rest => do
      let (value, rest) ← readValue fuel rest
      match rest with
      | .comma :: rest =>
        (readFields fuel rest).map fun (fields, rest) => ((textOf key, value) :: fields, rest)
      | .closeBrace :: rest => some ([(textOf key, value)], rest)
      | _ => none
    | _ => none

end

/-- The value that a text is in JSON. A step reads a token or goes into the items of an array, so
twice as many steps as tokens are enough. -/
def parse? (t : Text) : Option Json := do
  let tokens ← tokens? t
  match ← readValue (2 * tokens.length + 1) tokens with
  | (value, []) => some value
  | _ => none

/-- The natural number that a value spells without sign, fraction or exponent. -/
def asNat? : Json → Option Nat
  | number spelling =>
    if spelling.all Char.isDigit then
      some (spelling.foldl (fun n c => 10 * n + (c.toNat - '0'.toNat)) 0)
    else none
  | _ => none

def asBool? : Json → Option Bool
  | bool b => some b
  | _ => none

def asText? : Json → Option Text
  | string text? => text?
  | _ => none

/-- The values given for a record's fields, in the order of their names. A record is written as an
object, which may leave fields out and hold others besides but repeats none of them, or as an array
of its first values. -/
def asRecord? (names : List Text) : Json → Option (List (Option Json))
  | array items =>
    if items.length ≤ names.length then
      some (items.map some ++ List.replicate (names.length - items.length) none)
    else none
  | object fields =>
    if fields.any (·.1.isNone) then none
    else names.mapM fun name =>
      match fields.filter (·.1 == some name) with
      | [] => some none
      | [(_, value)] => some (some value)
      | _ => none
  | _ => none

end Json

end MarkupPairs
