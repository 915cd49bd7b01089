import MarkupPairs.Document

/-!
# Brackets

A bracket's partner is found by walking away from it, line by line, and counting how deep its own
pair nests. The walk forward passes over quoted literals. The walk backward does not: read from
right to left, a quote that closes a literal looks like one that opens it.
-/

namespace MarkupPairs

inductive Bracket where
  | paren
  | square
  | curly
  | angle
deriving DecidableEq

inductive Side where
  | opening
  | closing
deriving DecidableEq

namespace Bracket

def opener : Bracket → Char
  | paren => '('
  | square => '['
  | curly => '\x7b'
  | angle => '<'

def closer : Bracket → Char
  | paren => ')'
  | square => ']'
  | curly => '\x7d'
  | angle => '>'

def char (b : Bracket) : Side → Char
  | .opening => b.opener
  | .closing => b.closer

def all : List Bracket := [paren, square, curly, angle]

/-- The pair that a character belongs to, and the side it is on. -/
def classify (c : Char) : Option (Bracket × Side) :=
  all.findSome? fun b =>
    if c = b.opener then some (b, .opening) else if c = b.closer then some (b, .closing) else none

/-- Whether a character opens and closes literals. -/
def isQuote (c : Char) : Bool := c == '\x22' || c == '\x27' || c == '\x60'

end Bracket

def Side.other : Side → Side
  | opening => closing
  | closing => opening

structure BracketAt where
  bracket : Bracket
  side : Side
  position : Position
deriving DecidableEq

namespace BracketAt

/-- The bracket that a character at a position is, if it is one. -/
def classify (c : Char) (p : Position) : Option BracketAt :=
  (Bracket.classify c).map fun (b, side) => ⟨b, side, p⟩

def char (b : BracketAt) : Char := b.bracket.char b.side

def partnerChar (b : BracketAt) : Char := b.bracket.char b.side.other

end BracketAt

/-- How a walk over one line ends: at a partner, or behind the last character with what the walk
takes along to the next line. -/
inductive LineWalk (σ : Type) where
  | found (i : Nat)
  | onward (state : σ)

namespace LineWalk

/-- The walk to the right over the characters of a line from the index `i` on. `depth` brackets are
open, and `quote` is the one that opened the literal that the walk is in. Inside a literal a
backslash speaks for the next character; outside of one, a quote right behind a backslash on its
line opens none. -/
def forward (own partner : Char) (chars : Text) (i depth : Nat) (quote : Option Char) :
    LineWalk (Nat × Option Char) :=
  if h : i < chars.length then
    match quote with
    | some opening =>
      if chars[i] = '\\' then forward own partner chars (i + 2) depth (some opening)
      else if chars[i] = opening then forward own partner chars (i + 1) depth none
      else forward own partner chars (i + 1) depth (some opening)
    | none =>
      if Bracket.isQuote chars[i] ∧ (i = 0 ∨ chars[i - 1]? ≠ some '\\') then
        forward own partner chars (i + 1) depth (some chars[i])
      else if chars[i] = own then forward own partner chars (i + 1) (depth + 1) none
      else if chars[i] = partner then
        match depth with
        | 0 => found i
        | depth + 1 => forward own partner chars (i + 1) depth none
      else forward own partner chars (i + 1) depth none
  else onward (depth, quote)
termination_by chars.length - i

/-- The walk to the left over the first `i` characters of a line. -/
def backward (own partner : Char) (chars : Text) : Nat → Nat → LineWalk Nat
  | 0, depth => onward depth
  | i + 1, depth =>
    if chars[i]? = some own then backward own partner chars i (depth + 1)
    else if chars[i]? = some partner then
      match depth with
      | 0 => found i
      | depth + 1 => backward own partner chars i depth
    else backward own partner chars i depth

end LineWalk

namespace Document

/-- The walk to the right over the lines from the number `n` on, which begins on the first of them
at the index `i`. -/
def walkForward (own partner : Char) :
    (n i depth : Nat) → (quote : Option Char) → List Text → Option Position
  | _, _, _, _, [] => none
  | n, i, depth, quote, line :: rest =>
    match LineWalk.forward own partner line i depth quote with
    | .found i => some ⟨n, i⟩
    | .onward (depth, quote) => walkForward own partner (n + 1) 0 depth quote rest

/-- The walk to the left over the lines down from the number `n`, which begins on that one in front
of the index `i`. -/
def walkBackward (d : Document) (own partner : Char) (n i depth : Nat) : Option Position :=
  match LineWalk.backward own partner (d.line n) i depth with
  | .found i => some ⟨n, i⟩
  | .onward depth =>
    match n with
    | 0 => none
    | n + 1 => d.walkBackward own partner n (d.lineLength n) depth

/-- The partner of an opening bracket: the first one behind it, outside of literals, that no bracket
in between takes. -/
def closingPartner? (d : Document) (b : BracketAt) : Option Position :=
  walkForward b.char b.partnerChar b.position.line (b.position.character + 1) 0 none
    (d.lines.drop b.position.line)

/-- The partner of a closing bracket: the nearest one before it that no bracket in between takes. -/
def openingPartner? (d : Document) (b : BracketAt) : Option Position :=
  d.walkBackward b.char b.partnerChar b.position.line
    (min b.position.character (d.lineLength b.position.line)) 0

def bracketPartner? (d : Document) (b : BracketAt) : Option Position :=
  match b.side with
  | .opening => d.closingPartner? b
  | .closing => d.openingPartner? b

/-- The brackets that a range covers, in reading order. -/
def bracketsIn (d : Document) (r : Range) : List BracketAt :=
  let base := d.offsetAt r.start
  (d.slice r).zipIdx.filterMap fun (c, i) => BracketAt.classify c (d.positionAt (base + i))

end Document

end MarkupPairs
