import MarkupPairs.Text

/-!
# Line endings

Inside the library a line ends in a line feed. A text that arrives with a carriage return before a
line feed is remembered as such, and is written back with one before every line feed.
-/

namespace MarkupPairs

inductive LineEnding where
  | lf
  | crlf
deriving DecidableEq

namespace LineEnding

def terminator : LineEnding → Text
  | lf => ['\n']
  | crlf => ['\r', '\n']

/-- Whether a carriage return stands before a line feed somewhere. -/
def hasCrlf : Text → Bool
  | [] => false
  | c :: rest => c == '\r' && rest.head? == some '\n' || hasCrlf rest

/-- The line ending of a text: one carriage return before a line feed decides for all of it. -/
def detect (t : Text) : LineEnding := if hasCrlf t then crlf else lf

/-- The text less every carriage return that stands right before a line feed, in one pass. -/
def toLf : Text → Text
  | [] => []
  | '\r' :: '\n' :: rest => '\n' :: toLf rest
  | c :: rest => c :: toLf rest

/-- The text with every line feed written as the line ending. -/
def restore (ending : LineEnding) (t : Text) : Text :=
  t.flatMap fun c => if c = '\n' then ending.terminator else [c]

end LineEnding

end MarkupPairs
