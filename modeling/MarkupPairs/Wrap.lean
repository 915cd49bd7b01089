import MarkupPairs.Text

/-!
# Wrapping text in a tag

Inline, the tags stand right around the content. As a block, they stand on lines of their own at the
indentation of the content's first line, and every line of the content moves in by one level.
-/

namespace MarkupPairs

inductive IndentUnit where
  | spaces (width : Nat)
  | tab
deriving DecidableEq

namespace IndentUnit

/-- The unit for an editor that indents with spaces or with tabs. -/
def ofEditor (insertSpaces : Bool) (tabSize : Nat) : IndentUnit :=
  if insertSpaces then spaces tabSize else tab

def text : IndentUnit → Text
  | spaces width => List.replicate width ' '
  | tab => ['\t']

end IndentUnit

namespace Wrap

/-- The blanks that the first line starts with. -/
def leadingIndent (content : Text) : Text :=
  (content.lines.headD []).takeWhile Unicode.isWhite

/-- The content with `indent` in front of every line. -/
def indentLines (indent content : Text) : Text := Text.ofLines (content.lines.map (indent ++ ·))

def openTag (name : Text) : Text := '<' :: (name ++ ['>'])

def closeTag (name : Text) : Text := '<' :: '/' :: (name ++ ['>'])

def selfClosingTag (name : Text) : Text := '<' :: (name ++ [' ', '/', '>'])

/-- The content right between the tags. -/
def inline (name content : Text) : Text := openTag name ++ content ++ closeTag name

/-- The content, one level further in, on the lines between the tags. -/
def block (name unit content : Text) : Text :=
  let indent := leadingIndent content
  Text.ofLines [indent ++ openTag name, indentLines unit content, indent ++ closeTag name]

end Wrap

end MarkupPairs
