import MarkupPairs.Unicode.Class

/-!
# Text

A text is its list of characters. Lines are what stands between line feeds; no other character
breaks a line, so a text with `n` line feeds has `n + 1` lines.
-/

namespace MarkupPairs

/-- A text, character by character. -/
abbrev Text := List Char

namespace Text

/-- The lines of a text, without their line feeds. -/
def lines : Text → List Text
  | [] => [[]]
  | c :: rest => if c = '\n' then [] :: lines rest else (lines rest).modifyHead (c :: ·)

/-- The text that has the given lines. -/
def ofLines (ls : List Text) : Text := List.intercalate ['\n'] ls

/-- The number of characters of some lines, with a line feed behind each. -/
def lengthOfLines : List Text → Nat
  | [] => 0
  | l :: rest => l.length + 1 + lengthOfLines rest

def trimStart (t : Text) : Text := t.dropWhile Unicode.isWhite

def trimEnd (t : Text) : Text := (t.reverse.dropWhile Unicode.isWhite).reverse

def trim (t : Text) : Text := trimEnd (trimStart t)

def isBlank (t : Text) : Bool := t.all Unicode.isWhite

theorem lines_ne_nil (t : Text) : lines t ≠ [] := by
  cases t with
  | nil => simp [lines]
  | cons c rest =>
    have ih := lines_ne_nil rest
    unfold lines
    split
    · simp
    · cases h : lines rest with
      | nil => exact absurd h ih
      | cons l ls => simp

theorem length_lines (t : Text) : (lines t).length = t.count '\n' + 1 := by
  induction t with
  | nil => rfl
  | cons c rest ih =>
    unfold lines
    split <;> simp_all

theorem ofLines_lines (t : Text) : ofLines (lines t) = t := by
  induction t with
  | nil => rfl
  | cons c rest ih =>
    obtain ⟨l, ls, h⟩ := List.exists_cons_of_ne_nil (lines_ne_nil rest)
    rw [h] at ih
    unfold lines
    split
    · subst c
      rw [h]
      simp only [ofLines, List.intercalate, List.intersperse] at *
      simpa using ih
    · rw [h]
      cases ls <;> simp_all [ofLines, List.intercalate]

end Text

end MarkupPairs
