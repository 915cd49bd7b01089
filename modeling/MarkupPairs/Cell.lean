import MarkupPairs.Position
import MarkupPairs.Text

/-!
# Cells

A cell is a character together with its position. A text laid out in cells, line feeds included, can
be searched without counting: a search walks the cells away from a place and answers with the
position of the cell that it stops at.
-/

namespace MarkupPairs

structure Cell where
  position : Position
  char : Char
deriving DecidableEq

namespace Cell

/-- The cells of a text whose first character stands at `p`. -/
def layOut (p : Position) : Text → List Cell
  | [] => []
  | c :: rest => ⟨p, c⟩ :: layOut (p.after c) rest

def text (cells : List Cell) : Text := cells.map char

/-- The position of the first `goal` in walking order that is not taken by a `nest` met before it:
each `nest` takes the next free `goal`. Of the cells before, `depth` still claim one each. -/
def seek (nest goal : Char) : Nat → List Cell → Option Position
  | _, [] => none
  | depth, cell :: rest =>
    if cell.char = nest then seek nest goal (depth + 1) rest
    else if cell.char = goal then
      match depth with
      | 0 => some cell.position
      | depth + 1 => seek nest goal depth rest
    else seek nest goal depth rest

@[simp] theorem text_layOut (p : Position) (t : Text) : text (layOut p t) = t := by
  induction t generalizing p with
  | nil => rfl
  | cons c rest ih => simpa [layOut, text] using ih (p.after c)

theorem layOut_append (p : Position) (s t : Text) :
    layOut p (s ++ t) = layOut p s ++ layOut (p.afterText s) t := by
  induction s generalizing p with
  | nil => rfl
  | cons c rest ih => simp [layOut, ih]

theorem le_position_of_mem_layOut {p : Position} {t : Text} {cell : Cell}
    (h : cell ∈ layOut p t) : p ≤ cell.position := by
  induction t generalizing p with
  | nil => simp [layOut] at h
  | cons c rest ih =>
    rcases List.mem_cons.mp h with rfl | h
    · exact Position.le_refl p
    · exact Position.le_trans (Position.le_of_lt (Position.lt_after p c)) (ih h)

theorem position_lt_of_mem_layOut {p : Position} {t : Text} {cell : Cell}
    (h : cell ∈ layOut p t) : cell.position < p.afterText t := by
  induction t generalizing p with
  | nil => simp [layOut] at h
  | cons c rest ih =>
    rcases List.mem_cons.mp h with rfl | h
    · exact Position.lt_of_lt_of_le (Position.lt_after p c) (Position.le_afterText _ rest)
    · exact ih h

theorem layOut_sorted (p : Position) (t : Text) :
    (layOut p t).Pairwise fun a b => a.position < b.position := by
  induction t generalizing p with
  | nil => exact .nil
  | cons c rest ih =>
    refine List.pairwise_cons.mpr ⟨fun cell h => ?_, ih _⟩
    exact Position.lt_of_lt_of_le (Position.lt_after p c) (le_position_of_mem_layOut h)

end Cell

end MarkupPairs
