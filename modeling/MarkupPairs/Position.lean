import MarkupPairs.Count

/-!
# Positions

A position names a place in a text by line and character, both counted from zero. Positions are
ordered as they are read: by line first, then by character.
-/

namespace MarkupPairs

/-- A place in a text. The character counts from the start of the line. -/
structure Position where
  line : Nat
  character : Nat
deriving DecidableEq

namespace Position

def origin : Position := ⟨0, 0⟩

instance : LT Position :=
  ⟨fun a b => a.line < b.line ∨ a.line = b.line ∧ a.character < b.character⟩

instance : LE Position :=
  ⟨fun a b => a.line < b.line ∨ a.line = b.line ∧ a.character ≤ b.character⟩

theorem lt_def (a b : Position) :
    a < b ↔ a.line < b.line ∨ a.line = b.line ∧ a.character < b.character := Iff.rfl

theorem le_def (a b : Position) :
    a ≤ b ↔ a.line < b.line ∨ a.line = b.line ∧ a.character ≤ b.character := Iff.rfl

instance (a b : Position) : Decidable (a < b) :=
  decidable_of_iff _ (lt_def a b).symm

instance (a b : Position) : Decidable (a ≤ b) :=
  decidable_of_iff _ (le_def a b).symm

instance : Min Position := minOfLe

instance : Max Position := maxOfLe

theorem ext_iff' {a b : Position} : a = b ↔ a.line = b.line ∧ a.character = b.character := by
  cases a; cases b; simp

theorem le_refl (a : Position) : a ≤ a := Or.inr ⟨rfl, Nat.le_refl _⟩

theorem le_trans {a b c : Position} (hab : a ≤ b) (hbc : b ≤ c) : a ≤ c := by
  simp only [le_def] at *; omega

theorem lt_of_lt_of_le {a b c : Position} (hab : a < b) (hbc : b ≤ c) : a < c := by
  simp only [le_def, lt_def] at *; omega

theorem lt_of_le_of_lt {a b c : Position} (hab : a ≤ b) (hbc : b < c) : a < c := by
  simp only [le_def, lt_def] at *; omega

theorem not_le {a b : Position} : ¬a ≤ b ↔ b < a := by
  simp only [le_def, lt_def]; omega

theorem not_lt {a b : Position} : ¬a < b ↔ b ≤ a := by
  simp only [le_def, lt_def]; omega

theorem le_of_lt {a b : Position} (h : a < b) : a ≤ b := by
  simp only [le_def, lt_def] at *; omega

theorem le_antisymm {a b : Position} (hab : a ≤ b) (hba : b ≤ a) : a = b := by
  simp only [le_def] at *
  exact ext_iff'.mpr (by omega)

theorem min_le_left (a b : Position) : min a b ≤ a := by
  show (if a ≤ b then a else b) ≤ a
  split
  · exact le_refl a
  · exact le_of_lt (not_le.mp ‹_›)

theorem min_le_right (a b : Position) : min a b ≤ b := by
  show (if a ≤ b then a else b) ≤ b
  split
  · assumption
  · exact le_refl b

theorem le_max_left (a b : Position) : a ≤ max a b := by
  show a ≤ if a ≤ b then b else a
  split
  · assumption
  · exact le_refl a

theorem le_max_right (a b : Position) : b ≤ max a b := by
  show b ≤ if a ≤ b then b else a
  split
  · exact le_refl b
  · exact le_of_lt (not_le.mp ‹_›)

theorem lt_min {a b p : Position} (ha : p < a) (hb : p < b) : p < min a b := by
  show p < if a ≤ b then a else b
  split <;> assumption

theorem le_total (a b : Position) : a ≤ b ∨ b ≤ a := by
  simp only [le_def]; omega

def compare (a b : Position) : Ordering :=
  if a < b then .lt else if a = b then .eq else .gt

/-- The position moved by some lines and characters, each as far as counts go. -/
def shift (p : Position) (lines characters : Int) : Position :=
  ⟨clampCount (p.line + lines), clampCount (p.character + characters)⟩

/-- The position with another character on the same line. -/
def withCharacter (p : Position) (character : Nat) : Position := ⟨p.line, character⟩

/-- The position `n` characters further on the same line. -/
def right (p : Position) (n : Nat) : Position := ⟨p.line, p.character + n⟩

/-- The position after `c` is read at `p`: a line feed opens the next line. -/
def after (p : Position) (c : Char) : Position :=
  if c = '\n' then ⟨p.line + 1, 0⟩ else ⟨p.line, p.character + 1⟩

/-- The position after all of `text` is read from `p` on. -/
def afterText (p : Position) (text : List Char) : Position := text.foldl after p

theorem lt_after (p : Position) (c : Char) : p < p.after c := by
  unfold after
  split <;> simp [lt_def]

@[simp] theorem afterText_nil (p : Position) : p.afterText [] = p := rfl

@[simp] theorem afterText_cons (p : Position) (c : Char) (text : List Char) :
    p.afterText (c :: text) = (p.after c).afterText text := rfl

theorem afterText_append (p : Position) (s t : List Char) :
    p.afterText (s ++ t) = (p.afterText s).afterText t := List.foldl_append

theorem le_afterText (p : Position) (text : List Char) : p ≤ p.afterText text := by
  induction text generalizing p with
  | nil => exact le_refl p
  | cons c rest ih => exact le_trans (le_of_lt (lt_after p c)) (ih _)

end Position

end MarkupPairs
