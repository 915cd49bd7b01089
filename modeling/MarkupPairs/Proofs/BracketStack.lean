import Mathlib.Data.List.Find
import MarkupPairs.Proofs.BracketDepth

/-!
# The pass over brackets with a stack

One pass over a text with a stack pairs the brackets of a pair: an opening one is put on the stack,
and a closing one takes the topmost that is there. The searches for a partner make no such pass, but
the counts they keep are places on the stack: backward at depth `n` a search stops at the `n`-th
bracket that is open where it starts, and forward at depth `n` at the one that takes it.
-/

namespace MarkupPairs

/-- Two brackets that take each other. -/
structure BracketPair where
  opening : Position
  closing : Position
deriving DecidableEq

namespace Bracket

/-- What a cell does to the opening brackets that are open before it, the latest first. -/
def stackStep (b : Bracket) (stack : List Position) (cell : Cell) : List Position :=
  if cell.char = b.opener then cell.position :: stack
  else if cell.char = b.closer then stack.tail
  else stack

/-- The opening brackets that are open behind some cells. -/
def openBehind (b : Bracket) (stack : List Position) (cells : List Cell) : List Position :=
  cells.foldl b.stackStep stack

/-- The pair that a cell completes. -/
def pairAt? (b : Bracket) (stack : List Position) (cell : Cell) : Option BracketPair :=
  if cell.char = b.closer then stack.head?.map (⟨·, cell.position⟩) else none

/-- The pairs that some cells complete, in the order of the closing brackets. -/
def pairs (b : Bracket) : List Position → List Cell → List BracketPair
  | _, [] => []
  | stack, cell :: rest =>
    (b.pairAt? stack cell).toList ++ b.pairs (b.stackStep stack cell) rest

variable {b : Bracket} {stack above below : List Position} {cells : List Cell} {cell : Cell}
  {p q : Position} {x : BracketPair}

theorem openBehind_append (b : Bracket) (stack : List Position) (cells rest : List Cell) :
    b.openBehind stack (cells ++ rest) = b.openBehind (b.openBehind stack cells) rest :=
  List.foldl_append

theorem pairs_append (b : Bracket) (stack : List Position) (cells rest : List Cell) :
    b.pairs stack (cells ++ rest) =
      b.pairs stack cells ++ b.pairs (b.openBehind stack cells) rest := by
  induction cells generalizing stack with
  | nil => rfl
  | cons cell cells ih =>
      rw [List.cons_append, pairs, ih, pairs, List.append_assoc]
      rfl

/-! ## What the pass pairs -/

theorem pairAt?_eq_some_iff :
    b.pairAt? stack cell = some x ↔
      cell = ⟨x.closing, b.closer⟩ ∧ stack.head? = some x.opening := by
  obtain ⟨place, c⟩ := cell
  obtain ⟨p, q⟩ := x
  simp only [pairAt?, Cell.mk.injEq]
  split
  next hc =>
    simp only [Option.map_eq_some_iff, BracketPair.mk.injEq]
    constructor
    · rintro ⟨_, htop, rfl, rfl⟩
      exact ⟨⟨rfl, hc⟩, htop⟩
    · rintro ⟨⟨rfl, -⟩, htop⟩
      exact ⟨p, htop, rfl, rfl⟩
  next hc =>
    constructor
    · intro hnone
      cases hnone
    · rintro ⟨⟨-, hcloser⟩, -⟩
      exact absurd hcloser hc

/-- What the pass pairs are a closing bracket and the topmost opening one on the stack there. -/
theorem mem_pairs_iff :
    x ∈ b.pairs stack cells ↔
      ∃ before behind, cells = before ++ ⟨x.closing, b.closer⟩ :: behind ∧
        (b.openBehind stack before).head? = some x.opening := by
  induction cells generalizing stack with
  | nil => simp [pairs]
  | cons cell cells ih =>
      rw [pairs, List.mem_append, Option.mem_toList, pairAt?_eq_some_iff, ih]
      constructor
      · rintro (⟨rfl, htop⟩ | ⟨before, behind, rfl, htop⟩)
        · exact ⟨[], cells, rfl, htop⟩
        · exact ⟨cell :: before, behind, rfl, htop⟩
      · rintro ⟨_ | ⟨first, before⟩, behind, hcells, htop⟩
        · exact .inl ⟨(List.cons.inj hcells).1, htop⟩
        · obtain ⟨rfl, hrest⟩ := List.cons.inj hcells
          exact .inr ⟨before, behind, hrest, htop⟩

theorem exists_of_mem_pairs (h : x ∈ b.pairs stack cells) :
    ∃ cell ∈ cells, cell.position = x.closing := by
  obtain ⟨before, behind, rfl, -⟩ := mem_pairs_iff.mp h
  exact ⟨_, List.mem_append_right _ List.mem_cons_self, rfl⟩

/-- The pairs are listed as they are closed. -/
theorem pairwise_pairs (h : cells.Pairwise fun a b => a.position < b.position) :
    (b.pairs stack cells).Pairwise fun x y => x.closing < y.closing := by
  induction cells generalizing stack with
  | nil => exact .nil
  | cons cell cells ih =>
      obtain ⟨hcell, hcells⟩ := List.pairwise_cons.mp h
      rw [pairs, List.pairwise_append]
      refine ⟨?_, ih hcells, ?_⟩
      · cases b.pairAt? stack cell with
        | none => exact .nil
        | some x => exact List.pairwise_singleton _ _
      · intro x hx y hy
        obtain ⟨rfl, -⟩ := pairAt?_eq_some_iff.mp (Option.mem_toList.mp hx)
        obtain ⟨other, hother, hclosing⟩ := exists_of_mem_pairs hy
        rw [← hclosing]
        exact hcell other hother

/-! ## The stack -/

/-- A bracket that is open was open before or is one of the cells. -/
theorem mem_openBehind (h : p ∈ b.openBehind stack cells) :
    p ∈ stack ∨ ∃ cell ∈ cells, cell.position = p := by
  induction cells generalizing stack with
  | nil => exact .inl h
  | cons cell cells ih =>
      rcases ih h with h | ⟨last, hlast, hposition⟩
      · rw [stackStep] at h
        split at h
        next =>
          rcases List.mem_cons.mp h with rfl | h
          · exact .inr ⟨cell, List.mem_cons_self, rfl⟩
          · exact .inl h
        next =>
          split at h
          next => exact .inl (List.mem_of_mem_tail h)
          next => exact .inl h
      · exact .inr ⟨last, List.mem_cons_of_mem _ hlast, hposition⟩

/-- The open brackets are listed from the last to the first. -/
theorem pairwise_openBehind (h : cells.Pairwise fun a b => a.position < b.position) :
    (b.openBehind [] cells).Pairwise fun p q => q < p := by
  induction cells using List.reverseRecOn with
  | nil => exact .nil
  | append_singleton cells cell ih =>
      obtain ⟨hcells, -, hcell⟩ := List.pairwise_append.mp h
      rw [openBehind_append]
      change (b.stackStep (b.openBehind [] cells) cell).Pairwise _
      rw [stackStep]
      split
      next =>
        refine List.pairwise_cons.mpr ⟨?_, ih hcells⟩
        intro q hq
        rcases mem_openBehind hq with hq | ⟨other, hother, rfl⟩
        · cases hq
        · exact hcell other hother cell List.mem_cons_self
      next =>
        split
        next => exact (ih hcells).tail
        next => exact ih hcells

/-! ## The searches and the stack -/

/-- A search backward stops at the bracket that its count finds from the top of the stack. -/
theorem seek_reverse_eq_openBehind (b : Bracket) (n : Nat) (cells : List Cell) :
    Cell.seek b.closer b.opener n cells.reverse = (b.openBehind [] cells)[n]? := by
  induction cells using List.reverseRecOn generalizing n with
  | nil => rfl
  | append_singleton cells cell ih =>
      rw [List.reverse_append, List.reverse_singleton, List.singleton_append, Cell.seek_cons,
        openBehind_append]
      change _ = (b.stackStep (b.openBehind [] cells) cell)[n]?
      by_cases hclose : cell.char = b.closer
      · have hopen : cell.char ≠ b.opener := hclose ▸ b.closer_ne_opener
        rw [if_pos hclose, stackStep, if_neg hopen, if_pos hclose, ih, List.getElem?_tail]
      · rw [if_neg hclose, stackStep]
        by_cases hopen : cell.char = b.opener
        · rw [if_pos hopen, if_pos hopen]
          cases n with
          | zero => rfl
          | succ n => exact ih n
        · rw [if_neg hopen, if_neg hopen, if_neg hclose]
          exact ih n

/-- Of the pairs that are still to be completed, the first one that opens at or before a position
has the topmost bracket of those up to there. A search forward finds the one that takes it when it
passes over the brackets above first. -/
theorem find?_pairs (above : List Position) (habove : ∀ s ∈ above, p < s)
    (hbelow : ∀ s ∈ below, s ≤ p)
    (hcells : ∀ cell ∈ cells, cell.char = b.opener → p < cell.position) :
    (b.pairs (above ++ below) cells).find? (·.opening ≤ p) =
      below.head?.bind fun s => (Cell.seek b.opener b.closer above.length cells).map (⟨s, ·⟩) := by
  -- the cells put on and take off only what is above, until the first pair is there
  induction cells generalizing above below with
  | nil => cases below <;> rfl
  | cons cell cells ih =>
      have hrest : ∀ other ∈ cells, other.char = b.opener → p < other.position :=
        fun other hother => hcells other (List.mem_cons_of_mem _ hother)
      rw [pairs, pairAt?, stackStep, Cell.seek_cons]
      by_cases hopen : cell.char = b.opener
      · have hclose : cell.char ≠ b.closer := by
          rw [hopen]
          exact b.closer_ne_opener.symm
        have hpush : ∀ s ∈ cell.position :: above, p < s :=
          List.forall_mem_cons.mpr ⟨hcells cell List.mem_cons_self hopen, habove⟩
        rw [if_neg hclose, if_pos hopen, if_pos hopen]
        exact ih _ hpush hbelow hrest
      · rw [if_neg hopen, if_neg hopen]
        by_cases hclose : cell.char = b.closer
        · rw [if_pos hclose, if_pos hclose, if_pos hclose]
          cases above with
          | cons s above =>
              obtain ⟨hs, habove⟩ := List.forall_mem_cons.mp habove
              have hskip : ¬s ≤ p := Position.not_le.mpr hs
              refine (List.find?_cons_of_neg (by simpa using hskip)).trans ?_
              exact ih _ habove hbelow hrest
          | nil =>
              cases below with
              | cons s below =>
                  have hs : s ≤ p := hbelow s List.mem_cons_self
                  exact List.find?_cons_of_pos (by simpa using hs)
              | nil => exact ih _ habove hbelow hrest
        · rw [if_neg hclose, if_neg hclose, if_neg hclose]
          exact ih _ habove hbelow hrest

/-- What opens at or before a position, and is completed behind it, is open there. -/
theorem opening_mem_of_mem_pairs (above : List Position) (h : x ∈ b.pairs (above ++ below) cells)
    (habove : ∀ s ∈ above, p < s)
    (hcells : ∀ cell ∈ cells, cell.char = b.opener → p < cell.position) (hx : x.opening ≤ p) :
    x.opening ∈ below := by
  induction cells generalizing above below with
  | nil => cases h
  | cons cell cells ih =>
      have hrest : ∀ other ∈ cells, other.char = b.opener → p < other.position :=
        fun other hother => hcells other (List.mem_cons_of_mem _ hother)
      rcases List.mem_append.mp h with h | h
      · have htop := (pairAt?_eq_some_iff.mp (Option.mem_toList.mp h)).2
        rcases List.mem_append.mp (List.mem_of_head? htop) with hmem | hmem
        · exact absurd hx (Position.not_le.mpr (habove _ hmem))
        · exact hmem
      · rw [stackStep] at h
        split at h
        next hopen =>
          exact ih (cell.position :: above) h
            (List.forall_mem_cons.mpr ⟨hcells cell List.mem_cons_self hopen, habove⟩) hrest
        next =>
          split at h
          next =>
            cases above with
            | cons s above => exact ih _ h (List.forall_mem_cons.mp habove).2 hrest
            | nil => exact List.mem_of_mem_tail (ih [] h habove hrest)
          next => exact ih _ h habove hrest

end Bracket

/-- The pairs that one pass over a document with a stack makes. -/
def Document.bracketPairs (d : Document) (b : Bracket) : List BracketPair := b.pairs [] d.cells

end MarkupPairs
