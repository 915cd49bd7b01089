import MarkupPairs.Bracket
import MarkupPairs.Proofs.Layout

/-!
# The depth of brackets

The search for the partner of a bracket counts the brackets of its own pair. A text is described by
what reading it does to the number of open ones; a search through such a text, in either direction,
only changes its count, and where a search stops it has passed a text that brings the count down to
nothing.
-/

namespace MarkupPairs

namespace Bracket

/-- The number of brackets of a pair that are open after a text when `depth` are open before it.
There is none if one of the text closes nothing. -/
def depth? (b : Bracket) : Nat → Text → Option Nat
  | depth, [] => some depth
  | depth, c :: rest =>
    if c = b.opener then b.depth? (depth + 1) rest
    else if c = b.closer then
      match depth with
      | 0 => none
      | depth + 1 => b.depth? depth rest
    else b.depth? depth rest

/-- Whether each bracket of a pair has its counterpart in a text. -/
def IsBalanced (b : Bracket) (t : Text) : Prop := b.depth? 0 t = some 0

instance (b : Bracket) (t : Text) : Decidable (b.IsBalanced t) :=
  inferInstanceAs (Decidable (_ = _))

variable {b : Bracket} {c : Char} {n m : Nat} {p q : Position} {t : Text}

theorem char_ne_lineFeed (b : Bracket) (side : Side) : b.char side ≠ '\n' := by
  cases b <;> cases side <;> decide

theorem closer_ne_opener (b : Bracket) : b.closer ≠ b.opener := by
  cases b <;> decide

theorem depth?_opener (b : Bracket) (n : Nat) (t : Text) :
    b.depth? n (b.opener :: t) = b.depth? (n + 1) t := by
  rw [depth?.eq_def]
  exact if_pos rfl

theorem depth?_closer_zero (b : Bracket) (t : Text) : b.depth? 0 (b.closer :: t) = none := by
  rw [depth?.eq_def]
  exact (if_neg b.closer_ne_opener).trans (if_pos rfl)

theorem depth?_closer_succ (b : Bracket) (n : Nat) (t : Text) :
    b.depth? (n + 1) (b.closer :: t) = b.depth? n t := by
  rw [depth?.eq_def]
  exact (if_neg b.closer_ne_opener).trans (if_pos rfl)

theorem depth?_other (hopener : c ≠ b.opener) (hcloser : c ≠ b.closer) (n : Nat) (t : Text) :
    b.depth? n (c :: t) = b.depth? n t := by
  rw [depth?.eq_def]
  exact (if_neg hopener).trans (if_neg hcloser)

/-- Induction over a text by what its first character does to the depth. -/
@[elab_as_elim]
theorem textInduction (b : Bracket) {motive : Text → Prop} (nil : motive [])
    (opener : ∀ t, motive t → motive (b.opener :: t))
    (closer : ∀ t, motive t → motive (b.closer :: t))
    (other : ∀ c t, c ≠ b.opener → c ≠ b.closer → motive t → motive (c :: t)) (t : Text) :
    motive t := by
  induction t with
  | nil => exact nil
  | cons c t ih =>
      by_cases hopener : c = b.opener
      · subst c
        exact opener t ih
      · by_cases hcloser : c = b.closer
        · subst c
          exact closer t ih
        · exact other c t hopener hcloser ih

theorem depth?_append (b : Bracket) (n : Nat) (s t : Text) :
    b.depth? n (s ++ t) = (b.depth? n s).bind fun m => b.depth? m t := by
  induction s using b.textInduction generalizing n with
  | nil => rfl
  | opener s ih => rw [List.cons_append, depth?_opener, depth?_opener, ih]
  | closer s ih =>
      cases n with
      | zero =>
          rw [List.cons_append, depth?_closer_zero, depth?_closer_zero]
          rfl
      | succ n => rw [List.cons_append, depth?_closer_succ, depth?_closer_succ, ih]
  | other c s hopener hcloser ih =>
      rw [List.cons_append, depth?_other hopener hcloser, depth?_other hopener hcloser, ih]

/-- Brackets that are open around a text do not matter inside it. -/
theorem depth?_add (h : b.depth? n t = some m) (k : Nat) : b.depth? (n + k) t = some (m + k) := by
  induction t using b.textInduction generalizing n with
  | nil =>
      obtain rfl := Option.some.inj h
      rfl
  | opener t ih =>
      rw [depth?_opener] at h ⊢
      rw [Nat.add_right_comm]
      exact ih h
  | closer t ih =>
      cases n with
      | zero =>
          rw [depth?_closer_zero] at h
          cases h
      | succ n =>
          rw [depth?_closer_succ] at h
          rw [Nat.add_right_comm, depth?_closer_succ]
          exact ih h
  | other c t hopener hcloser ih =>
      rw [depth?_other hopener hcloser] at h ⊢
      exact ih h

end Bracket

namespace Cell

theorem seek_cons (nest goal : Char) (n : Nat) (cell : Cell) (rest : List Cell) :
    seek nest goal n (cell :: rest) =
      if cell.char = nest then seek nest goal (n + 1) rest
      else if cell.char = goal then
        match n with
        | 0 => some cell.position
        | n + 1 => seek nest goal n rest
      else seek nest goal n rest := by
  cases n <;> rfl

theorem seek_cons_nest (nest goal : Char) (n : Nat) (p : Position) (rest : List Cell) :
    seek nest goal n (⟨p, nest⟩ :: rest) = seek nest goal (n + 1) rest := by
  rw [seek_cons, if_pos rfl]

section

variable {nest goal : Char}

theorem seek_cons_goal_zero (h : goal ≠ nest) (p : Position) (rest : List Cell) :
    seek nest goal 0 (⟨p, goal⟩ :: rest) = some p := by
  rw [seek_cons, if_neg h, if_pos rfl]

theorem seek_cons_goal_succ (h : goal ≠ nest) (n : Nat) (p : Position) (rest : List Cell) :
    seek nest goal (n + 1) (⟨p, goal⟩ :: rest) = seek nest goal n rest := by
  rw [seek_cons, if_neg h, if_pos rfl]

theorem seek_cons_other {cell : Cell} (hnest : cell.char ≠ nest) (hgoal : cell.char ≠ goal)
    (n : Nat) (rest : List Cell) : seek nest goal n (cell :: rest) = seek nest goal n rest := by
  rw [seek_cons, if_neg hnest, if_neg hgoal]

end

theorem reverse_layOut_cons (p : Position) (c : Char) (t : Text) (before : List Cell) :
    (layOut p (c :: t)).reverse ++ before = (layOut (p.after c) t).reverse ++ ⟨p, c⟩ :: before := by
  rw [layOut_cons, List.reverse_cons, List.append_assoc, List.singleton_append]

end Cell

namespace Bracket

variable {b : Bracket} {n m : Nat} {p q : Position} {t : Text}

/-- A search forward passes a text by the brackets that the text opens and closes. -/
theorem seek_layOut (h : b.depth? n t = some m) (p : Position) (rest : List Cell) :
    Cell.seek b.opener b.closer n (Cell.layOut p t ++ rest) =
      Cell.seek b.opener b.closer m rest := by
  induction t using b.textInduction generalizing n p with
  | nil =>
      obtain rfl := Option.some.inj h
      rfl
  | opener t ih =>
      rw [depth?_opener] at h
      rw [Cell.layOut_cons, List.cons_append, Cell.seek_cons_nest, ih h]
  | closer t ih =>
      cases n with
      | zero =>
          rw [depth?_closer_zero] at h
          cases h
      | succ n =>
          rw [depth?_closer_succ] at h
          rw [Cell.layOut_cons, List.cons_append, Cell.seek_cons_goal_succ b.closer_ne_opener,
            ih h]
  | other c t hopener hcloser ih =>
      rw [depth?_other hopener hcloser] at h
      rw [Cell.layOut_cons, List.cons_append, Cell.seek_cons_other hopener hcloser, ih h]

/-- A search backward passes a text the other way round. -/
theorem seek_reverse_layOut (h : b.depth? n t = some m) (p : Position) (before : List Cell) :
    Cell.seek b.closer b.opener m ((Cell.layOut p t).reverse ++ before) =
      Cell.seek b.closer b.opener n before := by
  -- the rest of the text is passed first, at the depth that the first character leads to
  induction t using b.textInduction generalizing n p before with
  | nil =>
      obtain rfl := Option.some.inj h
      rfl
  | opener t ih =>
      rw [depth?_opener] at h
      rw [Cell.reverse_layOut_cons, ih h, Cell.seek_cons_goal_succ b.closer_ne_opener.symm]
  | closer t ih =>
      cases n with
      | zero =>
          rw [depth?_closer_zero] at h
          cases h
      | succ n =>
          rw [depth?_closer_succ] at h
          rw [Cell.reverse_layOut_cons, ih h, Cell.seek_cons_nest]
  | other c t hopener hcloser ih =>
      rw [depth?_other hopener hcloser] at h
      rw [Cell.reverse_layOut_cons, ih h, Cell.seek_cons_other hcloser hopener]

/-- What a search forward has passed when it stops. -/
theorem exists_of_seek_layOut (h : Cell.seek b.opener b.closer n (Cell.layOut p t) = some q) :
    ∃ mid post, t = mid ++ b.closer :: post ∧ b.depth? n mid = some 0 ∧ q = p.afterText mid := by
  induction t using b.textInduction generalizing n p with
  | nil => cases h
  | opener t ih =>
      rw [Cell.layOut_cons, Cell.seek_cons_nest] at h
      obtain ⟨mid, post, rfl, hmid, hq⟩ := ih h
      exact ⟨b.opener :: mid, post, rfl, (b.depth?_opener n mid).trans hmid, hq⟩
  | closer t ih =>
      cases n with
      | zero =>
          rw [Cell.layOut_cons, Cell.seek_cons_goal_zero b.closer_ne_opener] at h
          exact ⟨[], t, rfl, rfl, (Option.some.inj h).symm⟩
      | succ n =>
          rw [Cell.layOut_cons, Cell.seek_cons_goal_succ b.closer_ne_opener] at h
          obtain ⟨mid, post, rfl, hmid, hq⟩ := ih h
          exact ⟨b.closer :: mid, post, rfl, (b.depth?_closer_succ n mid).trans hmid, hq⟩
  | other c t hopener hcloser ih =>
      rw [Cell.layOut_cons, Cell.seek_cons_other hopener hcloser] at h
      obtain ⟨mid, post, rfl, hmid, hq⟩ := ih h
      exact ⟨c :: mid, post, rfl, (depth?_other hopener hcloser n mid).trans hmid, hq⟩

/-- What a search backward has passed when it stops. -/
theorem exists_of_seek_reverse_layOut
    (h : Cell.seek b.closer b.opener n (Cell.layOut p t).reverse = some q) :
    ∃ pre mid, t = pre ++ b.opener :: mid ∧ b.depth? 0 mid = some n ∧ q = p.afterText pre := by
  induction t using List.reverseRecOn generalizing n with
  | nil => cases h
  | append_singleton t c ih =>
      rw [Cell.layOut_append, List.reverse_append, Cell.layOut_cons, Cell.layOut_nil,
        List.reverse_singleton, List.singleton_append] at h
      by_cases hcloser : c = b.closer
      · subst c
        rw [Cell.seek_cons_nest] at h
        obtain ⟨pre, mid, rfl, hmid, hq⟩ := ih h
        refine ⟨pre, mid ++ [b.closer], by simp, ?_, hq⟩
        rw [depth?_append, hmid]
        exact b.depth?_closer_succ n []
      · by_cases hopener : c = b.opener
        · subst c
          cases n with
          | zero =>
              rw [Cell.seek_cons_goal_zero b.closer_ne_opener.symm] at h
              exact ⟨t, [], rfl, rfl, (Option.some.inj h).symm⟩
          | succ n =>
              rw [Cell.seek_cons_goal_succ b.closer_ne_opener.symm] at h
              obtain ⟨pre, mid, rfl, hmid, hq⟩ := ih h
              refine ⟨pre, mid ++ [b.opener], by simp, ?_, hq⟩
              rw [depth?_append, hmid]
              exact b.depth?_opener n []
        · rw [Cell.seek_cons_other hcloser hopener] at h
          obtain ⟨pre, mid, rfl, hmid, hq⟩ := ih h
          refine ⟨pre, mid ++ [c], by simp, ?_, hq⟩
          rw [depth?_append, hmid]
          exact depth?_other hopener hcloser n []

end Bracket

end MarkupPairs
