import MarkupPairs.Proofs.BracketDepth

/-!
# Angles and their depth

The searches for a `<` or a `>` count the angles that they pass. Angles are brackets, so what a
search passes when it goes through a text is known from these. A text is balanced when reading it
leaves no angle open and closes none from outside.
-/

namespace MarkupPairs

namespace Text

/-- Whether each angle of a text has its counterpart in the text. -/
def IsBalanced (t : Text) : Prop := Bracket.angle.IsBalanced t

instance (t : Text) : Decidable t.IsBalanced := inferInstanceAs (Decidable (_ = _))

/-- A text put in angles. -/
def angled (t : Text) : Text := '<' :: t ++ ['>']

/-- Whether a text has no angles. -/
def IsPlain (t : Text) : Prop := ∀ c ∈ t, c ≠ '<' ∧ c ≠ '>'

instance (t : Text) : Decidable t.IsPlain := List.decidableBAll _ t

theorem isPlain_nil : IsPlain [] := by simp [IsPlain]

theorem isPlain_append {s t : Text} : IsPlain (s ++ t) ↔ IsPlain s ∧ IsPlain t := by
  simp only [IsPlain, List.mem_append]
  constructor
  · intro h
    exact ⟨fun c hc => h c (.inl hc), fun c hc => h c (.inr hc)⟩
  · rintro ⟨hs, ht⟩ c (hc | hc)
    · exact hs c hc
    · exact ht c hc

theorem depth?_open (n : Nat) (t : Text) :
    Bracket.angle.depth? n ('<' :: t) = Bracket.angle.depth? (n + 1) t := rfl

/-- Without a `>` no angle is closed. -/
theorem le_of_depth? {n m : Nat} {t : Text} (h : Bracket.angle.depth? n t = some m)
    (hclose : '>' ∉ t) : n ≤ m := by
  induction t using Bracket.angle.textInduction generalizing n with
  | nil => exact Nat.le_of_eq (Option.some.inj h)
  | opener t ih => exact Nat.le_of_succ_le (ih h (not_or.mp (List.mem_cons.not.mp hclose)).2)
  | closer t => exact absurd List.mem_cons_self hclose
  | other c t hopen hother ih =>
      rw [Bracket.depth?_other hopen hother] at h
      exact ih h (not_or.mp (List.mem_cons.not.mp hclose)).2

theorem IsPlain.depth? {t : Text} (h : IsPlain t) (n : Nat) :
    Bracket.angle.depth? n t = some n := by
  induction t with
  | nil => rfl
  | cons c t ih =>
      obtain ⟨hopen, hclose⟩ := h c (by simp)
      rw [Bracket.depth?_other hopen hclose]
      exact ih fun x hx => h x (by simp [hx])

theorem IsPlain.isBalanced {t : Text} (h : IsPlain t) : IsBalanced t := h.depth? 0

theorem IsBalanced.depth? {t : Text} (h : IsBalanced t) (n : Nat) :
    Bracket.angle.depth? n t = some n := by
  simpa using Bracket.depth?_add h n

theorem IsBalanced.append {s t : Text} (hs : IsBalanced s) (ht : IsBalanced t) :
    IsBalanced (s ++ t) := by
  rw [IsBalanced, Bracket.IsBalanced, Bracket.depth?_append, hs]
  exact ht

/-- A balanced text between angles is balanced. -/
theorem IsBalanced.enclose {t : Text} (h : IsBalanced t) : IsBalanced t.angled := by
  rw [IsBalanced, Bracket.IsBalanced, angled, Bracket.depth?_append, depth?_open, h.depth? 1]
  rfl

/-- A `<` before balanced text stays open. -/
theorem not_isBalanced_open {s t : Text} (ht : IsBalanced t) : ¬IsBalanced (s ++ '<' :: t) := by
  rw [IsBalanced, Bracket.IsBalanced, Bracket.depth?_append]
  intro h
  obtain ⟨n, -, hn⟩ := Option.bind_eq_some_iff.mp h
  rw [depth?_open, ht.depth?] at hn
  exact absurd (Option.some.inj hn) (Nat.succ_ne_zero n)

/-- The first `>` that a text does not take bounds the balanced text before it. -/
theorem IsBalanced.unique {s t u v : Text} (hs : IsBalanced s) (ht : IsBalanced t)
    (h : s ++ '>' :: u = t ++ '>' :: v) : s = t := by
  have hlonger {t u : Text} (ht : IsBalanced t) : ¬IsBalanced (t ++ '>' :: u) := by
    rw [IsBalanced, Bracket.IsBalanced, Bracket.depth?_append, ht]
    exact fun h => by cases h
  rcases List.append_eq_append_iff.mp h with ⟨m, hm, hrest⟩ | ⟨m, hm, hrest⟩
  · cases m with
    | nil => simpa using hm.symm
    | cons c m =>
        obtain ⟨rfl, -⟩ := List.cons.inj hrest
        exact absurd (hm ▸ ht) (hlonger hs)
  · cases m with
    | nil => simpa using hm
    | cons c m =>
        obtain ⟨rfl, -⟩ := List.cons.inj hrest
        exact absurd (hm ▸ hs) (hlonger ht)

theorem angled_append (t u : Text) : t.angled ++ u = '<' :: (t ++ '>' :: u) := by
  rw [angled, List.append_assoc, List.cons_append, List.singleton_append]

theorem angled_inj {s t : Text} : s.angled = t.angled ↔ s = t := by
  rw [angled, angled, List.append_left_inj, List.cons_inj_right]

theorem afterText_angled (p : Position) (t : Text) :
    p.afterText t.angled = ((p.after '<').afterText t).after '>' := by
  rw [angled, Position.afterText_append]
  rfl

/-- Without a `<` there is no `>` that closes one. -/
theorem IsBalanced.isPlain {t : Text} (h : IsBalanced t) (hopen : '<' ∉ t) : IsPlain t := by
  induction t using Bracket.angle.textInduction with
  | nil => exact isPlain_nil
  | opener t => exact absurd List.mem_cons_self hopen
  | closer t => cases h
  | other c t hother hclose ih =>
      rw [IsBalanced, Bracket.IsBalanced, Bracket.depth?_other hother hclose] at h
      exact List.forall_mem_cons.mpr
        ⟨⟨hother, hclose⟩, ih h (not_or.mp (List.mem_cons.not.mp hopen)).2⟩

/-- Without a `>` there is no `<` that one closes. -/
theorem IsBalanced.isPlain_of_not_mem_close {t : Text} (h : IsBalanced t) (hclose : '>' ∉ t) :
    IsPlain t := by
  apply h.isPlain
  intro hopen
  obtain ⟨s, rest, rfl⟩ := List.append_of_mem hopen
  rw [IsBalanced, Bracket.IsBalanced, Bracket.depth?_append] at h
  obtain ⟨n, -, hrest⟩ := Option.bind_eq_some_iff.mp h
  rw [depth?_open] at hrest
  exact Nat.not_succ_le_zero n (le_of_depth? hrest fun hmem => hclose (by simp [hmem]))

end Text

namespace Cell

open Text

theorem reverse_layOut_angled (p : Position) (t : Text) :
    (layOut p t.angled).reverse =
      ⟨(p.after '<').afterText t, '>'⟩ :: ((layOut (p.after '<') t).reverse ++ [⟨p, '<'⟩]) := by
  rw [angled, layOut_append, List.reverse_append, layOut_cons p, List.reverse_cons]
  rfl

/-- A search forward passes a text by the angles that the text opens and closes. -/
theorem seek_layOut {n m : Nat} {t : Text} (h : Bracket.angle.depth? n t = some m) (p : Position)
    (rest : List Cell) :
    seek '<' '>' n (layOut p t ++ rest) = seek '<' '>' m rest :=
  Bracket.seek_layOut (b := .angle) h p rest

/-- A search backward passes a text the other way round. -/
theorem seek_reverse_layOut {n m : Nat} {t : Text} (h : Bracket.angle.depth? n t = some m)
    (p : Position) (before : List Cell) :
    seek '>' '<' m ((layOut p t).reverse ++ before) = seek '>' '<' n before :=
  Bracket.seek_reverse_layOut (b := .angle) h p before

/-- What a search forward has passed when it stops. -/
theorem exists_of_seek_layOut {n : Nat} {p s : Position} {t : Text}
    (h : seek '<' '>' n (layOut p t) = some s) :
    ∃ mid post, t = mid ++ '>' :: post ∧ Bracket.angle.depth? n mid = some 0 ∧
      s = p.afterText mid :=
  Bracket.exists_of_seek_layOut (b := .angle) h

/-- What a search backward has passed when it stops. -/
theorem exists_of_seek_reverse_layOut {n : Nat} {p s : Position} {t : Text}
    (h : seek '>' '<' n (layOut p t).reverse = some s) :
    ∃ pre mid, t = pre ++ '<' :: mid ∧ Bracket.angle.depth? 0 mid = some n ∧
      s = p.afterText pre :=
  Bracket.exists_of_seek_reverse_layOut (b := .angle) h

/-- A search stops at one of its cells, which holds the character that it is for. -/
theorem exists_of_seek {nest goal : Char} {n : Nat} {cells : List Cell} {p : Position}
    (h : seek nest goal n cells = some p) :
    ∃ cell ∈ cells, cell.position = p ∧ cell.char = goal := by
  induction cells generalizing n with
  | nil => cases h
  | cons cell cells ih =>
      have hlater {m : Nat} (h : seek nest goal m cells = some p) :
          ∃ other ∈ cell :: cells, other.position = p ∧ other.char = goal := by
        obtain ⟨other, hother, hposition⟩ := ih h
        exact ⟨other, List.mem_cons_of_mem _ hother, hposition⟩
      rw [seek_cons] at h
      split at h
      next => exact hlater h
      next =>
        split at h
        next hgoal =>
          cases n with
          | zero => exact ⟨cell, List.mem_cons_self, Option.some.inj h, hgoal⟩
          | succ n => exact hlater h
        next => exact hlater h

/-- What a search finds it still finds when there are more cells behind. -/
theorem seek_append {nest goal : Char} {n : Nat} {cells : List Cell} {s : Position}
    (h : seek nest goal n cells = some s) (more : List Cell) :
    seek nest goal n (cells ++ more) = some s := by
  induction cells generalizing n with
  | nil => cases h
  | cons cell cells ih =>
      rw [seek_cons] at h
      rw [List.cons_append, seek_cons]
      split at h
      next hnest =>
        rw [if_pos hnest]
        exact ih h
      next hnest =>
        rw [if_neg hnest]
        split at h
        next hgoal =>
          rw [if_pos hgoal]
          cases n with
          | zero => exact h
          | succ n => exact ih h
        next hgoal =>
          rw [if_neg hgoal]
          exact ih h

end Cell

end MarkupPairs
