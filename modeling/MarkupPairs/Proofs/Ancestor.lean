import MarkupPairs.Proofs.Enclosing
import MarkupPairs.Tag.Surrounding

/-!
# The search for the ancestor

Going backward from cell to cell, the search for the ancestor either stops at a `<`, which it does
only outside comments and with no element left to close, or goes on in another state.
-/

namespace MarkupPairs

section Steps

variable {depth : Nat} {commented : Bool} {behind : Text} {p q r : Position} {c x : Char}
  {before : List Cell}

/-- Characters other than angles change nothing. -/
theorem seekAncestor_other (hopen : c ≠ '<') (hclose : c ≠ '>') :
    seekAncestor depth commented behind (⟨p, c⟩ :: before) =
      seekAncestor depth commented (c :: behind) before := by
  have hchar : (c == '<') = false := beq_eq_false_iff_ne.mpr hopen
  rw [seekAncestor.eq_def]
  cases commented with
  | true => simp only [hchar, Bool.false_and, Bool.not_false]
  | false => simp only [if_neg hclose, if_neg hopen]

theorem seekAncestor_commented_close :
    seekAncestor depth true behind (⟨p, '>'⟩ :: before) =
      seekAncestor depth true ('>' :: behind) before := rfl

theorem seekAncestor_close :
    seekAncestor depth false behind (⟨p, '>'⟩ :: before) =
      match (before.take 2).map Cell.char with
      | ['-', '-'] => seekAncestor depth true ('>' :: behind) before
      | ['/', '<'] => seekAncestor depth false ('>' :: behind) before
      | '/' :: _ => seekAncestor (depth + 1) false ('>' :: behind) before
      | _ => seekAncestor depth false ('>' :: behind) before := by
  rw [seekAncestor.eq_def]
  rfl

theorem seekAncestor_open :
    seekAncestor depth false (c :: behind) (⟨p, '<'⟩ :: before) =
      if c = '/' then seekAncestor (depth + 1) false ('<' :: c :: behind) before
      else if c.isAlpha ∨ c = '>' then
        match depth with
        | 0 => some p
        | depth + 1 => seekAncestor depth false ('<' :: c :: behind) before
      else seekAncestor depth false ('<' :: c :: behind) before := by
  rw [seekAncestor.eq_def]
  rfl

/-- A `>` behind which nothing is special changes nothing. -/
theorem seekAncestor_close_other (hdashes : (before.take 2).map Cell.char ≠ ['-', '-'])
    (hslash : ((before.take 2).map Cell.char).head? = some '/' →
      (before.take 2).map Cell.char = ['/', '<']) :
    seekAncestor depth false behind (⟨p, '>'⟩ :: before) =
      seekAncestor depth false ('>' :: behind) before := by
  rw [seekAncestor_close]
  split
  next heq => exact absurd heq hdashes
  next => rfl
  next hfragment heq =>
    have hchars := hslash (by rw [heq]; rfl)
    rw [heq] at hchars
    exact absurd (List.cons.inj hchars).2 hfragment
  next => rfl

/-- An element by itself is one to close until its own `<`. -/
theorem seekAncestor_slash_close (hx : x ≠ '<') :
    seekAncestor depth false behind (⟨p, '>'⟩ :: ⟨q, '/'⟩ :: ⟨r, x⟩ :: before) =
      seekAncestor (depth + 1) false ('>' :: behind) (⟨q, '/'⟩ :: ⟨r, x⟩ :: before) := by
  rw [seekAncestor_close]
  split
  next heq => cases heq
  next heq => exact absurd (List.cons.inj (List.cons.inj heq).2).1 hx
  next => rfl
  next h => exact absurd rfl (h [x])

/-- Where the search stops. -/
structure IsAncestorAngle (depth : Nat) (commented : Bool) (behind : Text) (c : Char) : Prop where
  depth_eq : depth = 0
  commented_eq : commented = false
  char_eq : c = '<'
  next : ∃ next ∈ behind.head?, next.isAlpha ∨ next = '>'

/-- At each cell the search stops or goes on. -/
theorem seekAncestor_step (depth : Nat) (commented : Bool) (behind : Text) (cell : Cell)
    (before : List Cell) :
    IsAncestorAngle depth commented behind cell.char ∧
        seekAncestor depth commented behind (cell :: before) = some cell.position ∨
      ∃ depth' commented', seekAncestor depth commented behind (cell :: before) =
        seekAncestor depth' commented' (cell.char :: behind) before := by
  obtain ⟨p, c⟩ := cell
  cases commented with
  | true => exact .inr ⟨_, _, rfl⟩
  | false =>
      by_cases hclose : c = '>'
      · subst c
        rw [seekAncestor_close]
        split
        · exact .inr ⟨_, _, rfl⟩
        · exact .inr ⟨_, _, rfl⟩
        · exact .inr ⟨_, _, rfl⟩
        · exact .inr ⟨_, _, rfl⟩
      · by_cases hopen : c = '<'
        · subst c
          cases behind with
          | nil => exact .inr ⟨_, _, rfl⟩
          | cons next behind =>
              rw [seekAncestor_open]
              split
              · exact .inr ⟨_, _, rfl⟩
              · split
                next hnext =>
                  cases depth with
                  | zero => exact .inl ⟨⟨rfl, rfl, rfl, next, rfl, hnext⟩, rfl⟩
                  | succ depth => exact .inr ⟨_, _, rfl⟩
                · exact .inr ⟨_, _, rfl⟩
        · exact .inr ⟨_, _, seekAncestor_other hopen hclose⟩

end Steps

/-- What the search has passed when it stops. -/
theorem exists_of_seekAncestor {depth : Nat} {commented : Bool} {behind t : Text}
    {p q : Position} (h : seekAncestor depth commented behind (Cell.layOut p t).reverse = some q) :
    ∃ pre mid : Text, t = pre ++ '<' :: mid ∧ q = p.afterText pre ∧
      ∃ next ∈ (mid ++ behind).head?, next.isAlpha ∨ next = '>' := by
  induction t using List.reverseRecOn generalizing depth commented behind with
  | nil => cases h
  | append_singleton t c ih =>
      rw [Cell.layOut_append, List.reverse_append, Cell.layOut_cons, Cell.layOut_nil,
        List.reverse_singleton, List.singleton_append] at h
      rcases seekAncestor_step depth commented behind ⟨p.afterText t, c⟩
        (Cell.layOut p t).reverse with ⟨hstop, hq⟩ | ⟨depth', commented', hgo⟩
      · rw [hq] at h
        obtain rfl : c = '<' := hstop.char_eq
        exact ⟨t, [], rfl, (Option.some.inj h).symm, hstop.next⟩
      · rw [hgo] at h
        obtain ⟨pre, mid, rfl, hq, next, hnext, hchar⟩ := ih h
        refine ⟨pre, mid ++ [c], by simp, hq, next, ?_, hchar⟩
        rw [List.append_assoc]
        exact hnext

/-- The search through a text stops in the text or goes on before it. -/
theorem seekAncestor_append (depth : Nat) (commented : Bool) (behind t : Text) (p : Position)
    (before : List Cell) :
    (∃ q, p ≤ q ∧
        seekAncestor depth commented behind ((Cell.layOut p t).reverse ++ before) = some q) ∨
      ∃ depth' commented',
        seekAncestor depth commented behind ((Cell.layOut p t).reverse ++ before) =
          seekAncestor depth' commented' (t ++ behind) before := by
  induction t using List.reverseRecOn generalizing depth commented behind with
  | nil => exact .inr ⟨_, _, rfl⟩
  | append_singleton t c ih =>
      rw [Cell.layOut_append, List.reverse_append, Cell.layOut_cons, Cell.layOut_nil,
        List.reverse_singleton, List.singleton_append, List.cons_append, List.append_assoc]
      rcases seekAncestor_step depth commented behind ⟨p.afterText t, c⟩
        ((Cell.layOut p t).reverse ++ before) with ⟨-, hq⟩ | ⟨depth', commented', hgo⟩
      · exact .inl ⟨_, p.le_afterText t, hq⟩
      · rw [hgo]
        exact ih depth' commented' (c :: behind)

/-- A text without angles changes nothing. -/
theorem Text.IsPlain.seekAncestor {t : Text} (ht : t.IsPlain) (depth : Nat) (commented : Bool)
    (behind : Text) (p : Position) (before : List Cell) :
    MarkupPairs.seekAncestor depth commented behind ((Cell.layOut p t).reverse ++ before) =
      MarkupPairs.seekAncestor depth commented (t ++ behind) before := by
  induction t using List.reverseRecOn generalizing behind with
  | nil => rfl
  | append_singleton t c ih =>
      obtain ⟨ht, hc⟩ := Text.isPlain_append.mp ht
      obtain ⟨hopen, hclose⟩ := hc c List.mem_cons_self
      rw [Cell.layOut_append, List.reverse_append, Cell.layOut_cons, Cell.layOut_nil,
        List.reverse_singleton, List.singleton_append, List.cons_append,
        seekAncestor_other hopen hclose, ih ht, List.append_assoc]
      rfl

/-- An element by itself is one to close when its own `<` is reached. -/
theorem seekAncestor_selfClosing {body : Text} (hbody : body ≠ [])
    (hplain : Text.IsPlain (body ++ ['/'])) (depth : Nat) (behind : Text) (p : Position)
    (before : List Cell) :
    seekAncestor depth false behind
        ((Cell.layOut p (Text.angled (body ++ ['/']))).reverse ++ before) =
      seekAncestor (depth + 1) false (body ++ ['/'] ++ '>' :: behind) (⟨p, '<'⟩ :: before) := by
  obtain ⟨init, x, rfl⟩ := (List.eq_nil_or_concat body).resolve_left hbody
  have hx : x ≠ '<' := (hplain x (by simp)).1
  rw [Cell.reverse_layOut_angled, List.cons_append, List.append_assoc, List.singleton_append]
  refine Eq.trans ?_ (hplain.seekAncestor (depth + 1) false ('>' :: behind) (p.after '<') _)
  simp only [List.concat_eq_append, Cell.layOut_append, Cell.layOut_cons, Cell.layOut_nil,
    List.reverse_append, List.reverse_singleton, List.cons_append]
  exact seekAncestor_slash_close hx

/-- The search does not stop at an element by itself without another angle inside. -/
theorem seekAncestor_ne_of_selfClosing {body : Text} (hbody : body ≠ [])
    (hplain : Text.IsPlain (body ++ ['/'])) (depth : Nat) (commented : Bool)
    (behind pre rest : Text) (p : Position) :
    seekAncestor depth commented behind
        (Cell.layOut p (pre ++ (Text.angled (body ++ ['/']) ++ rest))).reverse ≠
      some (p.afterText pre) := by
  intro h
  have hbefore {q : Position} {depth : Nat} {commented : Bool} {behind : Text}
      (h : seekAncestor depth commented behind (Cell.layOut p pre).reverse = some q) :
      q < p.afterText pre := by
    obtain ⟨pre', mid, rfl, rfl, -⟩ := exists_of_seekAncestor h
    rw [Position.afterText_append]
    exact Position.lt_afterText (List.cons_ne_nil _ _)
  rw [Cell.layOut_append, Cell.layOut_append, List.reverse_append, List.reverse_append,
    List.append_assoc] at h
  rcases seekAncestor_append depth commented behind rest
    ((p.afterText pre).afterText (Text.angled (body ++ ['/'])))
    ((Cell.layOut (p.afterText pre) (Text.angled (body ++ ['/']))).reverse ++
      (Cell.layOut p pre).reverse) with ⟨q, hle, hq⟩ | ⟨depth', commented', hgo⟩
  · obtain rfl := Option.some.inj (h.symm.trans hq)
    exact Position.not_lt.mpr hle (Position.lt_afterText (List.cons_ne_nil _ _))
  · -- at the `<` the search is inside a comment or has an element to close
    obtain ⟨depth'', commented'', hstate, hpass⟩ : ∃ depth'' commented'',
        (depth'' ≠ 0 ∨ commented'' = true) ∧
          seekAncestor depth' commented' (rest ++ behind)
              ((Cell.layOut (p.afterText pre) (Text.angled (body ++ ['/']))).reverse ++
                (Cell.layOut p pre).reverse) =
            seekAncestor depth'' commented'' (body ++ ['/'] ++ '>' :: (rest ++ behind))
              (⟨p.afterText pre, '<'⟩ :: (Cell.layOut p pre).reverse) := by
      cases commented' with
      | false =>
          exact ⟨_, _, .inl (Nat.succ_ne_zero depth'),
            seekAncestor_selfClosing hbody hplain _ _ _ _⟩
      | true =>
          refine ⟨depth', true, .inr rfl, ?_⟩
          rw [Cell.reverse_layOut_angled, List.cons_append, List.append_assoc,
            List.singleton_append, seekAncestor_commented_close]
          exact hplain.seekAncestor depth' true _ _ _
    rw [hgo, hpass] at h
    rcases seekAncestor_step depth'' commented'' (body ++ ['/'] ++ '>' :: (rest ++ behind))
      ⟨p.afterText pre, '<'⟩ (Cell.layOut p pre).reverse with ⟨hstop, -⟩ | ⟨_, _, hgo⟩
    · rcases hstate with hdepth | hcommented
      · exact hdepth hstop.depth_eq
      · exact absurd (hcommented.symm.trans hstop.commented_eq) (by decide)
    · rw [hgo] at h
      exact Position.lt_irrefl _ (hbefore h)

end MarkupPairs
