import MarkupPairs.Proofs.BracketBalance
import MarkupPairs.Proofs.Offsets

/-!
# Quoted literals and the partner of an opening bracket

What the walk forward from a bracket passes over is a matter of the text alone: read from the
bracket on, each character belongs to a quoted literal or does not, and literals run on over line
breaks. The partner of an opening bracket is the first closing one of its pair outside of literals
up to which as many brackets of the pair were opened as were closed.
-/

namespace MarkupPairs

namespace Text

/-- A literal that is being read: the quote that opened it, and whether a backslash right before
speaks for the next character. -/
structure OpenLiteral where
  quote : Char
  escaped : Bool
deriving DecidableEq

/-- What the character at an offset does to the literal that is read there, if there is one. Outside
of literals a quote opens one, unless a backslash stands right before it. -/
def readQuote (t : Text) (i : Nat) : Option OpenLiteral → Option OpenLiteral
  | none =>
    (t[i]?.filter fun c => Bracket.isQuote c && t[i - 1]? != some '\\').map (⟨·, false⟩)
  | some ⟨quote, false⟩ =>
    if t[i]? = some '\\' then some ⟨quote, true⟩
    else if t[i]? = some quote then none
    else some ⟨quote, false⟩
  | some ⟨quote, true⟩ => some ⟨quote, false⟩

/-- The literal that is being read at an offset, when the reading starts behind the offset `o`. -/
def openLiteral? (t : Text) (o : Nat) : Nat → Option OpenLiteral
  | 0 => none
  | i + 1 => if o < i then t.readQuote i (t.openLiteral? o i) else none

/-- Whether the character at an offset belongs to a literal, its quotes included. -/
def isLiteral (t : Text) (o i : Nat) : Bool :=
  (t.openLiteral? o i).isSome || (t.openLiteral? o (i + 1)).isSome

/-- The characters between two offsets that belong to no literal. -/
def codeBetween (t : Text) (o i : Nat) : Text :=
  ((List.range i).filter fun k => o < k && !t.isLiteral o k).filterMap (t[·]?)

variable {t : Text} {o i : Nat} {c : Char}

theorem openLiteral?_succ (h : o < i) :
    t.openLiteral? o (i + 1) = t.readQuote i (t.openLiteral? o i) := if_pos h

theorem openLiteral?_start (t : Text) (o : Nat) : t.openLiteral? o (o + 1) = none :=
  if_neg (Nat.lt_irrefl o)

theorem codeBetween_start (t : Text) (o : Nat) : t.codeBetween o (o + 1) = [] := by
  rw [codeBetween, List.filter_eq_nil_iff.mpr]
  · rfl
  · intro k hk
    have hle : ¬o < k := Nat.not_lt.mpr (Nat.le_of_lt_succ (List.mem_range.mp hk))
    simp [hle]

theorem codeBetween_succ (h : o < i) (hc : t[i]? = some c) :
    t.codeBetween o (i + 1) = t.codeBetween o i ++ if t.isLiteral o i then [] else [c] := by
  rw [codeBetween, List.range_succ, List.filter_append, List.filterMap_append, ← codeBetween]
  cases hliteral : t.isLiteral o i <;> simp [h, hc, hliteral]

theorem codeBetween_of_isLiteral (h : o < i) (hc : t[i]? = some c) (hliteral : t.isLiteral o i) :
    t.codeBetween o (i + 1) = t.codeBetween o i := by
  rw [codeBetween_succ h hc, if_pos hliteral, List.append_nil]

theorem codeBetween_of_isCode (h : o < i) (hc : t[i]? = some c)
    (hcode : t.isLiteral o i = false) :
    t.codeBetween o (i + 1) = t.codeBetween o i ++ [c] := by
  rw [codeBetween_succ h hc, if_neg (Bool.eq_false_iff.mp hcode)]

end Text

namespace Bracket

/-- Whether the character at an offset is the closing one, outside of literals, up to which as many
brackets of the pair were opened as were closed behind the offset `o`. -/
structure ClosesAt (b : Bracket) (t : Text) (o i : Nat) : Prop where
  behind : o < i
  closer : t[i]? = some b.closer
  isCode : t.isLiteral o i = false
  level : (t.codeBetween o i).count b.opener = (t.codeBetween o i).count b.closer

instance (b : Bracket) (t : Text) (o i : Nat) : Decidable (b.ClosesAt t o i) :=
  decidable_of_iff
    (o < i ∧ t[i]? = some b.closer ∧ t.isLiteral o i = false ∧
      (t.codeBetween o i).count b.opener = (t.codeBetween o i).count b.closer)
    ⟨fun ⟨behind, closer, isCode, level⟩ => ⟨behind, closer, isCode, level⟩,
      fun ⟨behind, closer, isCode, level⟩ => ⟨behind, closer, isCode, level⟩⟩

/-- The first offset at which the bracket of a pair is closed that stands at the offset `o`. -/
def closerBehind? (b : Bracket) (t : Text) (o : Nat) : Option Nat :=
  (List.range t.length).find? (b.ClosesAt t o)

end Bracket

namespace QuoteState

/-- The literal that a state is inside of. -/
def openLiteral? : QuoteState → Option Text.OpenLiteral
  | outside _ => none
  | inside quote => some ⟨quote, false⟩
  | escaped quote => some ⟨quote, true⟩

/-- Whether a walk that starts behind the offset `o` is in a state at an offset. -/
structure IsAt (state : QuoteState) (t : Text) (o i : Nat) : Prop where
  literal_eq : t.openLiteral? o i = state.openLiteral?
  previous_eq : ∀ previous, state = outside previous → previous = t[i - 1]?

variable {state : QuoteState} {t : Text} {o i : Nat} {c : Char}

theorem openLiteral?_next (hprevious : ∀ previous, state = outside previous → previous = t[i - 1]?)
    (hc : t[i]? = some c) : (state.next c).openLiteral? = t.readQuote i state.openLiteral? := by
  cases state with
  | outside previous =>
      obtain rfl := hprevious previous rfl
      rw [next, openLiteral?, Text.readQuote, hc, Option.filter_some]
      split
      next => rfl
      next => rfl
  | inside quote =>
      rw [next, openLiteral?, Text.readQuote, hc]
      simp only [Option.some.injEq]
      split
      next => rfl
      next =>
        split
        next => rfl
        next => rfl
  | escaped quote => rfl

theorem previous_of_next {previous : Option Char} (h : state.next c = outside previous) :
    previous = some c := by
  cases state with
  | outside before =>
      rw [next] at h
      split at h
      next => cases h
      next => exact (outside.inj h).symm
  | inside quote =>
      rw [next] at h
      split at h
      next => cases h
      next =>
        split at h
        next => exact (outside.inj h).symm
        next => cases h
  | escaped quote => cases h

theorem IsAt.next (h : state.IsAt t o i) (ho : o < i) (hc : t[i]? = some c) :
    (state.next c).IsAt t o (i + 1) where
  literal_eq := by
    rw [Text.openLiteral?_succ ho, h.literal_eq, openLiteral?_next h.previous_eq hc]
  previous_eq previous hnext := by rw [previous_of_next hnext, Nat.add_sub_cancel, hc]

theorem IsAt.isCode_eq (h : state.IsAt t o i) (ho : o < i) (hc : t[i]? = some c) :
    state.isCode (state.next c) = !t.isLiteral o i := by
  rw [Text.isLiteral, h.literal_eq, (h.next ho hc).literal_eq]
  cases state with
  | outside previous =>
      cases (outside previous).next c <;> rfl
  | inside quote => rfl
  | escaped quote => rfl

end QuoteState

namespace Bracket

/-- Whether `n` brackets more of a pair were opened than were closed between two offsets, outside of
literals. -/
def HasDepth (b : Bracket) (t : Text) (o i n : Nat) : Prop :=
  (t.codeBetween o i).count b.opener = n + (t.codeBetween o i).count b.closer

variable {b : Bracket} {state : QuoteState} {t pre rest : Text} {n o i : Nat} {c : Char}

namespace HasDepth

theorem start (b : Bracket) (t : Text) (o : Nat) : b.HasDepth t o (o + 1) 0 := by
  rw [HasDepth, Text.codeBetween_start]
  rfl

theorem literal (h : b.HasDepth t o i n) (ho : o < i) (hc : t[i]? = some c)
    (hliteral : t.isLiteral o i) : b.HasDepth t o (i + 1) n := by
  rw [HasDepth, Text.codeBetween_of_isLiteral ho hc hliteral]
  exact h

theorem opener (h : b.HasDepth t o i n) (ho : o < i) (hc : t[i]? = some b.opener)
    (hcode : t.isLiteral o i = false) : b.HasDepth t o (i + 1) (n + 1) := by
  have hne : b.opener ≠ b.closer := b.closer_ne_opener.symm
  rw [HasDepth] at h
  rw [HasDepth, Text.codeBetween_of_isCode ho hc hcode, List.count_append, List.count_append,
    List.count_singleton_self, List.count_singleton, beq_false_of_ne hne]
  simp only [Bool.false_eq_true, if_false]
  omega

theorem closer (h : b.HasDepth t o i (n + 1)) (ho : o < i) (hc : t[i]? = some b.closer)
    (hcode : t.isLiteral o i = false) : b.HasDepth t o (i + 1) n := by
  rw [HasDepth] at h
  rw [HasDepth, Text.codeBetween_of_isCode ho hc hcode, List.count_append, List.count_append,
    List.count_singleton_self, List.count_singleton, beq_false_of_ne b.closer_ne_opener]
  simp only [Bool.false_eq_true, if_false]
  omega

theorem other (h : b.HasDepth t o i n) (ho : o < i) (hc : t[i]? = some c)
    (hcode : t.isLiteral o i = false) (hopener : c ≠ b.opener) (hcloser : c ≠ b.closer) :
    b.HasDepth t o (i + 1) n := by
  rw [HasDepth, Text.codeBetween_of_isCode ho hc hcode, List.count_append, List.count_append,
    List.count_singleton, List.count_singleton, beq_false_of_ne hopener, beq_false_of_ne hcloser]
  exact h

end HasDepth

/-- A walk that stands at some offset, with so many brackets open, goes on to the first offset from
there on at which the bracket is closed. -/
theorem seek_code_eq_find? (ht : t = pre ++ rest) (hstate : state.IsAt t o pre.length)
    (ho : o < pre.length) (hdepth : b.HasDepth t o pre.length n) (p : Position) :
    Cell.seek b.opener b.closer n (state.code (Cell.layOut (p.afterText pre) rest)) =
      ((List.range' pre.length rest.length).find? (b.ClosesAt t o)).map
        fun i => p.afterText (t.take i) := by
  induction rest generalizing pre state n with
  | nil => rfl
  | cons c rest ih =>
      have hc : t[pre.length]? = some c := by simp [ht]
      have hlength : (pre ++ [c]).length = pre.length + 1 := List.length_append
      -- the walk behind the character, for the count that the character leads to
      have hrest (m : Nat) (hm : b.HasDepth t o (pre.length + 1) m) :
          Cell.seek b.opener b.closer m
              ((state.next c).code (Cell.layOut ((p.afterText pre).after c) rest)) =
            ((List.range' (pre.length + 1) rest.length).find? (b.ClosesAt t o)).map
              fun i => p.afterText (t.take i) := by
        have htext : t = pre ++ [c] ++ rest := by simp [ht]
        rw [← hlength] at hm ⊢
        rw [← Position.afterText_singleton, ← Position.afterText_append]
        refine ih htext ?_ ?_ hm
        · rw [hlength]
          exact hstate.next ho hc
        · rw [hlength]
          exact Nat.lt_succ_of_lt ho
      have hskip (hnot : ¬b.ClosesAt t o pre.length) :
          (List.range' pre.length (c :: rest).length).find? (b.ClosesAt t o) =
            (List.range' (pre.length + 1) rest.length).find? (b.ClosesAt t o) := by
        rw [List.length_cons, List.range'_succ, List.find?_cons_of_neg (by simpa using hnot)]
      rw [Cell.layOut_cons, QuoteState.code, hstate.isCode_eq ho hc]
      cases hliteral : t.isLiteral o pre.length with
      | true =>
          rw [hskip fun h => Bool.false_ne_true (h.isCode.symm.trans hliteral)]
          exact hrest n (hdepth.literal ho hc hliteral)
      | false =>
          by_cases hopener : c = b.opener
          · subst c
            rw [hskip fun h => b.closer_ne_opener (Option.some.inj (h.closer.symm.trans hc))]
            exact (Cell.seek_cons_nest _ _ _ _ _).trans (hrest _ (hdepth.opener ho hc hliteral))
          · by_cases hcloser : c = b.closer
            · subst c
              cases n with
              | zero =>
                  have hcloses : b.ClosesAt t o pre.length :=
                    ⟨ho, hc, hliteral, hdepth.trans (Nat.zero_add _)⟩
                  rw [List.length_cons, List.range'_succ,
                    List.find?_cons_of_pos (by simpa using hcloses), Option.map_some, ht,
                    List.take_left]
                  exact Cell.seek_cons_goal_zero b.closer_ne_opener _ _
              | succ n =>
                  have hopen : ¬b.ClosesAt t o pre.length := fun h => by
                    have hlevel := hdepth.symm.trans h.level
                    omega
                  rw [hskip hopen]
                  exact (Cell.seek_cons_goal_succ b.closer_ne_opener _ _ _).trans
                    (hrest n (hdepth.closer ho hc hliteral))
            · rw [hskip fun h => hcloser (Option.some.inj (hc.symm.trans h.closer))]
              exact (Cell.seek_cons_other hopener hcloser _ _).trans
                (hrest n (hdepth.other ho hc hliteral hopener hcloser))

end Bracket

namespace Document

variable {d : Document} {b : Bracket} {p : Position}

/-- The partner of an opening bracket is found where the text says that the bracket is closed. -/
theorem bracketPartner?_eq_closerBehind? (h : (⟨b, .opening, p⟩ : BracketAt).StandsIn d) :
    d.bracketPartner? ⟨b, .opening, p⟩ =
      (b.closerBehind? d.text (d.offsetAt p)).map d.positionAt := by
  obtain ⟨pre, rest, hdiv⟩ := exists_dividedAt_of_opening h
  have hlength : (pre ++ [b.opener]).length = pre.length + 1 := List.length_append
  have htext : d.text = pre ++ [b.opener] ++ rest := hdiv.next.text_eq
  have hstate : (QuoteState.outside (some b.opener)).IsAt d.text pre.length
      (pre ++ [b.opener]).length := by
    rw [hlength]
    refine ⟨Text.openLiteral?_start _ _, fun previous heq => ?_⟩
    rw [← QuoteState.outside.inj heq]
    simp [htext]
  have hwalk := Bracket.seek_code_eq_find? (b := b) htext hstate (hlength ▸ Nat.lt_succ_self _)
    (hlength ▸ Bracket.HasDepth.start b _ _) Position.origin
  have hfront : (List.range (pre.length + 1)).find? (b.ClosesAt d.text pre.length) = none := by
    apply List.find?_eq_none.mpr
    intro i hi hcloses
    have hlt := (of_decide_eq_true hcloses).behind
    have hle := List.mem_range.mp hi
    omega
  have hrange : List.range d.text.length =
      List.range (pre.length + 1) ++ List.range' (pre.length + 1) rest.length := by
    have htotal : d.text.length = pre.length + 1 + rest.length := by
      rw [htext, List.length_append, hlength]
    rw [htotal, List.range_eq_range', List.range_eq_range', ← List.range'_append_1, Nat.zero_add]
  rw [hlength, ← hdiv.next.position_eq] at hwalk
  rw [bracketPartner?_opening_eq_seek hdiv, Bracket.closerBehind?, hdiv.offsetAt, hrange,
    List.find?_append, hfront, Option.none_or]
  exact hwalk

/-- An escaped quote ends no literal, and the literal goes on behind the line break: the bracket is
closed at the end of the second line. -/
theorem bracketPartner?_eq_closerBehind?_escaped :
    let d : Document := ⟨['(', '\x22', '\\', '\x22', ')', '\n', ')', '\x22', '(', ')', ')'], .lf⟩
    (⟨.paren, .opening, ⟨0, 0⟩⟩ : BracketAt).StandsIn d ∧
      d.bracketPartner? ⟨.paren, .opening, ⟨0, 0⟩⟩ = some ⟨1, 4⟩ := by
  intro d
  have hstands : (⟨.paren, .opening, ⟨0, 0⟩⟩ : BracketAt).StandsIn d := rfl
  refine ⟨hstands, ?_⟩
  rw [bracketPartner?_eq_closerBehind? hstands]
  decide

end Document

end MarkupPairs
