import MarkupPairs.Bracket
import MarkupPairs.Proofs.BracketDepth
import MarkupPairs.Proofs.Lines

/-!
# The walks from a bracket, line by line

A walk reads its lines one after the other by their indices. Forward it jumps over what a backslash
speaks for, which may take it past the end of its line, and looks back no further than to the start
of the line. None of this shows: the walk is the search through the cells of the text, line feeds
included, that a reader of the literals passes on, who goes from character to character and knows
nothing of lines.
-/

namespace MarkupPairs

/-- A text without its last line is nothing, or ends in a line feed. -/
theorem Text.lastLine_cases (t : Text) :
    t.lastLine = t ∨ ∃ front, t = front ++ '\n' :: t.lastLine := by
  induction t using List.reverseRecOn with
  | nil => exact .inl rfl
  | append_singleton t c ih =>
      by_cases hc : c = '\n'
      · subst c
        exact .inr ⟨t, by rw [lastLine_append_lineFeed]; rfl⟩
      · rw [lastLine_append_of_flat (by simpa using Ne.symm hc)]
        rcases ih with ih | ⟨front, ih⟩
        · exact .inl (by rw [ih])
        · refine .inr ⟨front, ?_⟩
          conv_lhs => rw [ih]
          simp

/-- Where a reader stands with respect to quoted literals. -/
inductive QuoteState where
  /-- Outside of a literal, right after the character `previous`. -/
  | outside (previous : Option Char)
  /-- Inside a literal that `quote` opened. -/
  | inside (quote : Char)
  /-- Inside a literal that `quote` opened, right after a backslash that speaks for the next
  character. -/
  | escaped (quote : Char)
deriving DecidableEq

namespace QuoteState

/-- The state after a character. A quote right after a backslash opens no literal. -/
def next (c : Char) : QuoteState → QuoteState
  | outside previous =>
    if Bracket.isQuote c && previous != some '\\' then inside c else outside (some c)
  | inside quote =>
    if c = '\\' then escaped quote else if c = quote then outside (some c) else inside quote
  | escaped quote => inside quote

/-- Whether the character that leads from one state to another is code: it stands outside of every
literal and opens none. -/
def isCode : QuoteState → QuoteState → Bool
  | outside _, outside _ => true
  | _, _ => false

/-- The cells that stand outside of literals, quotes not included. -/
def code : QuoteState → List Cell → List Cell
  | _, [] => []
  | state, cell :: rest =>
    let state' := state.next cell.char
    if state.isCode state' then cell :: code state' rest else code state' rest

/-- Whether a reader in front of the index `i` of a line is in the state that a walk with this quote
at hand keeps in mind there. -/
inductive Matches (chars : Text) (i : Nat) : QuoteState → Option Char → Prop where
  | outside {previous : Option Char}
      (backslash : previous = some '\\' ↔ i ≠ 0 ∧ chars[i - 1]? = some '\\') :
      Matches chars i (outside previous) none
  | inside {quote : Char} (isQuote : Bracket.isQuote quote) :
      Matches chars i (inside quote) (some quote)

/-- Whether a reader at the end of a line is in a state from which a walk with this quote at hand
goes on to the next line. -/
inductive Leaves : QuoteState → Option Char → Prop where
  | outside {previous : Option Char} : Leaves (outside previous) none
  | inside {quote : Char} (isQuote : Bracket.isQuote quote) : Leaves (inside quote) (some quote)
  | escaped {quote : Char} (isQuote : Bracket.isQuote quote) : Leaves (escaped quote) (some quote)

variable {state : QuoteState} {quote previous : Option Char} {chars : Text} {cell : Cell}
  {c q : Char} {i n depth : Nat} {own partner : Char}

theorem not_isQuote_lineFeed (h : Bracket.isQuote q) : '\n' ≠ q := by
  rintro rfl
  cases h

/-! ## The reader's steps -/

theorem next_outside_of_opens (h : Bracket.isQuote c ∧ previous ≠ some '\\') :
    (outside previous).next c = inside c := by
  rw [next, if_pos]
  simpa using h

theorem next_outside_of_not_opens (h : ¬(Bracket.isQuote c ∧ previous ≠ some '\\')) :
    (outside previous).next c = outside (some c) := by
  rw [next, if_neg]
  simpa using h

theorem code_sublist (state : QuoteState) (cells : List Cell) :
    (state.code cells).Sublist cells := by
  induction cells generalizing state with
  | nil => exact .slnil
  | cons cell cells ih =>
      rw [code]
      split
      · exact (ih _).cons_cons cell
      · exact (ih _).cons cell

/-! ## The reader and the walk -/

theorem Matches.leaves (h : state.Matches chars i quote) : state.Leaves quote := by
  cases h with
  | outside => exact .outside
  | inside isQuote => exact .inside isQuote

/-- Right behind a character that opens no literal. -/
theorem matches_outside (h : chars[i]? = some c) :
    (outside (some c)).Matches chars (i + 1) none :=
  .outside (by simp [h])

/-- The look behind the walk sees the backslash that the reader has just passed. -/
theorem not_backslash_iff
    (hbackslash : previous = some '\\' ↔ i ≠ 0 ∧ chars[i - 1]? = some '\\') :
    previous ≠ some '\\' ↔ i = 0 ∨ chars[i - 1]? ≠ some '\\' := by
  rw [Ne, hbackslash, not_and_or, not_ne_iff]

/-- Where the walk takes a character for a quote, the reader does too. -/
theorem Matches.exists_next_of_opens (h : state.Matches chars i none) (hi : i < chars.length)
    (hopens : Bracket.isQuote chars[i] ∧ (i = 0 ∨ chars[i - 1]? ≠ some '\\')) :
    ∃ previous, state = .outside previous ∧ state.next chars[i] = .inside chars[i] := by
  cases h with
  | @outside previous hbackslash =>
      rw [← not_backslash_iff hbackslash] at hopens
      exact ⟨previous, rfl, next_outside_of_opens hopens⟩

theorem Matches.exists_next_of_not_opens (h : state.Matches chars i none) (hi : i < chars.length)
    (hopens : ¬(Bracket.isQuote chars[i] ∧ (i = 0 ∨ chars[i - 1]? ≠ some '\\'))) :
    ∃ previous, state = .outside previous ∧ state.next chars[i] = .outside (some chars[i]) := by
  cases h with
  | @outside previous hbackslash =>
      rw [← not_backslash_iff hbackslash] at hopens
      exact ⟨previous, rfl, next_outside_of_not_opens hopens⟩

/-- Behind the line feed the reader is where a walk starts on the next line. -/
theorem Leaves.matches_next (h : state.Leaves quote) (chars : Text) :
    (state.next '\n').Matches chars 0 quote := by
  cases h with
  | outside => exact .outside (by simp)
  | @inside q isQuote =>
      have hnext : (QuoteState.inside q).next '\n' = .inside q := by
        rw [next, if_neg (by decide), if_neg (not_isQuote_lineFeed isQuote)]
      rw [hnext]
      exact .inside isQuote
  | escaped isQuote => exact .inside isQuote

/-- The line feed at the end of a line is nothing that a search stops at. -/
theorem seek_code_lineFeed (hown : '\n' ≠ own) (hpartner : '\n' ≠ partner) (state : QuoteState)
    (depth : Nat) (p : Position) (rest : List Cell) :
    Cell.seek own partner depth (state.code (⟨p, '\n'⟩ :: rest)) =
      Cell.seek own partner depth ((state.next '\n').code rest) := by
  rw [code]
  split
  next => rw [Cell.seek_cons_other hown hpartner]
  next => rfl

end QuoteState

namespace Cell

/-- The cells of a line from an index on. -/
def onLine (n : Nat) (chars : Text) (i : Nat) : List Cell := layOut ⟨n, i⟩ (chars.drop i)

/-- What stands in front of a place, the nearest first: its line, and the line feed above. -/
theorem reverse_layOut_lineFeed {p : Position} {front : Text} {n k : Nat}
    (h : p.afterText front = ⟨n, k⟩) (chars : Text) :
    (layOut p (front ++ '\n' :: chars)).reverse =
      (layOut ⟨n + 1, 0⟩ chars).reverse ++ ⟨⟨n, k⟩, '\n'⟩ :: (layOut p front).reverse := by
  rw [layOut_append, h, layOut_cons, List.reverse_append, List.reverse_cons, List.append_assoc]
  rfl

theorem onLine_of_le {n i : Nat} {chars : Text} (h : chars.length ≤ i) : onLine n chars i = [] := by
  rw [onLine, List.drop_of_length_le h, layOut_nil]

theorem onLine_of_lt {n i : Nat} {chars : Text} (hline : '\n' ∉ chars) (h : i < chars.length) :
    onLine n chars i = ⟨⟨n, i⟩, chars[i]⟩ :: onLine n chars (i + 1) := by
  have hne : chars[i] ≠ '\n' := fun heq => hline (heq ▸ List.getElem_mem h)
  rw [onLine, List.drop_eq_getElem_cons h, layOut_cons, Position.after_of_ne hne]
  rfl

end Cell

namespace QuoteState

variable {state state' : QuoteState} {chars : Text} {i : Nat}

/-- A reader passes over a character that belongs to a literal. -/
theorem code_onLine_of_literal (hline : '\n' ∉ chars) (hi : i < chars.length)
    (hnext : state.next chars[i] = state') (hliteral : state.isCode state' = false) (n : Nat)
    (rest : List Cell) :
    state.code (Cell.onLine n chars i ++ rest) =
      state'.code (Cell.onLine n chars (i + 1) ++ rest) := by
  subst hnext
  rw [Cell.onLine_of_lt hline hi, List.cons_append, code]
  exact if_neg (Bool.eq_false_iff.mp hliteral)

/-- A reader passes on a character that belongs to none. -/
theorem code_onLine_of_code (hline : '\n' ∉ chars) (hi : i < chars.length)
    (hnext : state.next chars[i] = state') (hcode : state.isCode state') (n : Nat)
    (rest : List Cell) :
    state.code (Cell.onLine n chars i ++ rest) =
      ⟨⟨n, i⟩, chars[i]⟩ :: state'.code (Cell.onLine n chars (i + 1) ++ rest) := by
  subst hnext
  rw [Cell.onLine_of_lt hline hi, List.cons_append, code]
  exact if_pos hcode

end QuoteState

namespace LineWalk

/-- Whether a search, told what stands behind the line `n`, ends the way that a walk over the line
says: it stops at an index there, or it goes on behind the line with what the walk takes along. -/
def Decides (n : Nat) (own partner : Char) (search : List Cell → Option Position) :
    LineWalk (Nat × Option Char) → Prop
  | found i => ∀ rest, search rest = some ⟨n, i⟩
  | onward (depth, quote) =>
    ∃ state : QuoteState, state.Leaves quote ∧
      ∀ rest, search rest = Cell.seek own partner depth (state.code rest)

variable {own partner : Char} {chars : Text} {i n depth : Nat} {state : QuoteState}
  {quote : Option Char}

theorem forward_of_le (h : chars.length ≤ i) (depth : Nat) (quote : Option Char) :
    forward own partner chars i depth quote = onward (depth, quote) := by
  rw [forward.eq_def, dif_neg (Nat.not_lt.mpr h)]

/-- The walk over the rest of a line is what becomes of the search that passes on what stands
there. -/
theorem decides_forward (own partner : Char) (n depth : Nat) (hline : '\n' ∉ chars)
    (hmatches : state.Matches chars i quote) :
    Decides n own partner
      (fun rest => Cell.seek own partner depth (state.code (Cell.onLine n chars i ++ rest)))
      (forward own partner chars i depth quote) := by
  -- along the loop, a reader keeping up with it
  fun_induction forward own partner chars i depth quote generalizing state with
  | case1 i depth hi quote hbackslash ih =>
      obtain ⟨⟩ | ⟨isQuote⟩ := hmatches
      have hnext : (QuoteState.inside quote).next chars[i] = .escaped quote := if_pos hbackslash
      simp only [QuoteState.code_onLine_of_literal hline hi hnext rfl]
      by_cases hlast : i + 1 < chars.length
      · have hskip : (QuoteState.escaped quote).next chars[i + 1] = .inside quote := rfl
        simp only [QuoteState.code_onLine_of_literal hline hlast hskip rfl]
        exact ih (.inside isQuote)
      · rw [forward_of_le (Nat.le_succ_of_le (Nat.le_of_not_lt hlast))]
        refine ⟨.escaped quote, .escaped isQuote, fun rest => ?_⟩
        rw [Cell.onLine_of_le (Nat.le_of_not_lt hlast)]
        rfl
  | case2 i depth hi hbackslash ih =>
      obtain ⟨⟩ | ⟨isQuote⟩ := hmatches
      have hnext : (QuoteState.inside chars[i]).next chars[i] = .outside (some chars[i]) :=
        (if_neg hbackslash).trans (if_pos rfl)
      simp only [QuoteState.code_onLine_of_literal hline hi hnext rfl]
      exact ih (QuoteState.matches_outside (List.getElem?_eq_getElem hi))
  | case3 i depth hi quote hbackslash hquote ih =>
      obtain ⟨⟩ | ⟨isQuote⟩ := hmatches
      have hnext : (QuoteState.inside quote).next chars[i] = .inside quote :=
        (if_neg hbackslash).trans (if_neg hquote)
      simp only [QuoteState.code_onLine_of_literal hline hi hnext rfl]
      exact ih (.inside isQuote)
  | case4 i depth hi hopens ih =>
      obtain ⟨previous, rfl, hnext⟩ := hmatches.exists_next_of_opens hi hopens
      simp only [QuoteState.code_onLine_of_literal hline hi hnext rfl]
      exact ih (.inside hopens.1)
  | case5 i depth hi hopens hnest ih =>
      obtain ⟨previous, rfl, hnext⟩ := hmatches.exists_next_of_not_opens hi hopens
      simp only [QuoteState.code_onLine_of_code hline hi hnext rfl, hnest, Cell.seek_cons_nest]
      exact ih (QuoteState.matches_outside (List.getElem?_eq_some_iff.mpr ⟨hi, hnest⟩))
  | case6 i hi hopens hnest hgoal =>
      obtain ⟨previous, rfl, hnext⟩ := hmatches.exists_next_of_not_opens hi hopens
      simp only [QuoteState.code_onLine_of_code hline hi hnext rfl, hgoal,
        Cell.seek_cons_goal_zero (hgoal ▸ hnest)]
      exact fun rest => rfl
  | case7 i hi hopens hnest hgoal depth ih =>
      obtain ⟨previous, rfl, hnext⟩ := hmatches.exists_next_of_not_opens hi hopens
      simp only [QuoteState.code_onLine_of_code hline hi hnext rfl, hgoal,
        Cell.seek_cons_goal_succ (hgoal ▸ hnest)]
      exact ih (QuoteState.matches_outside (List.getElem?_eq_some_iff.mpr ⟨hi, hgoal⟩))
  | case8 i depth hi hopens hnest hgoal ih =>
      obtain ⟨previous, rfl, hnext⟩ := hmatches.exists_next_of_not_opens hi hopens
      have hother {depth : Nat} {rest : List Cell} :
          Cell.seek own partner depth (⟨⟨n, i⟩, chars[i]⟩ :: rest) =
            Cell.seek own partner depth rest := Cell.seek_cons_other hnest hgoal depth rest
      simp only [QuoteState.code_onLine_of_code hline hi hnext rfl, hother]
      exact ih (QuoteState.matches_outside (List.getElem?_eq_getElem hi))
  | case9 i depth quote hi =>
      refine ⟨state, hmatches.leaves, fun rest => ?_⟩
      rw [Cell.onLine_of_le (Nat.le_of_not_lt hi)]
      rfl

/-- The characters of a line in front of an index, the nearest first. -/
theorem reverse_layOut_take_succ (hline : '\n' ∉ chars) (hi : i < chars.length) (n : Nat) :
    (Cell.layOut ⟨n, 0⟩ (chars.take (i + 1))).reverse =
      ⟨⟨n, i⟩, chars[i]⟩ :: (Cell.layOut ⟨n, 0⟩ (chars.take i)).reverse := by
  have hflat : ∀ c ∈ chars.take i, c ≠ '\n' := fun c hc heq =>
    hline (heq ▸ List.mem_of_mem_take hc)
  have hplace : (⟨n, 0⟩ : Position).afterText (chars.take i) = ⟨n, i⟩ := by
    rw [Position.afterText_of_flat hflat, List.length_take_of_le (Nat.le_of_lt hi),
      Position.right, Nat.zero_add]
  rw [List.take_succ_eq_append_getElem hi, Cell.layOut_append, hplace, List.reverse_append]
  rfl

/-- The walk to the left over the beginning of a line is what becomes of the search there. -/
theorem seek_reverse_take (own partner : Char) (n depth : Nat) (hline : '\n' ∉ chars)
    (hi : i ≤ chars.length) (before : List Cell) :
    Cell.seek own partner depth ((Cell.layOut ⟨n, 0⟩ (chars.take i)).reverse ++ before) =
      match backward own partner chars i depth with
      | .found i => some ⟨n, i⟩
      | .onward depth => Cell.seek own partner depth before := by
  fun_induction backward own partner chars i depth with
  | case1 depth => rfl
  | case2 i depth hnest ih =>
      obtain ⟨hlt, hnest⟩ := List.getElem?_eq_some_iff.mp hnest
      rw [reverse_layOut_take_succ hline hlt, hnest, List.cons_append, Cell.seek_cons_nest]
      exact ih (Nat.le_of_lt hlt)
  | case3 i hnest hgoal =>
      obtain ⟨hlt, hgoal⟩ := List.getElem?_eq_some_iff.mp hgoal
      rw [List.getElem?_eq_getElem hlt, hgoal, Option.some.injEq] at hnest
      rw [reverse_layOut_take_succ hline hlt, hgoal, List.cons_append,
        Cell.seek_cons_goal_zero hnest]
  | case4 i hnest hgoal depth ih =>
      obtain ⟨hlt, hgoal⟩ := List.getElem?_eq_some_iff.mp hgoal
      rw [List.getElem?_eq_getElem hlt, hgoal, Option.some.injEq] at hnest
      rw [reverse_layOut_take_succ hline hlt, hgoal, List.cons_append,
        Cell.seek_cons_goal_succ hnest]
      exact ih (Nat.le_of_lt hlt)
  | case5 i depth hnest hgoal ih =>
      rw [List.getElem?_eq_getElem hi, Option.some.injEq] at hnest hgoal
      rw [reverse_layOut_take_succ hline hi, List.cons_append, Cell.seek_cons_other hnest hgoal]
      exact ih (Nat.le_of_lt hi)

/-! ## Where a walk stops -/

theorem getElem?_of_forward {j : Nat} (h : forward own partner chars i depth quote = .found j) :
    chars[j]? = some partner := by
  fun_induction forward own partner chars i depth quote with
  | case1 i depth hi quote hbackslash ih => exact ih h
  | case2 i depth hi hbackslash ih => exact ih h
  | case3 i depth hi quote hbackslash hquote ih => exact ih h
  | case4 i depth hi hopens ih => exact ih h
  | case5 i depth hi hopens hnest ih => exact ih h
  | case6 i hi hopens hnest hgoal =>
      obtain rfl := found.inj h
      exact List.getElem?_eq_some_iff.mpr ⟨hi, hgoal⟩
  | case7 i hi hopens hnest hgoal depth ih => exact ih h
  | case8 i depth hi hopens hnest hgoal ih => exact ih h
  | case9 i depth quote hi => cases h

theorem getElem?_of_backward {j : Nat} (h : backward own partner chars i depth = .found j) :
    chars[j]? = some partner := by
  fun_induction backward own partner chars i depth with
  | case1 depth => cases h
  | case2 i depth hnest ih => exact ih h
  | case3 i hnest hgoal =>
      obtain rfl := found.inj h
      exact hgoal
  | case4 i hnest hgoal depth ih => exact ih h
  | case5 i depth hnest hgoal ih => exact ih h

end LineWalk

namespace Document

variable {d : Document} {own partner : Char} {chars pre post : Text} {rest : List Text}
  {state : QuoteState} {quote : Option Char} {n i depth : Nat} {p : Position}

/-- A walk passes its first line the way the search passes what stands there. -/
theorem walkForward_cons (hline : '\n' ∉ chars) (hmatches : state.Matches chars i quote)
    {behind : List Cell}
    (hrest : ∀ {state : QuoteState} {depth quote}, state.Leaves quote →
      walkForward own partner (n + 1) 0 depth quote rest =
        Cell.seek own partner depth (state.code behind)) :
    walkForward own partner n i depth quote (chars :: rest) =
      Cell.seek own partner depth (state.code (Cell.onLine n chars i ++ behind)) := by
  have hwalk := LineWalk.decides_forward own partner n depth hline hmatches
  rw [walkForward]
  cases hforward : LineWalk.forward own partner chars i depth quote with
  | found i =>
      rw [hforward] at hwalk
      exact (hwalk behind).symm
  | onward out =>
      rw [hforward] at hwalk
      obtain ⟨state', hleaves, hbehind⟩ := hwalk
      exact (hrest hleaves).trans (hbehind behind).symm

/-- The walk over some lines is the search through the text that they make up. -/
theorem walkForward_eq_seek (hown : '\n' ≠ own) (hpartner : '\n' ≠ partner)
    (hlines : ∀ l ∈ chars :: rest, '\n' ∉ l) (hmatches : state.Matches chars i quote) :
    walkForward own partner n i depth quote (chars :: rest) =
      Cell.seek own partner depth
        (state.code (Cell.layOut ⟨n, i⟩ (Text.ofLines (chars.drop i :: rest)))) := by
  induction rest generalizing chars state quote n i depth with
  | nil =>
      rw [Text.ofLines_singleton, ← Cell.onLine, ← List.append_nil (Cell.onLine n chars i)]
      exact walkForward_cons (hlines chars List.mem_cons_self) hmatches fun _ => rfl
  | cons next rest ih =>
      obtain ⟨hline, hbehind⟩ := List.forall_mem_cons.mp hlines
      have hflat : ∀ c ∈ chars.drop i, c ≠ '\n' := fun c hc heq =>
        hline (heq ▸ List.mem_of_mem_drop hc)
      rw [Text.ofLines_cons_cons, Cell.layOut_append, Position.afterText_of_flat hflat,
        Cell.layOut_cons, ← Cell.onLine]
      refine walkForward_cons hline hmatches fun hleaves => ?_
      rw [QuoteState.seek_code_lineFeed hown hpartner, ih hbehind (hleaves.matches_next next),
        List.drop_zero]
      rfl

/-- What a place leaves of its line, with the lines below, makes up the text behind it. -/
theorem DividedAt.drop_line (h : d.DividedAt p pre post) :
    (d.line p.line).drop p.character :: d.lines.drop (p.line + 1) = post.lines := by
  have hline : d.lines.drop (p.line + 1) = post.lines.tail := by
    rw [lines, h.text_eq, Text.lines_append, h.position_eq, Text.afterText_origin,
      List.drop_append, List.drop_of_length_le (Nat.le_succ _), Nat.add_sub_cancel_left]
    rfl
  rw [hline, h.line_eq, h.character_eq, List.drop_left, List.cons_head_tail]

theorem DividedAt.take_line (h : d.DividedAt p pre post) :
    (d.line p.line).take p.character = pre.lastLine := by
  rw [h.line_eq, h.character_eq, List.take_left, Text.lastLine]

theorem DividedAt.lastLine_eq (h : d.DividedAt ⟨0, i⟩ pre post) : pre.lastLine = pre := by
  rcases pre.lastLine_cases with hpre | ⟨front, hpre⟩
  · exact hpre
  · have hline := congrArg Position.line h.position_eq
    rw [hpre, Position.line_afterText, List.count_append, List.count_cons_self] at hline
    exact absurd hline.symm (Nat.succ_ne_zero _)

/-- In front of the line of a place stands the line above, with its line feed. -/
theorem DividedAt.exists_lineStop (h : d.DividedAt ⟨n + 1, i⟩ pre post) :
    ∃ front, pre = front ++ '\n' :: pre.lastLine ∧
      d.DividedAt (d.lineStop n) front ('\n' :: (pre.lastLine ++ post)) := by
  have hcount : n + 1 = pre.count '\n' := by
    have hline := congrArg Position.line h.position_eq
    rwa [Position.line_afterText, Position.origin, Nat.zero_add] at hline
  have hlast : pre.lastLine.count '\n' = 0 :=
    List.count_eq_zero.mpr (Text.not_mem_of_mem_lines (List.getLast_mem (Text.lines_ne_nil pre)))
  rcases pre.lastLine_cases with hpre | ⟨front, hpre⟩
  · rw [← hpre, hlast] at hcount
    cases hcount
  · refine ⟨front, hpre, ?_⟩
    have habove : d.DividedAt (Position.origin.afterText front) front
        ('\n' :: (pre.lastLine ++ post)) := by
      refine ⟨?_, rfl⟩
      rw [h.text_eq, ← List.cons_append, ← List.append_assoc, ← hpre]
    have hline : (Position.origin.afterText front).line = n := by
      rw [hpre, List.count_append, List.count_cons_self, hlast] at hcount
      rw [Position.line_afterText, Position.origin, Nat.zero_add]
      exact (Nat.succ.inj hcount).symm
    have hstop : Position.origin.afterText front = d.lineStop n := by
      refine Position.ext_iff'.mpr ⟨hline, ?_⟩
      rw [lineStop, ← hline, lineLength, habove.line_eq, habove.character_eq]
      simp [Text.lines]
    exact hstop ▸ habove

/-- The walk from an opening bracket is the search behind it. -/
theorem bracketPartner?_opening_eq_seek {b : Bracket} (h : d.DividedAt p pre (b.opener :: post)) :
    d.bracketPartner? ⟨b, .opening, p⟩ =
      Cell.seek b.opener b.closer 0
        (QuoteState.code (.outside (some b.opener)) (Cell.layOut (p.after b.opener) post)) := by
  have hopener : '\n' ≠ b.opener := (b.char_ne_lineFeed .opening).symm
  have hcloser : '\n' ≠ b.closer := (b.char_ne_lineFeed .closing).symm
  have hchar : (d.line p.line)[p.character]? = some b.opener := h.charAt_cons hopener.symm
  have hlines : ∀ l ∈ d.line p.line :: d.lines.drop (p.line + 1), '\n' ∉ l := by
    rw [← drop_lines h.line_lt]
    exact fun l hl => Text.not_mem_of_mem_lines (List.mem_of_mem_drop hl)
  have hpost := h.next.drop_line
  rw [Position.after_of_ne hopener.symm] at hpost ⊢
  change d.closingPartner? _ = _
  rw [closingPartner?, drop_lines h.line_lt]
  refine (walkForward_eq_seek hopener hcloser hlines (QuoteState.matches_outside hchar)).trans ?_
  rw [← Text.ofLines_lines post, ← hpost]
  rfl

/-- The walk to the left from a place is the search in front of it. -/
theorem walkBackward_eq_seek (hown : '\n' ≠ own) (hpartner : '\n' ≠ partner)
    (h : d.DividedAt ⟨n, i⟩ pre post) :
    d.walkBackward own partner n i depth =
      Cell.seek own partner depth (Cell.layOut Position.origin pre).reverse := by
  induction n generalizing i pre post depth with
  | zero =>
      have hi : i ≤ (d.line 0).length := (isValid_iff.mp h.isValid).2
      have hline := LineWalk.seek_reverse_take own partner 0 depth (d.not_mem_line 0) hi []
      rw [h.take_line, h.lastLine_eq, List.append_nil] at hline
      rw [walkBackward]
      refine Eq.trans ?_ hline.symm
      cases LineWalk.backward own partner (d.line 0) i depth with
      | found i => rfl
      | onward depth => rfl
  | succ n ih =>
      obtain ⟨front, hpre, habove⟩ := h.exists_lineStop
      have hi : i ≤ (d.line (n + 1)).length := (isValid_iff.mp h.isValid).2
      have hline := LineWalk.seek_reverse_take own partner (n + 1) depth
        (d.not_mem_line (n + 1)) hi
        (⟨d.lineStop n, '\n'⟩ :: (Cell.layOut Position.origin front).reverse)
      rw [h.take_line, lineStop,
        ← Cell.reverse_layOut_lineFeed habove.position_eq.symm, ← hpre] at hline
      rw [walkBackward]
      refine Eq.trans ?_ hline.symm
      cases LineWalk.backward own partner (d.line (n + 1)) i depth with
      | found i => rfl
      | onward depth =>
          refine (ih habove).trans ?_
          exact (Cell.seek_cons_other hown hpartner _ _).symm

/-- The walk from a closing bracket is the search in front of it. -/
theorem bracketPartner?_closing_eq_seek {b : Bracket} (h : d.DividedAt p pre post) :
    d.bracketPartner? ⟨b, .closing, p⟩ =
      Cell.seek b.closer b.opener 0 (Cell.layOut Position.origin pre).reverse := by
  have hle : p.character ≤ d.lineLength p.line := (isValid_iff.mp h.isValid).2
  change d.openingPartner? _ = _
  rw [openingPartner?, Nat.min_eq_left hle]
  exact walkBackward_eq_seek (b.char_ne_lineFeed .closing).symm (b.char_ne_lineFeed .opening).symm h

theorem charAt_of_walkForward {q : Position} (hlines : d.lines.drop n = rest)
    (h : walkForward own partner n i depth quote rest = some q) : d.charAt q = some partner := by
  induction rest generalizing n i depth quote with
  | nil => cases h
  | cons chars rest ih =>
      have hn : n < d.lineCount := by
        apply Nat.lt_of_not_le
        intro hle
        rw [List.drop_of_length_le hle] at hlines
        cases hlines
      rw [drop_lines hn] at hlines
      obtain ⟨hline, hrest⟩ := List.cons.inj hlines
      rw [walkForward] at h
      split at h
      next j hforward =>
        obtain rfl := Option.some.inj h
        rw [charAt, hline]
        exact LineWalk.getElem?_of_forward hforward
      next => exact ih hrest h

theorem charAt_of_walkBackward {q : Position}
    (h : d.walkBackward own partner n i depth = some q) : d.charAt q = some partner := by
  fun_induction walkBackward d own partner n i depth with
  | case1 n i depth j hbackward =>
      obtain rfl := Option.some.inj h
      exact LineWalk.getElem?_of_backward hbackward
  | case2 => cases h
  | case3 i depth depth' n hbackward ih => exact ih h

/-- The partner of a bracket is a bracket of the document. -/
theorem charAt_of_bracketPartner? {b : BracketAt} {q : Position}
    (h : d.bracketPartner? b = some q) :
    d.charAt q = some b.partnerChar := by
  rw [bracketPartner?] at h
  split at h
  next => exact charAt_of_walkForward rfl h
  next => exact charAt_of_walkBackward h

end Document

end MarkupPairs
