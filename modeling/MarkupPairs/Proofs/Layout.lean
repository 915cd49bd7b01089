import Mathlib.Data.List.Induction
import Mathlib.Data.List.TakeWhile
import MarkupPairs.Document

/-!
# Places in a text

A valid position divides the text of its document into what stands before it and what stands behind
it, and each division of the text has one position. What a document answers about a valid position
is therefore a fact about the two parts. Other positions still divide the cells, which is all that
the searches look at.
-/

namespace MarkupPairs

namespace Position

theorem lt_irrefl (p : Position) : ¬p < p := by
  simp only [lt_def]
  omega

theorem le_of_eq {p q : Position} (h : p = q) : p ≤ q := h ▸ le_refl p

theorem after_of_ne {p : Position} {c : Char} (h : c ≠ '\n') : p.after c = p.right 1 := by
  simp [after, right, h]

theorem lt_right_one {p q : Position} : q < p.right 1 ↔ q ≤ p := by
  simp only [lt_def, le_def, right]
  omega

theorem right_one_le {p q : Position} : p.right 1 ≤ q ↔ p < q := by
  simp only [lt_def, le_def, right]
  omega

theorem afterText_singleton (p : Position) (c : Char) : p.afterText [c] = p.after c := rfl

theorem lt_afterText {p : Position} {t : Text} (h : t ≠ []) : p < p.afterText t := by
  cases t with
  | nil => exact absurd rfl h
  | cons c rest => exact lt_of_lt_of_le (lt_after p c) (le_afterText _ rest)

theorem afterText_of_flat {p : Position} {t : Text} (h : ∀ c ∈ t, c ≠ '\n') :
    p.afterText t = p.right t.length := by
  induction t generalizing p with
  | nil => rfl
  | cons c rest ih =>
      rw [afterText_cons, after_of_ne (h c (by simp)), ih fun x hx => h x (by simp [hx])]
      simp [right, Nat.add_assoc, Nat.add_comm 1]

/-- Of two beginnings of one text the shorter one ends earlier. -/
theorem afterText_lt_iff {p : Position} {s t u v : Text} (h : s ++ u = t ++ v) :
    p.afterText s < p.afterText t ↔ s.length < t.length := by
  rcases List.append_eq_append_iff.mp h with ⟨m, rfl, _⟩ | ⟨m, rfl, _⟩
  · rw [afterText_append]
    constructor
    · intro hlt
      cases m with
      | nil => exact absurd hlt (lt_irrefl _)
      | cons c m => simp
    · intro hlt
      exact lt_afterText (by rintro rfl; simp at hlt)
  · rw [afterText_append]
    constructor
    · intro hlt
      exact absurd (le_afterText _ m) (not_le.mpr hlt)
    · intro hlt
      rw [List.length_append] at hlt
      omega

theorem afterText_le_iff {p : Position} {s t u v : Text} (h : s ++ u = t ++ v) :
    p.afterText s ≤ p.afterText t ↔ s.length ≤ t.length := by
  rw [← not_lt, afterText_lt_iff h.symm, Nat.not_lt]

/-- Two beginnings of one text that end at the same position are the same. -/
theorem afterText_inj {p : Position} {s t u v : Text} (h : s ++ u = t ++ v)
    (heq : p.afterText s = p.afterText t) : s = t := by
  have hle := (afterText_le_iff h).mp (le_of_eq heq)
  have hge := (afterText_le_iff h.symm).mp (le_of_eq heq.symm)
  exact (List.append_inj h (Nat.le_antisymm hle hge)).1

end Position

/-- The range that a text covers when its first character stands at a position. -/
def Range.spanning (p : Position) (t : Text) : Range := ⟨p, p.afterText t, p.le_afterText t⟩

theorem Range.between_of_le {p q : Position} (h : p ≤ q) : Range.between p q = ⟨p, q, h⟩ :=
  dif_pos h

theorem Range.between_afterText (p : Position) (t : Text) :
    Range.between p (p.afterText t) = Range.spanning p t := between_of_le (p.le_afterText t)

/-- From the start of a text to right after its last character runs the range of the text. -/
theorem Range.between_right {p : Position} {t : Text} {c : Char} (h : c ≠ '\n') :
    Range.between p ((p.afterText t).right 1) = Range.spanning p (t ++ [c]) := by
  have hstop : p.afterText (t ++ [c]) = (p.afterText t).right 1 := by
    rw [Position.afterText_append, Position.afterText_singleton, Position.after_of_ne h]
  rw [← hstop, Range.between_afterText]

namespace Cell

@[simp] theorem layOut_nil (p : Position) : layOut p [] = [] := rfl

@[simp] theorem layOut_cons (p : Position) (c : Char) (t : Text) :
    layOut p (c :: t) = ⟨p, c⟩ :: layOut (p.after c) t := rfl

@[simp] theorem text_append (s t : List Cell) : text (s ++ t) = text s ++ text t :=
  List.map_append

@[simp] theorem length_layOut (p : Position) (t : Text) : (layOut p t).length = t.length := by
  rw [← List.length_map (f := char), ← text, text_layOut]

/-- Each character of a text has its cell behind what stands before it. -/
theorem mem_layOut (p : Position) (s : Text) (c : Char) (t : Text) :
    ⟨p.afterText s, c⟩ ∈ layOut p (s ++ c :: t) := by
  rw [layOut_append]
  exact List.mem_append_right _ List.mem_cons_self

/-- The parts of a laid out text are laid out themselves. -/
theorem layOut_eq_append {p : Position} {t : Text} {a b : List Cell} (h : layOut p t = a ++ b) :
    t = text a ++ text b ∧ a = layOut p (text a) ∧ b = layOut (p.afterText (text a)) (text b) := by
  have ht : t = text a ++ text b := by rw [← text_append, ← h, text_layOut]
  refine ⟨ht, ?_⟩
  rw [ht, layOut_append] at h
  obtain ⟨ha, hb⟩ := List.append_inj h (by simp [text])
  exact ⟨ha.symm, hb.symm⟩

/-- The cells before the position after a beginning are those of the beginning. -/
theorem takeWhile_layOut (p : Position) (s t : Text) :
    (layOut p (s ++ t)).takeWhile (·.position < p.afterText s) = layOut p s := by
  rw [layOut_append, List.takeWhile_append_of_pos]
  · cases t with
    | nil => simp
    | cons c t => simp [Position.lt_irrefl]
  · intro cell hcell
    simpa using position_lt_of_mem_layOut hcell

/-- The cells from the position after a beginning on are those of the rest. -/
theorem dropWhile_layOut (p : Position) (s t : Text) :
    (layOut p (s ++ t)).dropWhile (·.position < p.afterText s) = layOut (p.afterText s) t := by
  rw [layOut_append, List.dropWhile_append_of_pos]
  · cases t with
    | nil => simp
    | cons c t => simp [Position.lt_irrefl]
  · intro cell hcell
    simpa using position_lt_of_mem_layOut hcell

end Cell

namespace Text

theorem lines_cons_of_ne {c : Char} (h : c ≠ '\n') (t : Text) :
    lines (c :: t) = (lines t).modifyHead (c :: ·) := by
  rw [lines, if_neg h]

/-- The last line of a beginning and the first line of the rest make one line of the whole. -/
theorem lines_append (s t : Text) :
    lines (s ++ t) = (lines s).dropLast ++
      ((lines s).getLast (lines_ne_nil s) ++ (lines t).head (lines_ne_nil t)) ::
        (lines t).tail := by
  induction s with
  | nil => simp [lines]
  | cons c rest ih =>
      obtain ⟨l, ls, hls⟩ := List.exists_cons_of_ne_nil (lines_ne_nil rest)
      by_cases hc : c = '\n'
      · simp [lines, hc, ih, List.dropLast_cons_of_ne_nil, List.getLast_cons, lines_ne_nil]
      · simp only [List.cons_append, lines_cons_of_ne hc, ih]
        cases ls with
        | nil => simp [hls]
        | cons m ms => simp [hls]

theorem lengthOfLines_append (ls ms : List Text) :
    lengthOfLines (ls ++ ms) = lengthOfLines ls + lengthOfLines ms := by
  induction ls with
  | nil => exact (Nat.zero_add _).symm
  | cons l rest ih =>
      simp only [List.cons_append, lengthOfLines, ih]
      omega

theorem lengthOfLines_lines (t : Text) : lengthOfLines (lines t) = t.length + 1 := by
  induction t with
  | nil => rfl
  | cons c rest ih =>
      obtain ⟨l, ls, hls⟩ := List.exists_cons_of_ne_nil (lines_ne_nil rest)
      by_cases hc : c = '\n'
      · simp [lines, hc, lengthOfLines, ih]
        omega
      · simp [lines_cons_of_ne hc, hls, lengthOfLines] at ih ⊢
        omega

/-- What stands before the last line of a text, line feeds included, and the line itself make up
the text. -/
theorem lengthOfLines_dropLast_lines (t : Text) :
    lengthOfLines (lines t).dropLast + ((lines t).getLast (lines_ne_nil t)).length =
      t.length := by
  have hsum := lengthOfLines_lines t
  rw [← List.dropLast_concat_getLast (lines_ne_nil t), lengthOfLines_append] at hsum
  simp only [lengthOfLines] at hsum
  omega

/-- A text ends on its last line, behind the last character there. -/
theorem afterText_origin (t : Text) :
    Position.origin.afterText t =
      ⟨(lines t).dropLast.length, ((lines t).getLast (lines_ne_nil t)).length⟩ := by
  induction t using List.reverseRecOn with
  | nil => rfl
  | append_singleton rest c ih =>
      rw [Position.afterText_append, ih, Position.afterText_singleton]
      have hlen : 0 < (lines rest).length := List.length_pos_iff.mpr (lines_ne_nil rest)
      by_cases hc : c = '\n'
      · simp [lines_append, Position.after, lines, hc]
      · simp [lines_append, Position.after, lines, hc]

/-- Each place on a line of a text divides the text. -/
theorem exists_append_of_line {t : Text} {n k : Nat} {l : Text} (hline : t.lines[n]? = some l)
    (hk : k ≤ l.length) (p : Position) :
    ∃ pre post, t = pre ++ post ∧
      p.afterText pre = ⟨p.line + n, if n = 0 then p.character + k else k⟩ := by
  -- by induction on the text, from the place `p` where it starts
  induction t generalizing p n k l with
  | nil =>
      simp only [lines, List.getElem?_singleton] at hline
      split at hline
      next hn =>
        obtain rfl := Option.some.inj hline
        obtain rfl : k = 0 := Nat.le_zero.mp hk
        exact ⟨[], [], rfl, by simp [hn]⟩
      next => cases hline
  | cons c rest ih =>
      by_cases hc : c = '\n'
      · cases n with
        | zero =>
            simp only [lines, hc, if_pos, List.getElem?_cons_zero, Option.some.injEq] at hline
            subst l
            obtain rfl : k = 0 := Nat.le_zero.mp hk
            exact ⟨[], c :: rest, rfl, rfl⟩
        | succ n =>
            simp only [lines, hc, if_pos, List.getElem?_cons_succ] at hline
            obtain ⟨pre, post, rfl, hpre⟩ := ih hline hk (p.after c)
            refine ⟨c :: pre, post, rfl, ?_⟩
            rw [Position.afterText_cons, hpre]
            simp [Position.after, hc]
            omega
      · cases n with
        | zero =>
            obtain ⟨x, xs, hx⟩ := List.exists_cons_of_ne_nil (lines_ne_nil rest)
            simp only [lines, hc, if_neg, not_false_eq_true, hx, List.modifyHead_cons,
              List.getElem?_cons_zero, Option.some.injEq] at hline
            subst l
            cases k with
            | zero => exact ⟨[], c :: rest, rfl, rfl⟩
            | succ k =>
                obtain ⟨pre, post, rfl, hpre⟩ :=
                  ih (n := 0) (k := k) (l := x) (by simp [hx]) (by simpa using hk) (p.after c)
                refine ⟨c :: pre, post, rfl, ?_⟩
                rw [Position.afterText_cons, hpre]
                simp [Position.after, hc]
                omega
        | succ n =>
            simp only [lines, hc, if_neg, not_false_eq_true, List.getElem?_modifyHead] at hline
            obtain ⟨pre, post, rfl, hpre⟩ :=
              ih (n := n + 1) (k := k) (l := l) (by simpa using hline) hk (p.after c)
            refine ⟨c :: pre, post, rfl, ?_⟩
            rw [Position.afterText_cons, hpre]
            simp [Position.after, hc]

end Text

namespace Document

/-- A position of a document, by the text before it and the text behind it. -/
structure DividedAt (d : Document) (p : Position) (pre post : Text) : Prop where
  text_eq : d.text = pre ++ post
  position_eq : p = Position.origin.afterText pre

namespace DividedAt

variable {d : Document} {p : Position} {pre post : Text}

theorem cellsFrom (h : d.DividedAt p pre post) : d.cellsFrom p = Cell.layOut p post := by
  rw [Document.cellsFrom, cells, h.text_eq, h.position_eq, Cell.dropWhile_layOut]

theorem cellsBefore (h : d.DividedAt p pre post) :
    d.cellsBefore p = (Cell.layOut Position.origin pre).reverse := by
  rw [Document.cellsBefore, cells, h.text_eq, h.position_eq, Cell.takeWhile_layOut]

/-- The division one character further on. -/
theorem next {c : Char} (h : d.DividedAt p pre (c :: post)) :
    d.DividedAt (p.after c) (pre ++ [c]) post where
  text_eq := by simp [h.text_eq]
  position_eq := by rw [h.position_eq, Position.afterText_append, Position.afterText_singleton]

theorem append {s : Text} (h : d.DividedAt p pre (s ++ post)) :
    d.DividedAt (p.afterText s) (pre ++ s) post where
  text_eq := by simp [h.text_eq]
  position_eq := by rw [h.position_eq, Position.afterText_append]

theorem cellsAfter {c : Char} (h : d.DividedAt p pre (c :: post)) :
    d.cellsAfter p = Cell.layOut (p.after c) post := by
  have hle : ∀ cell ∈ Cell.layOut Position.origin (pre ++ [c]), cell.position ≤ p := by
    rw [Cell.layOut_append, ← h.position_eq]
    intro cell hcell
    rcases List.mem_append.mp hcell with hpre | hlast
    · rw [h.position_eq]
      exact Position.le_of_lt (Cell.position_lt_of_mem_layOut hpre)
    · rw [List.mem_singleton.mp hlast]
      exact p.le_refl
  rw [Document.cellsAfter, cells, h.next.text_eq, Cell.layOut_append, ← h.next.position_eq,
    List.dropWhile_append_of_pos (by simpa using hle)]
  cases post with
  | nil => rfl
  | cons x post => simp [Position.not_le.mpr (p.lt_after c)]

theorem unique {pre' post' : Text} (h : d.DividedAt p pre post)
    (h' : d.DividedAt p pre' post') : pre = pre' ∧ post = post' := by
  have htext := h.text_eq.symm.trans h'.text_eq
  have hpre := Position.afterText_inj htext (h.position_eq.symm.trans h'.position_eq)
  exact List.append_inj htext (congrArg List.length hpre)

/-- The same text behind two positions stands behind one. -/
theorem position_unique {q : Position} {pre' : Text} (h : d.DividedAt p pre post)
    (h' : d.DividedAt q pre' post) : p = q := by
  have hpre : pre = pre' := List.append_cancel_right (h.text_eq.symm.trans h'.text_eq)
  rw [h.position_eq, h'.position_eq, hpre]

theorem lines_line (h : d.DividedAt p pre post) :
    d.lines[p.line]? = some ((Text.lines pre).getLast (Text.lines_ne_nil pre) ++
      (Text.lines post).head (Text.lines_ne_nil post)) := by
  rw [lines, h.text_eq, h.position_eq, Text.afterText_origin, Text.lines_append]
  simp

theorem character_eq (h : d.DividedAt p pre post) :
    p.character = ((Text.lines pre).getLast (Text.lines_ne_nil pre)).length := by
  rw [h.position_eq, Text.afterText_origin]

theorem line_lt (h : d.DividedAt p pre post) : p.line < d.lineCount := by
  obtain ⟨hlt, _⟩ := List.getElem?_eq_some_iff.mp h.lines_line
  exact hlt

theorem line_eq (h : d.DividedAt p pre post) :
    d.line p.line = (Text.lines pre).getLast (Text.lines_ne_nil pre) ++
      (Text.lines post).head (Text.lines_ne_nil post) := by
  rw [line, h.lines_line, Option.getD_some]

theorem isValid (h : d.DividedAt p pre post) : d.isValid p := by
  simp [Document.isValid, h.line_lt, lineLength, h.line_eq, h.character_eq]

theorem offsetAt (h : d.DividedAt p pre post) : d.offsetAt p = pre.length := by
  have htake : d.lines.take p.line = (Text.lines pre).dropLast := by
    rw [lines, h.text_eq, h.position_eq, Text.afterText_origin, Text.lines_append]
    exact List.take_left
  rw [Document.offsetAt, if_pos h.line_lt, htake, h.character_eq, lineLength, h.line_eq,
    List.length_append, Nat.min_eq_left (Nat.le_add_right _ _), Text.lengthOfLines_dropLast_lines]

theorem positionAt (h : d.DividedAt p pre post) : d.positionAt pre.length = p := by
  rw [Document.positionAt, h.text_eq, List.take_left, h.position_eq]

theorem charAt (h : d.DividedAt p pre post) : d.charAt p = post.head?.filter (· != '\n') := by
  rw [Document.charAt, h.line_eq, h.character_eq, List.getElem?_append_right (Nat.le_refl _),
    Nat.sub_self]
  cases post with
  | nil => simp [Text.lines]
  | cons c rest =>
      by_cases hc : c = '\n'
      · simp [Text.lines, hc, Option.filter]
      · obtain ⟨l, ls, hls⟩ := List.exists_cons_of_ne_nil (Text.lines_ne_nil rest)
        simp [Text.lines_cons_of_ne hc, hls, hc, Option.filter]

theorem charAt_cons {c : Char} (h : d.DividedAt p pre (c :: post)) (hc : c ≠ '\n') :
    d.charAt p = some c := by
  rw [h.charAt]
  simp [Option.filter, hc]

/-- The text of a range that starts at the position. -/
theorem slice {s : Text} (h : d.DividedAt p pre (s ++ post)) :
    d.slice (Range.spanning p s) = s := by
  have hstop : d.offsetAt (Range.spanning p s).stop = pre.length + s.length := by
    rw [← List.length_append]
    exact h.append.offsetAt
  have hstart : d.offsetAt (Range.spanning p s).start = pre.length := h.offsetAt
  rw [Document.slice, hstart, hstop, h.text_eq, ← List.append_assoc, ← List.length_append,
    List.take_left, List.drop_left]

end DividedAt

/-- A valid position divides its document. -/
theorem exists_dividedAt {d : Document} {p : Position} (h : d.isValid p) :
    ∃ pre post, d.DividedAt p pre post := by
  simp only [isValid, Bool.and_eq_true, decide_eq_true_eq] at h
  obtain ⟨hline, hchar⟩ := h
  have hget : d.text.lines[p.line]? = some (d.line p.line) := by
    rw [line, ← lines, List.getElem?_eq_getElem hline, Option.getD_some]
  obtain ⟨pre, post, htext, hpos⟩ := Text.exists_append_of_line hget hchar Position.origin
  refine ⟨pre, post, htext, ?_⟩
  rw [hpos]
  simp [Position.origin]

/-- Between two positions that divide a document there is a text. -/
theorem DividedAt.exists_between {d : Document} {p q : Position} {pre post before behind : Text}
    (h : d.DividedAt q pre post) (hp : d.DividedAt p before behind) (hle : q ≤ p) :
    ∃ mid, before = pre ++ mid ∧ post = mid ++ behind := by
  have htext := h.text_eq.symm.trans hp.text_eq
  rw [h.position_eq, hp.position_eq, Position.afterText_le_iff htext] at hle
  obtain ⟨mid, rfl⟩ : pre <+: before :=
    List.prefix_of_prefix_length_le ⟨_, rfl⟩ ⟨_, htext.symm⟩ hle
  rw [List.append_assoc, List.append_cancel_left_eq] at htext
  exact ⟨mid, rfl, htext⟩

/-- A valid position on a text divides it. -/
theorem DividedAt.exists_split {d : Document} {p q : Position} {pre s post : Text}
    (h : d.DividedAt q pre (s ++ post)) (hvalid : d.isValid p) (hle : q ≤ p)
    (hlt : p < q.afterText s) :
    ∃ near rest, s = near ++ rest ∧ rest ≠ [] ∧ p = q.afterText near ∧
      d.DividedAt p (pre ++ near) (rest ++ post) := by
  obtain ⟨before, behind, hp⟩ := exists_dividedAt hvalid
  obtain ⟨near, rfl, htext⟩ := h.exists_between hp hle
  have hposition : p = q.afterText near := by
    rw [hp.position_eq, Position.afterText_append, ← h.position_eq]
  rw [hposition, Position.afterText_lt_iff htext.symm] at hlt
  obtain ⟨rest, rfl⟩ : near <+: s :=
    List.prefix_of_prefix_length_le ⟨_, htext.symm⟩ ⟨_, rfl⟩ (Nat.le_of_lt hlt)
  rw [List.append_assoc, List.append_cancel_left_eq] at htext
  exact ⟨near, rest, rfl, by rintro rfl; simp at hlt, hposition, htext ▸ hp⟩

/-- Valid positions are ordered as their offsets are. -/
theorem offsetAt_lt_offsetAt {d : Document} {p q : Position} (hp : d.isValid p)
    (hq : d.isValid q) : d.offsetAt p < d.offsetAt q ↔ p < q := by
  obtain ⟨pre, post, hpre⟩ := exists_dividedAt hp
  obtain ⟨pre', post', hpre'⟩ := exists_dividedAt hq
  rw [hpre.offsetAt, hpre'.offsetAt, hpre.position_eq, hpre'.position_eq,
    Position.afterText_lt_iff (hpre.text_eq.symm.trans hpre'.text_eq)]

theorem offsetAt_le_offsetAt {d : Document} {p q : Position} (hp : d.isValid p)
    (hq : d.isValid q) : d.offsetAt p ≤ d.offsetAt q ↔ p ≤ q := by
  rw [← Nat.not_lt, offsetAt_lt_offsetAt hq hp, Position.not_lt]

/-- Valid positions are known by their offsets. -/
theorem offsetAt_inj {d : Document} {p q : Position} (hp : d.isValid p) (hq : d.isValid q) :
    d.offsetAt p = d.offsetAt q ↔ p = q := by
  constructor
  · intro h
    exact Position.le_antisymm ((offsetAt_le_offsetAt hp hq).mp (Nat.le_of_eq h))
      ((offsetAt_le_offsetAt hq hp).mp (Nat.le_of_eq h.symm))
  · exact congrArg d.offsetAt

theorem offsetAt_le_length {d : Document} {p : Position} (hp : d.isValid p) :
    d.offsetAt p ≤ d.text.length := by
  obtain ⟨pre, post, hdiv⟩ := exists_dividedAt hp
  rw [hdiv.offsetAt, hdiv.text_eq, List.length_append]
  exact Nat.le_add_right _ _

/-- In front of a valid position there is a character at any valid one. -/
theorem exists_mem_cells_of_lt {d : Document} {p q : Position} (hp : d.isValid p)
    (hq : d.isValid q) (hlt : p < q) : ∃ cell ∈ d.cells, cell.position = p := by
  obtain ⟨pre, post, hpre⟩ := exists_dividedAt hp
  obtain ⟨upto, rest, hupto⟩ := exists_dividedAt hq
  rw [← offsetAt_lt_offsetAt hp hq, hpre.offsetAt, hupto.offsetAt] at hlt
  cases post with
  | nil =>
      have hlength := congrArg List.length (hpre.text_eq.symm.trans hupto.text_eq)
      rw [List.length_append, List.length_append, List.length_nil] at hlength
      omega
  | cons c post =>
      refine ⟨⟨p, c⟩, ?_, rfl⟩
      rw [cells, hpre.text_eq, hpre.position_eq]
      exact Cell.mem_layOut _ _ _ _

/-- Only what stands in the text has a character. -/
theorem exists_dividedAt_of_charAt {d : Document} {p : Position} {c : Char}
    (h : d.charAt p = some c) : c ≠ '\n' ∧ ∃ pre post, d.DividedAt p pre (c :: post) := by
  have hvalid : d.isValid p := by
    obtain ⟨hlt, _⟩ := List.getElem?_eq_some_iff.mp h
    have hline : p.line < d.lines.length := by
      apply Nat.lt_of_not_le
      intro hle
      simp [line, List.getElem?_eq_none hle] at hlt
    simp [isValid, lineCount, lineLength, hline, Nat.le_of_lt hlt]
  obtain ⟨pre, post, hdiv⟩ := exists_dividedAt hvalid
  rw [hdiv.charAt, Option.filter_eq_some_iff, List.head?_eq_some_iff] at h
  obtain ⟨⟨rest, rfl⟩, hc⟩ := h
  exact ⟨by simpa using hc, pre, rest, hdiv⟩

/-- Every position, valid or not, divides the cells. -/
theorem exists_cells_eq (d : Document) (p : Position) :
    ∃ pre post, d.text = pre ++ post ∧
      d.cellsBefore p = (Cell.layOut Position.origin pre).reverse ∧
      d.cellsFrom p = Cell.layOut (Position.origin.afterText pre) post := by
  obtain ⟨htext, hbefore, hfrom⟩ := Cell.layOut_eq_append
    (List.takeWhile_append_dropWhile (p := (·.position < p)) (l := d.cells)).symm
  exact ⟨_, _, htext, congrArg List.reverse hbefore, hfrom⟩

/-- The position of a cell divides its document in front of the character of the cell. -/
theorem exists_dividedAt_of_mem_cells {d : Document} {cell : Cell} (h : cell ∈ d.cells) :
    ∃ pre post, d.DividedAt cell.position pre (cell.char :: post) := by
  obtain ⟨before, behind, hcells⟩ := List.append_of_mem h
  obtain ⟨htext, _, hcell⟩ := Cell.layOut_eq_append hcells
  exact ⟨Cell.text before, Cell.text behind, htext, congrArg Cell.position (List.cons.inj hcell).1⟩

/-- No cell lies below the last line. -/
theorem line_lt_of_mem_cells {d : Document} {cell : Cell} (h : cell ∈ d.cells) :
    cell.position.line < d.lineCount := by
  obtain ⟨_, _, hdiv⟩ := exists_dividedAt_of_mem_cells h
  exact hdiv.line_lt

/-- A window of as many lines as the document has cuts nothing off forward. -/
theorem takeWhile_line_lt {d : Document} {cells : List Cell} (hcells : cells ⊆ d.cells)
    {line n : Nat} (hn : d.lineCount ≤ n) :
    cells.takeWhile (·.position.line < line + n) = cells := by
  apply List.takeWhile_eq_self_iff.mpr
  intro cell hcell
  have hlt := line_lt_of_mem_cells (hcells hcell)
  simp only [decide_eq_true_eq]
  omega

/-- A window of as many lines as the document has cuts nothing off backward. -/
theorem takeWhile_le_line {d : Document} {line n : Nat} (hline : line ≤ d.lineCount)
    (hn : d.lineCount ≤ n) (cells : List Cell) :
    cells.takeWhile (line - n ≤ ·.position.line) = cells := by
  apply List.takeWhile_eq_self_iff.mpr
  intro cell _
  have hzero : line - n = 0 := by omega
  simp [hzero]

theorem cellsFrom_subset (d : Document) (p : Position) : d.cellsFrom p ⊆ d.cells :=
  (List.dropWhile_sublist _).subset

theorem cellsAfter_subset (d : Document) (p : Position) : d.cellsAfter p ⊆ d.cells :=
  (List.dropWhile_sublist _).subset

end Document

end MarkupPairs
