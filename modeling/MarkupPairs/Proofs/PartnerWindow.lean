import MarkupPairs.Proofs.PartnerReturn

/-!
# Windows of the searches for a partner

A search for a partner looks at a window of lines. Each character leads it on or makes it answer,
whatever comes after, so a smaller window only cuts it off: a partner is found as long as the last
character that the search needs is in the window. That is the `>` of a closing tag, and the `<` of an
opening one.
-/

namespace MarkupPairs

/-! ## The window forward -/

section Forward

variable {wanted : Text} {depth : Nat} {phase : TagPhase} {ink : Option Char} {p : Position}
  {s : Text} {u : Tag}

/-- Where the tag starts that a walk forward reads. -/
def TagPhase.start? : TagPhase → Option Position
  | outside => none
  | reading head => some head.start
  | inside head => some head.start

theorem TagHead.start_of_extend? {head more : TagHead} {c : Char} (h : head.extend? c = some more) :
    more.start = head.start := by
  rw [extend?] at h
  split at h
  next => exact Option.some.inj h ▸ rfl
  next =>
    split at h
    next => exact Option.some.inj h ▸ rfl
    next => cases h

theorem TagPhase.start?_of_extend? {head : TagHead} {c : Char} (h : phase.extend? c = some head) :
    phase.start? = some head.start := by
  cases phase with
  | reading start => exact congrArg some (TagHead.start_of_extend? h).symm
  | outside => cases h
  | inside head => cases h

theorem TagPhase.start?_of_settle {c : Char} {q : Position} (h : q ∈ (phase.settle c).start?) :
    q ∈ phase.start? := by
  cases phase with
  | reading head =>
      rw [settle] at h
      split at h
      next => exact h
      next => cases h
  | outside => exact h
  | inside head => exact h

theorem TagPhase.eq_inside {head : TagHead} (h : phase.head? = some head) :
    phase = .inside head := by
  cases phase with
  | inside found => exact congrArg inside (Option.some.inj h)
  | outside => cases h
  | reading found => cases h

/-- What a walk forward does at a cell, whatever comes after. -/
inductive ForwardStep (wanted : Text) (depth : Nat) (phase : TagPhase) (ink : Option Char)
    (cell : Cell) : Prop where
  /-- It goes on, and if it reads a tag, that is the one from before or starts at the cell. -/
  | passes (n : Nat) (phase' : TagPhase) (ink' : Option Char)
      (start : ∀ q ∈ phase'.start?, q ∈ phase.start? ∨ q = cell.position)
      (search_eq : ∀ rest, seekClosing wanted depth phase ink (cell :: rest) =
        seekClosing wanted n phase' ink' rest)
  /-- It answers with the tag that it reads. -/
  | answers (q : Position) (start : q ∈ phase.start?)
      (search_eq : ∀ rest, seekClosing wanted depth phase ink (cell :: rest) =
        some ⟨wanted, .closing, Range.between q (cell.position.right 1)⟩)

/-- A `>` without a head before it ends no tag. -/
theorem seekClosing_close_headless {rest : List Cell} (h : (phase.settle '>').head? = none) :
    seekClosing wanted depth phase ink (⟨p, '>'⟩ :: rest) =
      seekClosing wanted depth .outside (some '>') rest := by
  have hangle : '>' ≠ '<' := by decide
  rw [seekClosing.eq_def]
  simp only [TagPhase.extend?_angle (.inr rfl), if_neg hangle, if_pos, h]
  rfl

theorem forwardStep (wanted : Text) (depth : Nat) (phase : TagPhase) (ink : Option Char)
    (cell : Cell) : ForwardStep wanted depth phase ink cell := by
  obtain ⟨p, c⟩ := cell
  have houtside : ∀ q ∈ TagPhase.outside.start?, q ∈ phase.start? ∨ q = p :=
    fun q hq => by cases hq
  cases hextend : phase.extend? c with
  | some head =>
      refine .passes depth (.reading head) ink (fun q hq => .inl ?_) fun _ =>
        seekClosing_read hextend
      rwa [TagPhase.start?_of_extend? hextend]
  | none =>
      by_cases hopen : c = '<'
      · subst c
        refine .passes depth (.reading ⟨p, false, []⟩) _ (fun q hq => .inr ?_) fun _ =>
          seekClosing_open
        exact (Option.some.inj hq).symm
      · by_cases hclose : c = '>'
        · subst c
          cases hhead : (phase.settle '>').head? with
          | none => exact .passes depth _ _ houtside fun _ => seekClosing_close_headless hhead
          | some head =>
              have hsettle : phase.settle '>' = .inside head := TagPhase.eq_inside hhead
              by_cases hname : head.name = wanted
              · cases hclosing : head.closing with
                | true =>
                    cases depth with
                    | zero =>
                        have hstart : head.start ∈ (phase.settle '>').start? := hsettle ▸ rfl
                        refine .answers head.start (TagPhase.start?_of_settle hstart) fun rest => ?_
                        rw [seekClosing_close hsettle]
                        simp [hname, hclosing]
                    | succ n =>
                        refine .passes n _ (some '>') houtside fun rest => ?_
                        rw [seekClosing_close hsettle]
                        simp [hname, hclosing]
                | false =>
                    refine .passes (if ink = some '/' then depth else depth + 1) _ (some '>')
                      houtside fun rest => ?_
                    rw [seekClosing_close hsettle]
                    by_cases hslash : ink = some '/' <;> simp [hname, hclosing, hslash]
              · refine .passes depth _ (some '>') houtside fun rest => ?_
                rw [seekClosing_close hsettle, if_pos hname]
        · exact .passes depth _ _ (fun q hq => .inl (TagPhase.start?_of_settle hq)) fun _ =>
            seekClosing_other hextend hopen hclose

/-- A tag that is read behind a cell starts no later than the cell. -/
theorem TagPhase.start?_le_after {phase' : TagPhase} {cell : Cell}
    (hphase : ∀ q ∈ phase.start?, q ≤ cell.position)
    (hstart : ∀ q ∈ phase'.start?, q ∈ phase.start? ∨ q = cell.position) :
    ∀ q ∈ phase'.start?, q ≤ cell.position.after cell.char := by
  intro q hq
  apply Position.le_trans ?_ (Position.le_of_lt (Position.lt_after _ _))
  rcases hstart q hq with hq | rfl
  · exact hphase q hq
  · exact Position.le_refl _

/-- The answer of the search forward stops behind the place where the search starts. -/
theorem lt_stop_of_seekClosing (hphase : ∀ q ∈ phase.start?, q ≤ p)
    (h : seekClosing wanted depth phase ink (Cell.layOut p s) = some u) : p < u.range.stop := by
  induction s generalizing depth phase ink p with
  | nil => cases h
  | cons c s ih =>
      rw [Cell.layOut_cons] at h
      rcases forwardStep wanted depth phase ink ⟨p, c⟩ with
        ⟨n, phase', ink', hstart, hpass⟩ | ⟨q, hq, hanswer⟩
      · rw [hpass] at h
        have hlt := ih (TagPhase.start?_le_after hphase hstart) h
        exact Position.lt_of_le_of_lt (Position.le_of_lt (p.lt_after c)) hlt
      · rw [hanswer] at h
        obtain rfl := Option.some.inj h
        rw [Range.between_of_le (Position.le_of_lt (Position.lt_right_one.mpr (hphase q hq)))]
        exact Position.lt_right_one.mpr (Position.le_refl p)

/-- The search forward in the first lines of a text finds what the search in all of it finds, if
that stops there. -/
theorem seekClosing_takeWhile (hphase : ∀ q ∈ phase.start?, q ≤ p) (n : Nat) :
    seekClosing wanted depth phase ink ((Cell.layOut p s).takeWhile (·.position.line < n)) =
      (seekClosing wanted depth phase ink (Cell.layOut p s)).filter (·.range.stop.line < n) := by
  induction s generalizing depth phase ink p with
  | nil => rfl
  | cons c s ih =>
      rw [Cell.layOut_cons]
      by_cases hline : p.line < n
      · rw [List.takeWhile_cons_of_pos (by simpa using hline)]
        rcases forwardStep wanted depth phase ink ⟨p, c⟩ with
          ⟨m, phase', ink', hstart, hpass⟩ | ⟨q, hq, hanswer⟩
        · rw [hpass, hpass]
          exact ih (TagPhase.start?_le_after hphase hstart)
        · rw [hanswer, hanswer,
            Range.between_of_le (Position.le_of_lt (Position.lt_right_one.mpr (hphase q hq)))]
          symm
          apply Option.filter_some_pos
          exact decide_eq_true hline
      · -- the window is behind the first cell already, and so is every answer
        rw [List.takeWhile_cons_of_neg (by simpa using hline), seekClosing]
        symm
        apply Option.filter_eq_none_iff.mpr
        intro u hu
        have hlt := lt_stop_of_seekClosing (s := c :: s) hphase hu
        rw [Position.lt_def] at hlt
        simp only [decide_eq_true_eq]
        omega

end Forward

/-! ## The window backward -/

section Backward

variable {wanted : Text} {depth : Nat} {close : Option (Position × Bool)} {behind : Text}
  {p : Position} {s : Text} {u : Tag}

theorem Position.line_le_of_lt_after {q : Position} {c : Char} (h : q < p.after c) :
    q.line ≤ p.line := by
  rw [lt_def, after] at h
  split at h
  next => simp only at h; omega
  next => simp only at h; omega

/-- The line that a text ends on is in a window as a whole if its end is. -/
theorem Cell.takeWhile_takeWhile_line {n : Nat} (h : n ≤ (p.afterText s).line) :
    ((layOut p s).reverse.takeWhile (n ≤ ·.position.line)).takeWhile (·.char != '\n') =
      (layOut p s).reverse.takeWhile (·.char != '\n') := by
  induction s using List.reverseRecOn with
  | nil => rfl
  | append_singleton s c ih =>
      rw [Position.afterText_append, Position.afterText_singleton, Position.after] at h
      rw [layOut_append, List.reverse_append, layOut_cons, layOut_nil, List.reverse_singleton,
        List.singleton_append]
      by_cases hc : c = '\n'
      · by_cases hline : n ≤ (p.afterText s).line <;> simp [hc, hline]
      · rw [if_neg hc] at h
        rw [List.takeWhile_cons_of_pos (by simpa using h),
          List.takeWhile_cons_of_pos (by simpa using hc),
          List.takeWhile_cons_of_pos (by simpa using hc), ih h]

/-- A slash before a `>` that is in a window is in the window as well. -/
theorem followsSlash_takeWhile {n : Nat} (h : n ≤ (p.afterText s).line) :
    followsSlash ((Cell.layOut p s).reverse.takeWhile (n ≤ ·.position.line)) =
      followsSlash (Cell.layOut p s).reverse := by
  rw [followsSlash, Cell.takeWhile_takeWhile_line h, followsSlash]

/-- The answer of the search backward starts in front of the place where the search starts. -/
theorem start_lt_of_seekOpening (hclose : ∀ x ∈ close, p.afterText s ≤ x.1)
    (h : seekOpening wanted depth close behind (Cell.layOut p s).reverse = some u) :
    u.range.start < p.afterText s := by
  induction s using List.reverseRecOn generalizing depth close behind with
  | nil => cases h
  | append_singleton s c ih =>
      rw [Position.afterText_append, Position.afterText_singleton] at hclose ⊢
      have hafter : p.afterText s ≤ (p.afterText s).after c :=
        Position.le_of_lt (Position.lt_after _ c)
      have hle (x) (hx : x ∈ close) : p.afterText s ≤ x.1 := Position.le_trans hafter (hclose x hx)
      rw [Cell.layOut_append, List.reverse_append, Cell.layOut_cons, Cell.layOut_nil,
        List.reverse_singleton, List.singleton_append] at h
      by_cases hangle : c = '>'
      · subst c
        rw [seekOpening_close] at h
        have hlt := ih (fun x hx => Option.some.inj hx ▸ Position.le_refl _) h
        exact Position.lt_of_lt_of_le hlt hafter
      · by_cases hopen : c = '<'
        · subst c
          rcases seekOpening_open_cases h with ⟨n, close', hclose', h⟩ | ⟨stop, rfl, -, rfl⟩
          · refine Position.lt_of_lt_of_le (ih ?_ h) hafter
            rcases hclose' with rfl | rfl
            · exact hle
            · exact fun x hx => by cases hx
          · rw [Range.between_of_le (Position.le_of_lt (Position.lt_right_one.mpr (hle _ rfl)))]
            exact Position.lt_after _ _
        · rw [seekOpening_other hopen hangle] at h
          exact Position.lt_of_lt_of_le (ih hle h) hafter

/-- The search backward in the last lines of a text finds what the search in all of it finds, if
that starts there. -/
theorem seekOpening_takeWhile (hclose : ∀ x ∈ close, p.afterText s ≤ x.1) (n : Nat) :
    seekOpening wanted depth close behind
        ((Cell.layOut p s).reverse.takeWhile (n ≤ ·.position.line)) =
      (seekOpening wanted depth close behind (Cell.layOut p s).reverse).filter
        (n ≤ ·.range.start.line) := by
  induction s using List.reverseRecOn generalizing depth close behind with
  | nil => rfl
  | append_singleton s c ih =>
      rw [Position.afterText_append, Position.afterText_singleton] at hclose
      have hle (x) (hx : x ∈ close) : p.afterText s ≤ x.1 :=
        Position.le_trans (Position.le_of_lt (Position.lt_after _ c)) (hclose x hx)
      rw [Cell.layOut_append, List.reverse_append, Cell.layOut_cons, Cell.layOut_nil,
        List.reverse_singleton, List.singleton_append]
      by_cases hline : n ≤ (p.afterText s).line
      · rw [List.takeWhile_cons_of_pos (by simpa using hline)]
        by_cases hangle : c = '>'
        · subst c
          rw [seekOpening_close, seekOpening_close, followsSlash_takeWhile hline]
          exact ih fun x hx => Option.some.inj hx ▸ Position.le_refl _
        · by_cases hopen : c = '<'
          · subst c
            rcases seekOpening_open_step wanted depth close behind (p.afterText s) with
              ⟨m, close', hclose', hpass⟩ | ⟨stop, rfl, -, hanswer⟩
            · rw [hpass, hpass]
              apply ih
              rcases hclose' with rfl | rfl
              · exact hle
              · exact fun x hx => by cases hx
            · have hstop := Position.le_of_lt (Position.lt_right_one.mpr (hle _ rfl))
              rw [hanswer, hanswer, Range.between_of_le hstop]
              symm
              apply Option.filter_some_pos
              exact decide_eq_true hline
          · rw [seekOpening_other hopen hangle, seekOpening_other hopen hangle]
            exact ih hle
      · -- the window ends behind the nearest cell already, and every answer starts in front of it
        rw [List.takeWhile_cons_of_neg (by simpa using hline), seekOpening]
        symm
        apply Option.filter_eq_none_iff.mpr
        intro u hu
        have hcells : (Cell.layOut p (s ++ [c])).reverse =
            ⟨p.afterText s, c⟩ :: (Cell.layOut p s).reverse := by simp [Cell.layOut_append]
        have hlt := start_lt_of_seekOpening
          (by rwa [Position.afterText_append, Position.afterText_singleton]) (hcells ▸ hu)
        rw [Position.afterText_append, Position.afterText_singleton] at hlt
        have hle := Position.line_le_of_lt_after hlt
        simp only [decide_eq_true_eq]
        omega

end Backward

/-! ## Partners in a window -/

/-- Whether a partner of a tag is in a window of some lines from the tag on, a closing tag up to its
`>` and an opening tag from its `<` on. -/
def Tag.reaches (t : Tag) (lines : Nat) (u : Tag) : Bool :=
  match t.kind with
  | .opening => u.range.stop.line < t.range.stop.line + lines
  | .closing => t.range.start.line ≤ u.range.start.line + lines
  | .selfClosing => false

/-- A smaller window is a window on the larger one. -/
theorem Cell.takeWhile_of_imp {P Q : Cell → Bool} (h : ∀ cell, P cell → Q cell)
    (cells : List Cell) : cells.takeWhile P = (cells.takeWhile Q).takeWhile P := by
  rw [List.takeWhile_takeWhile]
  congr 1
  funext cell
  rw [Bool.eq_iff_iff]
  simpa using h cell

namespace Document

variable {d : Document} {limits : ScanLimits} {t u : Tag} {lines more : Nat}

theorem closingTag?_window (h : lines ≤ more) (name : Text) (p : Position) :
    d.closingTag? { limits with paired := lines } name p =
      (d.closingTag? { limits with paired := more } name p).filter
        (·.range.stop.line < p.line + lines) := by
  obtain ⟨cut, near, post, -, hwindow⟩ :=
    d.exists_takeWhile_cellsFrom p (·.position.line < p.line + more)
  have himp (cell : Cell) : decide (cell.position.line < p.line + lines) →
      decide (cell.position.line < p.line + more) := by
    simp only [decide_eq_true_eq]
    omega
  rw [closingTag?, closingTag?, Cell.takeWhile_of_imp himp, hwindow]
  exact seekClosing_takeWhile (fun q hq => by cases hq) _

theorem openingTag?_window (h : lines ≤ more) (name : Text) (p : Position) :
    d.openingTag? { limits with paired := lines } name p =
      (d.openingTag? { limits with paired := more } name p).filter
        (p.line ≤ ·.range.start.line + lines) := by
  obtain ⟨cut, near, post, -, hwindow, -, -⟩ :=
    d.exists_takeWhile_cellsBefore p (p.line - more ≤ ·.position.line)
  have himp (cell : Cell) : decide (p.line - lines ≤ cell.position.line) →
      decide (p.line - more ≤ cell.position.line) := by
    simp only [decide_eq_true_eq]
    omega
  simp only [← Nat.sub_le_iff_le_add]
  rw [openingTag?, openingTag?, Cell.takeWhile_of_imp himp, hwindow]
  exact seekOpening_takeWhile (fun x hx => by cases hx) _

/-- A window of lines finds what a larger one finds, if that is within the smaller one. -/
theorem partner?_window (h : lines ≤ more) (t : Tag) :
    d.partner? { limits with paired := lines } t =
      (d.partner? { limits with paired := more } t).filter (t.reaches lines) := by
  obtain ⟨name, kind, range⟩ := t
  cases kind with
  | opening => exact closingTag?_window h name range.stop
  | closing => exact openingTag?_window h name range.start
  | selfClosing => rfl

/-- The window of lines in which a partner is looked for only cuts the search off: with a window of
some lines the partner is the one of the largest window, if its far end is on these lines, counted
from the end of an opening tag or from the start of a closing one, and there is none otherwise. So a
partner that is found stays the same in every larger window. -/
theorem partner?_eq_filter_reaches (d : Document) (limits : ScanLimits) (t : Tag)
    (h : lines ≤ maxCount) :
    d.partner? { limits with paired := lines } t =
        (d.partner? { limits with paired := maxCount } t).filter (t.reaches lines) ∧
      ∀ more ≥ lines, ∀ u, d.partner? { limits with paired := lines } t = some u →
        d.partner? { limits with paired := more } t = some u := by
  refine ⟨partner?_window h t, ?_⟩
  intro more hmore u hu
  rw [partner?_window hmore] at hu
  exact (Option.filter_eq_some_iff.mp hu).1

/-- The closing tag of `<a>` on the next two lines is in a window of three lines, and not in one of
two. From there backward the opening tag is in a window of one line, and not in one of none. -/
theorem partner?_eq_filter_reaches_twoLines :
    let d : Document := ⟨['<', 'a', '>', '\n', '<', '/', 'a', '\n', '>'], .lf⟩
    let t : Tag := ⟨['a'], .opening, ⟨⟨0, 0⟩, ⟨0, 3⟩, by decide⟩⟩
    let u : Tag := ⟨['a'], .closing, ⟨⟨1, 0⟩, ⟨2, 1⟩, by decide⟩⟩
    3 ≤ maxCount ∧ d.partner? ⟨9, maxCount, 9⟩ t = some u ∧ d.partner? ⟨9, 3, 9⟩ t = some u ∧
      d.partner? ⟨9, 2, 9⟩ t = none ∧ d.partner? ⟨9, maxCount, 9⟩ u = some t ∧
      d.partner? ⟨9, 1, 9⟩ u = some t ∧ d.partner? ⟨9, 0, 9⟩ u = none := by
  intro d t u
  have hlines {n : Nat} (h : n ≤ 3) : n ≤ maxCount := Nat.le_trans h (by decide)
  have hforth : d.partner? ⟨9, maxCount, 9⟩ t = some u := by decide
  have hback : d.partner? ⟨9, maxCount, 9⟩ u = some t := by decide
  have hwindow (n : Nat) (h : n ≤ 3) (x : Tag) :
      d.partner? ⟨9, n, 9⟩ x = (d.partner? ⟨9, maxCount, 9⟩ x).filter (x.reaches n) :=
    (partner?_eq_filter_reaches d ⟨9, n, 9⟩ x (hlines h)).1
  refine ⟨hlines (Nat.le_refl 3), hforth, ?_, ?_, hback, ?_, ?_⟩
  · rw [hwindow 3 (by decide), hforth]
    rfl
  · rw [hwindow 2 (by decide), hforth]
    rfl
  · rw [hwindow 1 (by decide), hback]
    rfl
  · rw [hwindow 0 (by decide), hback]
    rfl

end Document

end MarkupPairs
