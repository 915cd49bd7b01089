import MarkupPairs.Proofs.BracketStack
import MarkupPairs.Proofs.Enclosing

/-!
# The pairs of angles of a document

The angles of a document pair as brackets do, in one pass with a stack. The searches for the tag
under a position do not make this pass, but what they count are places on its stack: the `<` that
the search backward stops at is the topmost one where the position is, and the `>` that the search
forward stops at is the one that takes it. So the tag under a position is what the innermost pair
around the position says.
-/

namespace MarkupPairs

namespace BracketPair

/-- Whether a position is between the brackets or under one of them. -/
def Holds (x : BracketPair) (p : Position) : Prop := x.opening ≤ p ∧ p ≤ x.closing

instance (x : BracketPair) (p : Position) : Decidable (x.Holds p) :=
  inferInstanceAs (Decidable (_ ∧ _))

/-- Whether a pair is between the brackets of another one, or is that one. -/
def IsWithin (x y : BracketPair) : Prop := y.opening ≤ x.opening ∧ x.closing ≤ y.closing

instance (x y : BracketPair) : Decidable (x.IsWithin y) := inferInstanceAs (Decidable (_ ∧ _))

/-- From the opening bracket to right after the closing one. -/
def range (x : BracketPair) : Range := Range.between x.opening (x.closing.right 1)

end BracketPair

/-! ## The innermost pair -/

namespace Document

/-- Whether a pair holds a position and is within every pair of the document that does. -/
def IsInnermost (d : Document) (p : Position) (x : BracketPair) : Prop :=
  x.Holds p ∧ ∀ y ∈ d.bracketPairs .angle, y.Holds p → x.IsWithin y

instance (d : Document) (p : Position) (x : BracketPair) : Decidable (d.IsInnermost p x) :=
  inferInstanceAs (Decidable (_ ∧ _))

/-- The innermost pair that holds a position. -/
def innermostPair? (d : Document) (p : Position) : Option BracketPair :=
  (d.bracketPairs .angle).find? fun x => d.IsInnermost p x

/-- What the innermost pair that holds a position says, if that is a tag. -/
def pairTag? (d : Document) (p : Position) : Option Tag :=
  (d.innermostPair? p).bind fun x => Tag.parse? (d.slice x.range) x.range

/-- Where the pass over a document stands when it has read what is before a position, and a `<`
under the position: `stack` are the `<` that are open, and `cells` are still to be read. -/
structure StackAt (d : Document) (p : Position) (stack : List Position) (cells : List Cell) :
    Prop where
  exists_front : ∃ front, d.bracketPairs .angle = front ++ Bracket.angle.pairs stack cells ∧
    ∀ x ∈ front, x.closing < p
  sorted : stack.Pairwise fun s t => t < s
  le_position : ∀ s ∈ stack, s ≤ p
  cells_sorted : cells.Pairwise fun a b => a.position < b.position
  position_le : ∀ cell ∈ cells, p ≤ cell.position
  position_lt : ∀ cell ∈ cells, cell.char = '<' → p < cell.position

variable {d : Document} {limits : ScanLimits} {p : Position} {pre post : Text}
  {stack : List Position} {cells : List Cell} {x y : BracketPair}

theorem mem_openBehind_lt {s : Position} (hdiv : d.DividedAt p pre post)
    (h : s ∈ Bracket.angle.openBehind [] (Cell.layOut Position.origin pre)) : s < p := by
  rcases Bracket.mem_openBehind h with h | ⟨cell, hcell, rfl⟩
  · cases h
  · rw [hdiv.position_eq]
    exact Cell.position_lt_of_mem_layOut hcell

theorem exists_front (hdiv : d.DividedAt p pre post) :
    ∃ front, d.bracketPairs .angle = front ++
        Bracket.angle.pairs (Bracket.angle.openBehind [] (Cell.layOut Position.origin pre))
          (Cell.layOut p post) ∧
      ∀ x ∈ front, x.closing < p := by
  refine ⟨Bracket.angle.pairs [] (Cell.layOut Position.origin pre), ?_, ?_⟩
  · rw [bracketPairs, cells, hdiv.text_eq, Cell.layOut_append, Bracket.pairs_append,
      ← hdiv.position_eq]
  · intro x hx
    obtain ⟨cell, hcell, hclosing⟩ := Bracket.exists_of_mem_pairs hx
    rw [← hclosing, hdiv.position_eq]
    exact Cell.position_lt_of_mem_layOut hcell

theorem DividedAt.stackAt_open (hdiv : d.DividedAt p pre ('<' :: post)) :
    d.StackAt p (p :: Bracket.angle.openBehind [] (Cell.layOut Position.origin pre))
      (Cell.layOut (p.after '<') post) where
  exists_front := exists_front hdiv
  sorted := List.pairwise_cons.mpr
    ⟨fun _ hs => mem_openBehind_lt hdiv hs, Bracket.pairwise_openBehind (Cell.layOut_sorted _ _)⟩
  le_position := List.forall_mem_cons.mpr
    ⟨p.le_refl, fun _ hs => Position.le_of_lt (mem_openBehind_lt hdiv hs)⟩
  cells_sorted := Cell.layOut_sorted _ _
  position_le _ hcell :=
    Position.le_trans (Position.le_of_lt (p.lt_after '<')) (Cell.le_position_of_mem_layOut hcell)
  position_lt _ hcell _ :=
    Position.lt_of_lt_of_le (p.lt_after '<') (Cell.le_position_of_mem_layOut hcell)

theorem DividedAt.stackAt (hdiv : d.DividedAt p pre post) (hpost : post.head? ≠ some '<') :
    d.StackAt p (Bracket.angle.openBehind [] (Cell.layOut Position.origin pre))
      (Cell.layOut p post) where
  exists_front := exists_front hdiv
  sorted := Bracket.pairwise_openBehind (Cell.layOut_sorted _ _)
  le_position _ hs := Position.le_of_lt (mem_openBehind_lt hdiv hs)
  cells_sorted := Cell.layOut_sorted _ _
  position_le _ hcell := Cell.le_position_of_mem_layOut hcell
  position_lt := by
    intro cell hcell hopen
    cases post with
    | nil => cases hcell
    | cons c post =>
        rcases List.mem_cons.mp hcell with rfl | hcell
        · exact absurd (congrArg some hopen) hpost
        · exact Position.lt_of_lt_of_le (p.lt_after c) (Cell.le_position_of_mem_layOut hcell)

namespace StackAt

/-- The first pair that holds a position is the next one that has the topmost open `<`. -/
theorem find?_holds (h : d.StackAt p stack cells) :
    (d.bracketPairs .angle).find? (·.Holds p) =
      stack.head?.bind fun s => (Cell.seek '<' '>' 0 cells).map (⟨s, ·⟩) := by
  obtain ⟨front, hpairs, hfront⟩ := h.exists_front
  have hskip : front.find? (·.Holds p) = none := by
    apply List.find?_eq_none.mpr
    intro x hx hholds
    exact absurd (hfront x hx) (Position.not_lt.mpr (of_decide_eq_true hholds).2)
  have hbehind : ∀ x ∈ Bracket.angle.pairs stack cells, x.Holds p ↔ x.opening ≤ p := by
    intro x hx
    obtain ⟨cell, hcell, hclosing⟩ := Bracket.exists_of_mem_pairs hx
    exact ⟨And.left, fun hopening => ⟨hopening, hclosing ▸ h.position_le cell hcell⟩⟩
  have hcongr : (Bracket.angle.pairs stack cells).find? (·.Holds p) =
      (Bracket.angle.pairs stack cells).find? (·.opening ≤ p) := by
    apply List.find?_congr
    intro x hx
    exact decide_eq_decide.mpr (hbehind x hx)
  rw [hpairs, List.find?_append, hskip, Option.none_or, hcongr]
  exact Bracket.find?_pairs [] (fun s hs => by cases hs) h.le_position h.position_lt

theorem opening_mem (h : d.StackAt p stack cells) (hy : y ∈ d.bracketPairs .angle)
    (hholds : y.Holds p) : y.opening ∈ stack := by
  obtain ⟨front, hpairs, hfront⟩ := h.exists_front
  rw [hpairs] at hy
  rcases List.mem_append.mp hy with hy | hy
  · exact absurd (hfront y hy) (Position.not_lt.mpr hholds.2)
  · exact Bracket.opening_mem_of_mem_pairs [] hy (fun s hs => by cases hs)
      h.position_lt hholds.1

/-- The first pair that holds a position is within all others that do. -/
theorem isInnermost (h : d.StackAt p stack cells)
    (hx : (d.bracketPairs .angle).find? (·.Holds p) = some x) : d.IsInnermost p x := by
  obtain ⟨hholds, before, behind, hpairs, hbefore⟩ := List.find?_eq_some_iff_append.mp hx
  refine ⟨of_decide_eq_true hholds, ?_⟩
  intro y hy hyholds
  constructor
  · rw [h.find?_holds] at hx
    obtain ⟨s, hs, hx⟩ := Option.bind_eq_some_iff.mp hx
    obtain ⟨e, -, rfl⟩ := Option.map_eq_some_iff.mp hx
    obtain ⟨rest, rfl⟩ := List.head?_eq_some_iff.mp hs
    rcases List.mem_cons.mp (h.opening_mem hy hyholds) with heq | hmem
    · exact Position.le_of_eq heq
    · exact Position.le_of_lt ((List.pairwise_cons.mp h.sorted).1 _ hmem)
  · have hsorted : (d.bracketPairs .angle).Pairwise fun x y => x.closing < y.closing :=
      Bracket.pairwise_pairs (Cell.layOut_sorted _ _)
    rw [hpairs] at hy hsorted
    rcases List.mem_append.mp hy with hy | hy
    · simpa [hyholds] using hbefore y hy
    · rcases List.mem_cons.mp hy with rfl | hy
      · exact Position.le_refl _
      · have hbehind := (List.pairwise_append.mp hsorted).2.1
        exact Position.le_of_lt ((List.pairwise_cons.mp hbehind).1 y hy)

theorem innermostPair?_eq (h : d.StackAt p stack cells) :
    d.innermostPair? p = stack.head?.bind fun s => (Cell.seek '<' '>' 0 cells).map (⟨s, ·⟩) := by
  rw [← h.find?_holds, innermostPair?]
  cases hfind : (d.bracketPairs .angle).find? (·.Holds p) with
  | none =>
      apply List.find?_eq_none.mpr
      intro x hx hinnermost
      have hholds := List.find?_eq_none.mp hfind x hx
      exact hholds (decide_eq_true (of_decide_eq_true hinnermost).1)
  | some x =>
      have hinnermost := h.isInnermost hfind
      obtain ⟨-, before, behind, hpairs, hbefore⟩ := List.find?_eq_some_iff_append.mp hfind
      apply List.find?_eq_some_iff_append.mpr
      refine ⟨decide_eq_true hinnermost, before, behind, hpairs, ?_⟩
      intro y hy
      have hnot : ¬y.Holds p := by simpa using hbefore y hy
      simpa using fun hy : d.IsInnermost p y => hnot hy.1

/-- A search that knows the topmost open `<`, and finds the `>` that the pass finds, reads what the
innermost pair says. -/
theorem tagAt?_eq (h : d.StackAt p stack cells) (hopen : d.openAngle? limits p = stack.head?)
    (hclose : ∀ s, stack.head? = some s → d.closeAngle? limits s = Cell.seek '<' '>' 0 cells) :
    d.tagAt? limits p = d.pairTag? p := by
  rw [tagAt?, hopen, pairTag?, h.innermostPair?_eq]
  cases hs : stack.head? with
  | none => rfl
  | some s =>
      rw [Option.bind_eq_bind, Option.bind_some, hclose s hs, Option.bind_some]
      cases he : Cell.seek '<' '>' 0 cells with
      | none => rfl
      | some e =>
          have hle : ¬e < p := by
            obtain ⟨cell, hcell, rfl, -⟩ := Cell.exists_of_seek he
            exact Position.not_lt.mpr (h.position_le cell hcell)
          simp only [Option.bind_some, if_neg hle, Option.map_some]
          rfl

end StackAt

/-- Under every position of a document the search finds what the innermost pair says. -/
theorem tagAt?_eq_pairTag? (hvalid : d.isValid p) (hlimits : d.lineCount ≤ limits.enclosing) :
    d.tagAt? limits p = d.pairTag? p := by
  obtain ⟨pre, post, hdiv⟩ := exists_dividedAt hvalid
  by_cases hpost : post.head? = some '<'
  · obtain ⟨post, rfl⟩ := List.head?_eq_some_iff.mp hpost
    apply hdiv.stackAt_open.tagAt?_eq
    · apply openAngle?_of_charAt
      rw [hdiv.charAt]
      rfl
    · intro s hs
      obtain rfl := Option.some.inj hs
      rw [closeAngle?, takeWhile_line_lt (d.cellsAfter_subset p) hlimits, hdiv.cellsAfter]
  · have hchar : d.charAt p ≠ some '<' := by
      rw [hdiv.charAt]
      intro h
      exact hpost (Option.filter_eq_some_iff.mp h).1
    have hopen : d.openAngle? limits p =
        (Bracket.angle.openBehind [] (Cell.layOut Position.origin pre)).head? := by
      rw [openAngle?, if_neg hchar, takeWhile_le_line (Nat.le_of_lt hdiv.line_lt) hlimits,
        hdiv.cellsBefore, List.head?_eq_getElem?]
      exact Bracket.angle.seek_reverse_eq_openBehind 0 _
    apply (hdiv.stackAt hpost).tagAt?_eq hopen
    intro s hs
    obtain ⟨-, before, mid, hstart, hmid⟩ :=
      exists_of_openAngle?_of_ne hchar (hopen.trans hs)
    rw [hdiv.cellsFrom, Cell.text_layOut] at hstart
    have hp : p = (s.after '<').afterText mid := hdiv.position_unique hstart.next.append
    rw [closeAngle?, takeWhile_line_lt (d.cellsAfter_subset s) hlimits, hstart.cellsAfter,
      Cell.layOut_append, Cell.seek_layOut hmid, ← hp]

/-- The tag of a position is what the innermost pair around the position says. If that is no tag,
it is what the innermost pair around the character before says, when that character is a `>`. -/
theorem enclosingTag?_eq_pairTag? (hvalid : d.isValid p)
    (hlimits : d.lineCount ≤ limits.enclosing) :
    d.enclosingTag? limits p =
      (d.pairTag? p <|>
        if 0 < p.character ∧ d.charAt ⟨p.line, p.character - 1⟩ = some '>' then
          d.pairTag? ⟨p.line, p.character - 1⟩
        else none) := by
  rw [enclosingTag?, tagAt?_eq_pairTag? hvalid hlimits]
  congr 1
  funext _
  apply ite_congr rfl
  · rintro ⟨-, hchar⟩
    obtain ⟨-, before, behind, hdiv⟩ := exists_dividedAt_of_charAt hchar
    exact tagAt?_eq_pairTag? hdiv.isValid hlimits
  · intro _
    rfl

/-- Right behind `<a <b>>`, where no pair is, the tag is the one with the other inside. -/
theorem enclosingTag?_eq_pairTag?_behind :
    let d : Document := ⟨['<', 'a', ' ', '<', 'b', '>', '>', 'x'], .lf⟩
    d.isValid ⟨0, 7⟩ ∧ d.lineCount ≤ (ScanLimits.mk 1 1 1).enclosing ∧
      d.enclosingTag? ⟨1, 1, 1⟩ ⟨0, 7⟩ =
        some ⟨['a'], .opening, ⟨⟨0, 0⟩, ⟨0, 7⟩, by decide⟩⟩ := by
  intro d
  have hvalid : d.isValid ⟨0, 7⟩ := by decide
  have hlimits : d.lineCount ≤ (ScanLimits.mk 1 1 1).enclosing := by decide
  refine ⟨hvalid, hlimits, ?_⟩
  rw [enclosingTag?_eq_pairTag? hvalid hlimits]
  decide

end Document

end MarkupPairs
