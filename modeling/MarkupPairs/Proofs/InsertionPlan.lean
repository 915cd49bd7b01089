import MarkupPairs.Proofs.InsertedTags
import MarkupPairs.Proofs.Landing

/-!
# Carrying out insertions

A plan that puts one text in front of the characters at some positions is never refused. What comes
of it is read off the cells, one by one, and so is where an offset lands: behind all that comes of
the cells in front of it.
-/

namespace MarkupPairs

namespace Cell

/-- The text of cells, with another text in front of the characters at some positions. -/
def insertedText (ps : List Position) (t : Text) (cells : List Cell) : Text :=
  cells.flatMap fun cell => if cell.position ∈ ps then t ++ [cell.char] else [cell.char]

/-- The splices that put a text in front of the cells at some positions, when the first cell stands
at offset `k`. -/
def insertions (ps : List Position) (t : Text) : Nat → List Cell → List Splice
  | _, [] => []
  | k, cell :: rest =>
    if cell.position ∈ ps then ⟨k, k, t⟩ :: insertions ps t (k + 1) rest
    else insertions ps t (k + 1) rest

variable {ps : List Position} {t : Text} {cells a b : List Cell} {k : Nat} {s : Splice}

theorem insertedText_append (ps : List Position) (t : Text) (a b : List Cell) :
    insertedText ps t (a ++ b) = insertedText ps t a ++ insertedText ps t b :=
  List.flatMap_append

theorem insertedText_cons (ps : List Position) (t : Text) (cell : Cell) (cells : List Cell) :
    insertedText ps t (cell :: cells) =
      (if cell.position ∈ ps then t else []) ++ cell.char :: insertedText ps t cells := by
  rw [insertedText, List.flatMap_cons, ← insertedText]
  split
  · simp
  · rfl

/-- Where no position is, the text stays as it is. -/
theorem insertedText_of_forall_notMem (h : ∀ cell ∈ cells, cell.position ∉ ps) :
    insertedText ps t cells = text cells := by
  induction cells with
  | nil => rfl
  | cons cell cells ih =>
      obtain ⟨hcell, hcells⟩ := List.forall_mem_cons.mp h
      rw [insertedText_cons, if_neg hcell, ih hcells]
      rfl

/-- An insertion stands in front of one of the cells. -/
theorem mem_insertions : s ∈ insertions ps t k cells ↔
    ∃ a cell b, cells = a ++ cell :: b ∧ cell.position ∈ ps ∧
      s = ⟨k + a.length, k + a.length, t⟩ := by
  induction cells generalizing k with
  | nil => simp [insertions]
  | cons cell cells ih =>
      have hlater : s ∈ insertions ps t (k + 1) cells ↔
          ∃ a next b, cell :: cells = (cell :: a) ++ next :: b ∧ next.position ∈ ps ∧
            s = ⟨k + (cell :: a).length, k + (cell :: a).length, t⟩ := by
        rw [ih]
        simp only [List.cons_append, List.cons.injEq, true_and, List.length_cons, Nat.add_assoc,
          Nat.add_comm 1]
      constructor
      · intro hs
        rw [insertions] at hs
        split at hs
        next hcell =>
          rcases List.mem_cons.mp hs with rfl | hs
          · exact ⟨[], cell, cells, rfl, hcell, rfl⟩
          · obtain ⟨a, next, b, hnext⟩ := hlater.mp hs
            exact ⟨_, next, b, hnext⟩
        next =>
          obtain ⟨a, next, b, hnext⟩ := hlater.mp hs
          exact ⟨_, next, b, hnext⟩
      · rintro ⟨a, next, b, hcells, hnext, rfl⟩
        rw [insertions]
        cases a with
        | nil =>
            obtain ⟨rfl, rfl⟩ := List.cons.inj hcells
            rw [if_pos hnext]
            exact List.mem_cons_self
        | cons x a =>
            obtain ⟨rfl, rfl⟩ := List.cons.inj hcells
            have hs := hlater.mpr ⟨a, next, b, rfl, hnext, rfl⟩
            split
            · exact List.mem_cons_of_mem _ hs
            · exact hs

/-- A text without line feeds adds none. -/
theorem count_insertedText (ht : '\n' ∉ t) (cells : List Cell) :
    (insertedText ps t cells).count '\n' = (text cells).count '\n' := by
  induction cells with
  | nil => rfl
  | cons cell cells ih =>
      have hzero : (if cell.position ∈ ps then t else []).count '\n' = 0 := by
        split
        · exact List.count_eq_zero_of_not_mem ht
        · rfl
      rw [insertedText_cons, List.count_append, hzero, Nat.zero_add, List.count_cons, ih]
      exact List.count_cons.symm

theorem le_start_of_mem_insertions (h : s ∈ insertions ps t k cells) : k ≤ s.start := by
  obtain ⟨a, cell, b, -, -, rfl⟩ := mem_insertions.mp h
  exact Nat.le_add_right _ _

theorem pairwise_insertions (ps : List Position) (t : Text) (k : Nat) (cells : List Cell) :
    (insertions ps t k cells).Pairwise fun x y => x.start < y.start := by
  induction cells generalizing k with
  | nil => exact .nil
  | cons cell cells ih =>
      rw [insertions]
      split
      · exact List.pairwise_cons.mpr ⟨fun y hy => le_start_of_mem_insertions hy, ih _⟩
      · exact ih _

end Cell

namespace Splice

open Cell

variable {ps : List Position} {t u v : Text} {cells : List Cell} {splices : List Splice} {k : Nat}

/-- In front of all splices a character stays as it is. -/
theorem interleave_eq_cons {c : Char} (h : u.drop k = c :: v)
    (hbehind : ∀ s ∈ splices, k < s.start) :
    interleave u k splices = c :: interleave u (k + 1) splices := by
  have hlt : k < u.length := by
    rw [← Nat.not_le]
    intro hle
    rw [List.drop_eq_nil_of_le hle] at h
    cases h
  rw [List.drop_eq_getElem_cons hlt] at h
  obtain ⟨rfl, -⟩ := List.cons.inj h
  cases splices with
  | nil => rw [interleave, interleave, List.drop_eq_getElem_cons hlt]
  | cons s rest =>
      have hs : k < s.start := hbehind s List.mem_cons_self
      have hfront : (u.take s.start).drop k = u[k] :: (u.take s.start).drop (k + 1) := by
        simpa using drop_take_eq_append (Nat.le_refl k) hs hlt
      rw [interleave, interleave, hfront, List.cons_append]

/-- Insertions in front of cells put the text there. -/
theorem interleave_insertions (h : u.drop k = Cell.text cells) :
    interleave u k (insertions ps t k cells) = insertedText ps t cells := by
  induction cells generalizing k with
  | nil => exact h
  | cons cell cells ih =>
      have hrest : u.drop (k + 1) = Cell.text cells := by
        rw [← List.drop_drop, h]
        rfl
      have hbehind : ∀ s ∈ insertions ps t (k + 1) cells, k < s.start :=
        fun s hs => le_start_of_mem_insertions hs
      have hnext : interleave u k (insertions ps t (k + 1) cells) =
          cell.char :: insertedText ps t cells := by
        rw [interleave_eq_cons h hbehind, ih hrest]
      rw [insertions, insertedText_cons]
      split
      · rw [interleave, hnext, List.drop_eq_nil_of_le (List.length_take_le _ _), List.nil_append]
      · exact hnext

/-- Through insertions an offset lands behind what comes of the cells in front of it. -/
theorem landingFrom_insertions (ps : List Position) (t : Text) (k : Nat) (shift : Int)
    (a b : List Cell) :
    landingFrom .left (k + a.length : Nat) shift (insertions ps t k (a ++ b)) =
      k + shift + (insertedText ps t a).length := by
  induction a generalizing k shift with
  | nil =>
      cases hsplices : insertions ps t k b with
      | nil => simp [hsplices, landingFrom, insertedText]
      | cons s rest =>
          have hs : k ≤ s.start := le_start_of_mem_insertions (hsplices ▸ List.mem_cons_self)
          have hstops : Bias.left.stopsAt (k + 0) s.start := Bias.left_stopsAt_iff.mpr hs
          rw [List.nil_append, hsplices, List.length_nil, landingFrom_of_stopsAt hstops]
          simp [insertedText]
  | cons cell a ih =>
      have hlater (shift : Int) := ih (k + 1) shift
      simp only [Nat.add_assoc, Nat.add_comm 1 a.length] at hlater
      rw [List.cons_append, insertions, insertedText_cons, List.length_cons]
      split
      · have hnot : ¬Bias.left.stopsAt (k + (a.length + 1)) k := by
          rw [Bias.left_stopsAt_iff]
          omega
        rw [landingFrom_of_stop_le hnot (by simp), hlater]
        simp only [delta, insertedLength, List.length_append, List.length_cons]
        omega
      · rw [hlater]
        simp only [List.nil_append, List.length_cons]
        omega

/-- Where an offset of a text lands when another one is put in front of some of its cells. -/
theorem landing_insertions (ps : List Position) (t : Text) (a b : List Cell) :
    landing (insertions ps t 0 (a ++ b)) a.length .left = (insertedText ps t a).length := by
  have hlanding := landingFrom_insertions ps t 0 0 a b
  rw [Nat.zero_add] at hlanding
  rw [landing, hlanding]
  omega

end Splice

namespace Document

open Cell

/-- A document with a text in front of the characters at some positions. -/
def inserting (d : Document) (ps : List Position) (t : Text) : Document :=
  ⟨insertedText ps t d.cells, d.ending⟩

variable {d : Document} {p : Position} {ps : List Position} {t pre post : Text} {plan : EditPlan}

/-- A place of a document with something inserted, behind all that comes of what is in front. -/
theorem DividedAt.inserting (h : d.DividedAt p pre post) (ps : List Position) (t : Text) :
    (d.inserting ps t).DividedAt
      (Position.origin.afterText (insertedText ps t (layOut .origin pre)))
      (insertedText ps t (layOut .origin pre)) (insertedText ps t (layOut p post)) where
  text_eq := by
    rw [Document.inserting, cells, h.text_eq, layOut_append, insertedText_append,
      ← h.position_eq]
  position_eq := rfl

/-- The offset of a place lands there. -/
theorem DividedAt.landing_insertions (h : d.DividedAt p pre post) (ps : List Position) (t : Text) :
    Splice.landing (insertions ps t 0 d.cells) (d.offsetAt p) .left =
      (insertedText ps t (layOut .origin pre)).length := by
  have hlanding := Splice.landing_insertions ps t (layOut .origin pre)
    (layOut (Position.origin.afterText pre) post)
  rwa [length_layOut, ← layOut_append, ← h.text_eq, ← h.offsetAt] at hlanding

theorem lineCount_inserting (d : Document) (ps : List Position) (ht : '\n' ∉ t) :
    (d.inserting ps t).lineCount = d.lineCount := by
  rw [lineCount, lineCount, lines, lines, Text.length_lines, Text.length_lines, inserting,
    count_insertedText ht, cells, text_layOut]

/-- Insertions at different cells of a document are those of the plan that makes them. -/
theorem insertions_perm (hnodup : ps.Nodup)
    (hcells : ∀ p ∈ ps, ∃ cell ∈ d.cells, cell.position = p) :
    (insertions ps t 0 d.cells).Perm
      (ps.map fun p => EditPlan.spliceOf d ⟨Range.empty p, t⟩) := by
  have hvalid : ∀ p ∈ ps, d.isValid p := by
    intro p hp
    obtain ⟨cell, hcell, rfl⟩ := hcells p hp
    obtain ⟨pre, post, hdiv⟩ := exists_dividedAt_of_mem_cells hcell
    exact hdiv.isValid
  have hoffset {a b : List Cell} {cell : Cell} (h : d.cells = a ++ cell :: b) :
      d.offsetAt cell.position = a.length := by
    obtain ⟨htext, -, hcell⟩ := Cell.layOut_eq_append h
    have hdiv : d.DividedAt cell.position (Cell.text a) (Cell.text (cell :: b)) :=
      ⟨htext, congrArg Cell.position (List.cons.inj hcell).1⟩
    rw [hdiv.offsetAt, Cell.text, List.length_map]
  refine (List.perm_ext_iff_of_nodup ?_ ?_).mpr ?_
  · apply (pairwise_insertions ps t 0 d.cells).imp
    rintro a b hlt rfl
    exact Nat.lt_irrefl _ hlt
  · refine hnodup.map_on ?_
    intro p hp q hq heq
    exact (offsetAt_inj (hvalid p hp) (hvalid q hq)).mp (congrArg Splice.start heq)
  · intro s
    rw [mem_insertions, List.mem_map]
    constructor
    · rintro ⟨a, cell, b, hsplit, hcell, rfl⟩
      refine ⟨cell.position, hcell, ?_⟩
      change (⟨d.offsetAt cell.position, d.offsetAt cell.position, t⟩ : Splice) = _
      rw [hoffset hsplit, Nat.zero_add]
    · rintro ⟨p, hp, rfl⟩
      obtain ⟨cell, hcell, rfl⟩ := hcells p hp
      obtain ⟨a, b, hsplit⟩ := List.append_of_mem hcell
      refine ⟨a, cell, b, hsplit, hp, ?_⟩
      change (⟨d.offsetAt cell.position, d.offsetAt cell.position, t⟩ : Splice) = _
      rw [hoffset hsplit, Nat.zero_add]

/-- A plan that puts a text in front of different cells of a document resolves to the insertions in
front of the cells. -/
theorem resolve_insertions (hedits : plan.edits = ps.map fun p => ⟨Range.empty p, t⟩)
    (hnodup : ps.Nodup) (hcells : ∀ p ∈ ps, ∃ cell ∈ d.cells, cell.position = p) :
    plan.resolve d = .ok (insertions ps t 0 d.cells) := by
  have hwithin : plan.IsWithin d := by
    rw [EditPlan.IsWithin, hedits, List.forall_mem_map]
    intro p hp
    obtain ⟨cell, hcell, rfl⟩ := hcells p hp
    obtain ⟨pre, post, hdiv⟩ := exists_dividedAt_of_mem_cells hcell
    exact ⟨hdiv.isValid, hdiv.isValid⟩
  have hclear : plan.edits.Pairwise fun a b => ¬d.Conflict a.range b.range := by
    rw [hedits, List.pairwise_map]
    exact List.pairwise_of_forall fun p q => (Range.isApart_empty p q).not_conflict
  have hperm : ((plan.placed d).map (·.2)).Perm (insertions ps t 0 d.cells) := by
    refine ((plan.perm_placed d).map _).trans ?_
    rw [EditPlan.map_planned, hedits, List.map_map]
    exact (insertions_perm hnodup hcells).symm
  rw [EditPlan.resolve_eq_ok_iff]
  refine ⟨hwithin, (EditPlan.pairwise_placed_iff hwithin).mpr hclear, ?_⟩
  have hordered : ((plan.placed d).map (·.2)).Pairwise fun a b => a.precedes b :=
    List.pairwise_map.mpr (plan.pairwise_placed d)
  refine (hperm.eq_of_pairwise ?_ hordered ?_).symm
  · -- of two insertions neither of which comes behind the other one the offsets are the same
    intro a b ha hb hab hba
    obtain ⟨_, _, _, -, -, rfl⟩ := mem_insertions.mp (hperm.mem_iff.mp ha)
    obtain ⟨_, _, _, -, -, rfl⟩ := mem_insertions.mp hb
    simp only [Splice.precedes_iff] at hab hba
    simp only [Splice.mk.injEq, and_true]
    omega
  · exact (pairwise_insertions ps t 0 d.cells).imp fun hlt => Splice.precedes_iff.mpr (.inl hlt)

/-- So the plan is carried out, and puts the text in front of the cells. -/
theorem apply_insertions (hedits : plan.edits = ps.map fun p => ⟨Range.empty p, t⟩)
    (hnodup : ps.Nodup) (hcells : ∀ p ∈ ps, ∃ cell ∈ d.cells, cell.position = p) :
    d.apply plan = .ok (insertions ps t 0 d.cells, d.inserting ps t) := by
  have htext : d.text.drop 0 = Cell.text d.cells := by
    rw [cells, text_layOut]
    rfl
  rw [apply_of_resolve (resolve_insertions hedits hnodup hcells),
    Splice.interleave_insertions htext]
  rfl

end Document

end MarkupPairs
