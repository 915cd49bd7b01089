import Mathlib.Data.List.Permutation
import MarkupPairs.Edit
import MarkupPairs.Proofs.Layout
import MarkupPairs.Proofs.RangeCover

/-!
# Resolving a plan

A plan resolves unless it refers to a place outside of the document or two of its edits conflict.
Only neighbours in the order of the document are compared. That is enough: of edits that come in
order, each apart from the next, any two are apart. What a plan resolves to does not depend on the
order in which its edits were planned, insertions at one place aside.
-/

namespace MarkupPairs

/-! ## Conflicts -/

/-- Whether a range is a mere place strictly inside another one. -/
def Range.IsInside (a b : Range) : Prop := a.isEmpty ∧ b.start < a.start ∧ a.start < b.stop

instance (a b : Range) : Decidable (a.IsInside b) := inferInstanceAs (Decidable (_ ∧ _))

/-- Whether edits of two ranges conflict: the ranges share a character, or one edit inserts strictly
inside what the other one replaces. -/
def Document.Conflict (d : Document) (a b : Range) : Prop :=
  (∃ cell ∈ d.cells, a.covers cell.position ∧ b.covers cell.position) ∨
    a.IsInside b ∨ b.IsInside a

instance (d : Document) (a b : Range) : Decidable (d.Conflict a b) :=
  inferInstanceAs (Decidable (_ ∨ _ ∨ _))

namespace EditPlan

/-- Whether all edits of a plan start and stop at places of a document. -/
def IsWithin (plan : EditPlan) (d : Document) : Prop :=
  ∀ e ∈ plan.edits, d.isValid e.range.start ∧ d.isValid e.range.stop

/-- The first place a plan refers to that a document does not have: edits in the order in which they
were planned, the start of each before its stop. -/
def FirstOutside (plan : EditPlan) (d : Document) (p : Position) : Prop :=
  ∃ before e behind, plan.edits = before ++ e :: behind ∧
    (∀ x ∈ before, d.isValid x.range.start ∧ d.isValid x.range.stop) ∧
    (¬d.isValid e.range.start ∧ p = e.range.start ∨
      d.isValid e.range.start ∧ ¬d.isValid e.range.stop ∧ p = e.range.stop)

/-- Two edits of a plan that conflict, wherever they stand in the plan. -/
def Conflict (plan : EditPlan) (d : Document) (a b : Edit) : Prop :=
  (∃ others, plan.edits.Perm (a :: b :: others)) ∧ d.Conflict a.range b.range

/-- The insertions of a plan at a place, in the order in which they were planned. -/
def insertionsAt (plan : EditPlan) (p : Position) : List Edit :=
  plan.edits.filter (·.range = Range.empty p)

/-- The edits of a plan with their splices, in the order in which they were planned. -/
def planned (plan : EditPlan) (d : Document) : List (Range × Splice) :=
  plan.edits.map fun e => (e.range, spliceOf d e)

end EditPlan

/-! ## The order of splices -/

namespace Splice

variable {a b c : Splice}

theorem precedes_iff : a.precedes b ↔ a.start < b.start ∨ a.start = b.start ∧ a.stop ≤ b.stop := by
  simp [precedes]

theorem precedes_trans (hab : a.precedes b) (hbc : b.precedes c) : a.precedes c := by
  rw [precedes_iff] at *
  omega

theorem precedes_total (a b : Splice) : a.precedes b || b.precedes a := by
  rw [Bool.or_eq_true, precedes_iff, precedes_iff]
  omega

/-- Whether a splice replaces what stands between two offsets. -/
def spans (start stop : Nat) (s : Splice) : Bool := s.start == start && s.stop == stop

theorem spans_iff {start stop : Nat} : a.spans start stop ↔ a.start = start ∧ a.stop = stop := by
  simp [spans]

variable {xs ys : List (Range × Splice)}

/-- The same splices between each two offsets are the same splices. -/
theorem mem_iff_of_filter_eq
    (h : ∀ start stop, xs.filter (·.2.spans start stop) = ys.filter (·.2.spans start stop))
    (x : Range × Splice) : x ∈ xs ↔ x ∈ ys := by
  have hx : x.2.spans x.2.start x.2.stop := spans_iff.mpr ⟨rfl, rfl⟩
  have hmem : x ∈ xs.filter (·.2.spans x.2.start x.2.stop) ↔
      x ∈ ys.filter (·.2.spans x.2.start x.2.stop) := by rw [h]
  rwa [List.mem_filter, List.mem_filter, and_iff_left hx, and_iff_left hx] at hmem

/-- Splices in order are known by those between each two offsets. -/
theorem eq_of_pairwise_precedes
    (hxs : xs.Pairwise fun x y => x.2.precedes y.2) (hys : ys.Pairwise fun x y => x.2.precedes y.2)
    (h : ∀ start stop, xs.filter (·.2.spans start stop) = ys.filter (·.2.spans start stop)) :
    xs = ys := by
  induction xs generalizing ys with
  | nil =>
      rw [eq_comm, List.eq_nil_iff_forall_not_mem]
      exact fun y hy => List.not_mem_nil ((mem_iff_of_filter_eq h y).mpr hy)
  | cons x xs ih =>
      cases ys with
      | nil => exact absurd ((mem_iff_of_filter_eq h x).mp List.mem_cons_self) List.not_mem_nil
      | cons y ys =>
          obtain ⟨hx, hxrest⟩ := List.pairwise_cons.mp hxs
          obtain ⟨hy, hyrest⟩ := List.pairwise_cons.mp hys
          -- neither head comes behind the other one, so both span the same
          have hxy : x.2.precedes y.2 := by
            rcases List.mem_cons.mp ((mem_iff_of_filter_eq h y).mpr List.mem_cons_self) with
              rfl | hmem
            · exact precedes_iff.mpr (.inr ⟨rfl, Nat.le_refl _⟩)
            · exact hx y hmem
          have hyx : y.2.precedes x.2 := by
            rcases List.mem_cons.mp ((mem_iff_of_filter_eq h x).mp List.mem_cons_self) with
              rfl | hmem
            · exact precedes_iff.mpr (.inr ⟨rfl, Nat.le_refl _⟩)
            · exact hy x hmem
          have hsame : y.2.spans x.2.start x.2.stop := by
            rw [precedes_iff] at hxy hyx
            exact spans_iff.mpr (by omega)
          have hhead := h x.2.start x.2.stop
          rw [List.filter_cons_of_pos (by exact spans_iff.mpr ⟨rfl, rfl⟩),
            List.filter_cons_of_pos (by exact hsame)] at hhead
          obtain ⟨rfl, -⟩ := List.cons.inj hhead
          refine congrArg (List.cons x) (ih hxrest hyrest ?_)
          intro start stop
          have hboth := h start stop
          by_cases hspans : x.2.spans start stop
          · rw [List.filter_cons_of_pos (by exact hspans),
              List.filter_cons_of_pos (by exact hspans)] at hboth
            exact (List.cons.inj hboth).2
          · rwa [List.filter_cons_of_neg (by exact hspans),
              List.filter_cons_of_neg (by exact hspans)] at hboth

end Splice

namespace EditPlan

variable {plan : EditPlan} {d : Document}

theorem pairwise_placed (plan : EditPlan) (d : Document) :
    (plan.placed d).Pairwise fun x y => x.2.precedes y.2 := by
  apply List.pairwise_mergeSort
  · exact fun _ _ _ => Splice.precedes_trans
  · exact fun x y => Splice.precedes_total x.2 y.2

theorem perm_placed (plan : EditPlan) (d : Document) : (plan.placed d).Perm (plan.planned d) :=
  List.mergeSort_perm _ _

theorem map_planned (plan : EditPlan) (d : Document) :
    (plan.planned d).map (·.2) = plan.edits.map (spliceOf d) := by
  rw [planned, List.map_map]
  rfl

theorem mem_placed {x : Range × Splice} :
    x ∈ plan.placed d ↔ ∃ e ∈ plan.edits, x = (e.range, spliceOf d e) := by
  rw [(plan.perm_placed d).mem_iff, planned, List.mem_map]
  simp only [eq_comm]

/-- Edits that were planned in order keep their order. -/
theorem filter_placed {q : Range × Splice → Bool}
    (h : ((plan.planned d).filter q).Pairwise fun x y => x.2.precedes y.2) :
    (plan.placed d).filter q = (plan.planned d).filter q := by
  have hsublist : ((plan.planned d).filter q).Sublist (plan.placed d) := by
    apply List.sublist_mergeSort
    · exact fun _ _ _ => Splice.precedes_trans
    · exact fun x y => Splice.precedes_total x.2 y.2
    · exact h
    · exact List.filter_sublist
  have hboth : (((plan.planned d).filter q).filter q).Sublist ((plan.placed d).filter q) :=
    hsublist.filter q
  rw [List.filter_filter] at hboth
  simp only [Bool.and_self] at hboth
  exact (hboth.eq_of_length ((plan.perm_placed d).symm.filter q).length_eq).symm

/-- Edits between the same offsets keep the order in which they were planned. -/
theorem filter_spans_placed (plan : EditPlan) (d : Document) (start stop : Nat) :
    (plan.placed d).filter (·.2.spans start stop) =
      (plan.planned d).filter (·.2.spans start stop) := by
  apply filter_placed
  apply List.pairwise_of_forall_mem_list
  intro x hx y hy
  obtain ⟨hxstart, hxstop⟩ := Splice.spans_iff.mp (List.mem_filter.mp hx).2
  obtain ⟨hystart, hystop⟩ := Splice.spans_iff.mp (List.mem_filter.mp hy).2
  exact Splice.precedes_iff.mpr (by omega)

/-! ## Neighbours and pairs -/

/-- Edits that each stop before the next one starts are apart, the later ones too. -/
theorem firstOverlap?_eq_none_iff {placed : List (Range × Splice)}
    (h : ∀ x ∈ placed, x.2.start ≤ x.2.stop) :
    firstOverlap? placed = none ↔ placed.Pairwise fun x y => x.2.stop ≤ y.2.start := by
  induction placed with
  | nil => exact iff_of_true rfl .nil
  | cons x rest ih =>
      obtain ⟨-, hrest⟩ := List.forall_mem_cons.mp h
      cases rest with
      | nil => exact iff_of_true rfl (List.pairwise_singleton _ _)
      | cons y rest =>
          have hy : y.2.start ≤ y.2.stop := hrest y List.mem_cons_self
          rw [firstOverlap?, List.pairwise_cons]
          split
          next hlt =>
            refine iff_of_false (Option.some_ne_none _) ?_
            rintro ⟨hx, -⟩
            exact absurd (hx y List.mem_cons_self) (Nat.not_le.mpr hlt)
          next hle =>
            rw [ih hrest, iff_and_self]
            intro hpairs z hz
            rcases List.mem_cons.mp hz with rfl | hz
            · exact Nat.not_lt.mp hle
            · have hyz := (List.pairwise_cons.mp hpairs).1 z hz
              omega

/-- An overlap that is found is one of two edits, one of which starts before the other one stops. -/
theorem exists_of_firstOverlap? {placed : List (Range × Splice)} {first second : Range}
    (h : firstOverlap? placed = some (first, second)) :
    ∃ s t : Splice, [(first, s), (second, t)].Sublist placed ∧ t.start < s.stop := by
  induction placed with
  | nil => cases h
  | cons x rest ih =>
      cases rest with
      | nil => cases h
      | cons y rest =>
          rw [firstOverlap?] at h
          split at h
          next hlt =>
            obtain ⟨rfl, rfl⟩ := Prod.mk.inj (Option.some.inj h)
            exact ⟨x.2, y.2, .cons_cons _ (.cons_cons _ (List.nil_sublist _)), hlt⟩
          next hle =>
            obtain ⟨s, t, hsublist, hlt⟩ := ih h
            exact ⟨s, t, hsublist.cons _, hlt⟩

end EditPlan

namespace Document

variable {d : Document} {a b : Range}

theorem Conflict.symm (h : d.Conflict a b) : d.Conflict b a := by
  rcases h with ⟨cell, hcell, ha, hb⟩ | hinside | hinside
  · exact .inl ⟨cell, hcell, hb, ha⟩
  · exact .inr (.inr hinside)
  · exact .inr (.inl hinside)

/-- Of two edits in order, the second one conflicts with the first one if it starts before that one
stops. -/
theorem conflict_iff {e x : Edit} (he : d.isValid e.range.start ∧ d.isValid e.range.stop)
    (hx : d.isValid x.range.start ∧ d.isValid x.range.stop)
    (hprecedes : (EditPlan.spliceOf d e).precedes (EditPlan.spliceOf d x)) :
    d.Conflict e.range x.range ↔
      (EditPlan.spliceOf d x).start < (EditPlan.spliceOf d e).stop := by
  have horder : e.range.start < x.range.start ∨
      e.range.start = x.range.start ∧ e.range.stop ≤ x.range.stop := by
    rcases Splice.precedes_iff.mp hprecedes with hlt | ⟨hstart, hstop⟩
    · exact .inl ((offsetAt_lt_offsetAt he.1 hx.1).mp hlt)
    · exact .inr ⟨(offsetAt_inj he.1 hx.1).mp hstart,
        (offsetAt_le_offsetAt he.2 hx.2).mp hstop⟩
  have hle : e.range.start ≤ x.range.start := by
    rcases horder with hlt | ⟨hstart, -⟩
    · exact Position.le_of_lt hlt
    · exact Position.le_of_eq hstart
  refine Iff.trans ?_ (offsetAt_lt_offsetAt hx.1 he.2).symm
  constructor
  · rintro (⟨cell, -, he, hx⟩ | ⟨-, hlt, -⟩ | ⟨-, -, hlt⟩)
    · exact Position.lt_of_le_of_lt (Range.covers_iff.mp hx).1 (Range.covers_iff.mp he).2
    · exact absurd hle (Position.not_le.mpr hlt)
    · exact hlt
  · intro hlt
    by_cases hempty : x.range.isEmpty
    · -- an insertion comes in front of what is replaced from its place on, so it is inside
      have hstop : x.range.start = x.range.stop := Range.isEmpty_iff.mp hempty
      refine .inr (.inr ⟨hempty, ?_, hlt⟩)
      rcases horder with hbefore | ⟨-, hstops⟩
      · exact hbefore
      · exact absurd (hstop ▸ hstops) (Position.not_le.mpr hlt)
    · obtain ⟨cell, hcell, hposition⟩ := exists_mem_cells_of_lt hx.1 he.2 hlt
      refine .inl ⟨cell, hcell, ?_, ?_⟩
      · rw [hposition]
        exact Range.covers_iff.mpr ⟨hle, hlt⟩
      · rw [hposition]
        exact Range.covers_iff.mpr ⟨Position.le_refl _, Range.start_lt_stop hempty⟩

end Document

namespace EditPlan

variable {plan plan' : EditPlan} {d : Document} {p : Position} {splices : List Splice}

/-! ## What a plan resolves to -/

theorem firstInvalid?_eq_some_iff : plan.firstInvalid? d = some p ↔ plan.FirstOutside d p := by
  have hends (e : Edit) :
      [e.range.start, e.range.stop].find? (!d.isValid ·) = some p ↔
        ¬d.isValid e.range.start ∧ p = e.range.start ∨
          d.isValid e.range.start ∧ ¬d.isValid e.range.stop ∧ p = e.range.stop := by
    by_cases hstart : d.isValid e.range.start
    · by_cases hstop : d.isValid e.range.stop
      · simp [hstart, hstop]
      · simp [hstart, hstop, @eq_comm _ p]
    · simp [hstart, @eq_comm _ p]
  have hnone (e : Edit) : [e.range.start, e.range.stop].find? (!d.isValid ·) = none ↔
      d.isValid e.range.start ∧ d.isValid e.range.stop := by simp
  simp only [firstInvalid?, List.find?_flatMap, List.findSome?_eq_some_iff, hends, hnone]
  simp only [FirstOutside, and_comm, and_left_comm]

theorem firstInvalid?_eq_none_iff : plan.firstInvalid? d = none ↔ plan.IsWithin d := by
  simp [firstInvalid?, IsWithin, or_imp, forall_and]

theorem exists_firstOutside_iff :
    (∃ p, plan.FirstOutside d p) ↔
      ∃ e ∈ plan.edits, ¬(d.isValid e.range.start ∧ d.isValid e.range.stop) := by
  simp only [← firstInvalid?_eq_some_iff, ← Option.isSome_iff_exists, ← Option.ne_none_iff_isSome]
  rw [Ne, firstInvalid?_eq_none_iff, IsWithin]
  simp only [not_forall, exists_prop]

/-- The splices of a plan within a document run forward. -/
theorem start_le_stop_of_mem_placed (h : plan.IsWithin d) :
    ∀ x ∈ plan.placed d, x.2.start ≤ x.2.stop := by
  intro x hx
  obtain ⟨e, he, rfl⟩ := mem_placed.mp hx
  exact (Document.offsetAt_le_offsetAt (h e he).1 (h e he).2).mpr e.range.start_le_stop

/-- A plan resolves to its splices in order if they are apart. -/
theorem resolve_eq_ok_iff : plan.resolve d = .ok splices ↔
    plan.IsWithin d ∧ ((plan.placed d).Pairwise fun x y => x.2.stop ≤ y.2.start) ∧
      splices = (plan.placed d).map (·.2) := by
  rw [resolve, ← firstInvalid?_eq_none_iff]
  cases hfirst : plan.firstInvalid? d with
  | some p => simp
  | none =>
      have hwithin := firstInvalid?_eq_none_iff.mp hfirst
      rw [← firstOverlap?_eq_none_iff (start_le_stop_of_mem_placed hwithin)]
      cases hoverlap : firstOverlap? (plan.placed d) with
      | some pair => simp
      | none => simp [eq_comm]

/-- A plan that comes in order and apart resolves to its splices as they are. -/
theorem resolve_of_pairwise (h : plan.IsWithin d)
    (hapart : (plan.edits.map (spliceOf d)).Pairwise fun a b => a.stop ≤ b.start) :
    plan.resolve d = .ok (plan.edits.map (spliceOf d)) := by
  have hpairs : (plan.planned d).Pairwise fun x y => x.2.stop ≤ y.2.start := by
    rwa [← map_planned, List.pairwise_map] at hapart
  have hplaced : plan.placed d = plan.planned d := by
    apply List.mergeSort_of_pairwise
    apply hpairs.imp_of_mem
    intro x y hx hy hxy
    have hx := start_le_stop_of_mem_placed h x ((plan.perm_placed d).mem_iff.mpr hx)
    have hy := start_le_stop_of_mem_placed h y ((plan.perm_placed d).mem_iff.mpr hy)
    exact Splice.precedes_iff.mpr (by omega)
  rw [resolve_eq_ok_iff, hplaced, map_planned]
  exact ⟨h, hpairs, rfl⟩

/-- Edits of a plan are apart in order if no two of them conflict. -/
theorem pairwise_placed_iff (h : plan.IsWithin d) :
    ((plan.placed d).Pairwise fun x y => x.2.stop ≤ y.2.start) ↔
      plan.edits.Pairwise fun a b => ¬d.Conflict a.range b.range := by
  have hplaced : ((plan.placed d).Pairwise fun x y => x.2.stop ≤ y.2.start) ↔
      (plan.placed d).Pairwise fun x y => ¬d.Conflict x.1 y.1 := by
    have hpair {x y : Range × Splice} (hx : x ∈ plan.placed d) (hy : y ∈ plan.placed d)
        (hxy : x.2.precedes y.2) : x.2.stop ≤ y.2.start ↔ ¬d.Conflict x.1 y.1 := by
      obtain ⟨e, he, rfl⟩ := mem_placed.mp hx
      obtain ⟨e', he', rfl⟩ := mem_placed.mp hy
      rw [Document.conflict_iff (h e he) (h e' he') hxy, Nat.not_lt]
    constructor
    · intro hapart
      exact ((plan.pairwise_placed d).and hapart).imp_of_mem fun hx hy hboth =>
        (hpair hx hy hboth.1).mp hboth.2
    · intro hclear
      exact ((plan.pairwise_placed d).and hclear).imp_of_mem fun hx hy hboth =>
        (hpair hx hy hboth.1).mpr hboth.2
  have hperm := (plan.perm_placed d).pairwise_iff (R := fun x y => ¬d.Conflict x.1 y.1)
    (fun hxy hyx => hxy hyx.symm)
  rw [hplaced, hperm, planned, List.pairwise_map]

theorem Conflict.not_pairwise {a b : Edit} (h : plan.Conflict d a b) :
    ¬plan.edits.Pairwise fun a b => ¬d.Conflict a.range b.range := by
  obtain ⟨⟨others, hperm⟩, hconflict⟩ := h
  rw [hperm.pairwise_iff fun hxy hyx => hxy hyx.symm, List.pairwise_cons]
  rintro ⟨hclear, -⟩
  exact hclear b List.mem_cons_self hconflict

/-- Two edits of which one starts before the one in front of it stops are two of the plan. -/
theorem exists_conflict_of_firstOverlap? (h : plan.IsWithin d) {first second : Range}
    (hoverlap : firstOverlap? (plan.placed d) = some (first, second)) :
    ∃ a b, plan.Conflict d a b ∧ first = a.range ∧ second = b.range := by
  obtain ⟨s, t, hsublist, hlt⟩ := exists_of_firstOverlap? hoverlap
  have hprecedes := List.pairwise_pair.mp ((plan.pairwise_placed d).sublist hsublist)
  obtain ⟨a, ha, hfirst⟩ := mem_placed.mp (hsublist.subset List.mem_cons_self)
  obtain ⟨b, hb, hsecond⟩ :=
    mem_placed.mp (hsublist.subset (List.mem_cons_of_mem _ List.mem_cons_self))
  obtain ⟨rfl, rfl⟩ := Prod.mk.inj hfirst
  obtain ⟨rfl, rfl⟩ := Prod.mk.inj hsecond
  refine ⟨a, b, ⟨?_, (Document.conflict_iff (h a ha) (h b hb) hprecedes).mpr hlt⟩, rfl, rfl⟩
  -- an edit is known by its range and its splice
  have hedits : (plan.planned d).map (fun x => (⟨x.1, x.2.text⟩ : Edit)) = plan.edits := by
    rw [planned, List.map_map]
    exact List.map_id _
  obtain ⟨others, hperm⟩ := (hsublist.map fun x => (⟨x.1, x.2.text⟩ : Edit)).exists_perm_append
  refine ⟨others, ?_⟩
  rw [← hedits]
  exact ((plan.perm_placed d).symm.map _).trans hperm

/-! ## The order of planning -/

/-- Edits at one place that are no insertions would conflict. -/
theorem length_filter_spans_le_one {start stop : Nat} (hne : start ≠ stop)
    (hwithin : plan.IsWithin d)
    (hapart : (plan.placed d).Pairwise fun x y => x.2.stop ≤ y.2.start) :
    ((plan.placed d).filter (·.2.spans start stop)).length ≤ 1 := by
  have hpairs := hapart.filter (·.2.spans start stop)
  cases hfound : (plan.placed d).filter (·.2.spans start stop) with
  | nil => exact Nat.zero_le 1
  | cons x rest =>
      cases rest with
      | nil => exact Nat.le_refl 1
      | cons y rest =>
          have hmem {z : Range × Splice} (hz : z ∈ x :: y :: rest) :
              z ∈ plan.placed d ∧ z.2.start = start ∧ z.2.stop = stop := by
            rw [← hfound, List.mem_filter] at hz
            exact ⟨hz.1, Splice.spans_iff.mp hz.2⟩
          obtain ⟨hx, hxspan⟩ := hmem (z := x) (by simp)
          obtain ⟨-, hyspan⟩ := hmem (z := y) (by simp)
          rw [hfound] at hpairs
          have hxy := (List.pairwise_cons.mp hpairs).1 y (by simp)
          have hxle := start_le_stop_of_mem_placed hwithin x hx
          omega

/-- The insertions at a place are what is spliced in at its offset. -/
theorem spans_spliceOf_iff {e : Edit} (he : d.isValid e.range.start ∧ d.isValid e.range.stop)
    (hp : d.isValid p) :
    (spliceOf d e).spans (d.offsetAt p) (d.offsetAt p) ↔ e.range = Range.empty p := by
  rw [Splice.spans_iff, Range.ext_iff', spliceOf, Document.offsetAt_inj he.1 hp,
    Document.offsetAt_inj he.2 hp]
  rfl

theorem filter_spans_planned_eq_insertionsAt (hwithin : plan.IsWithin d) (hp : d.isValid p) :
    (plan.planned d).filter (·.2.spans (d.offsetAt p) (d.offsetAt p)) =
      (plan.insertionsAt p).map fun e => (e.range, spliceOf d e) := by
  rw [planned, List.filter_map, insertionsAt]
  apply congrArg
  apply List.filter_congr
  intro e he
  rw [Bool.eq_iff_iff, decide_eq_true_eq]
  exact spans_spliceOf_iff (hwithin e he) hp

/-- Between two offsets a plan that resolves has the same edits in whatever order it comes, when
insertions at one place keep theirs. -/
theorem filter_spans_planned (hperm : plan'.edits.Perm plan.edits)
    (hinsertions : ∀ p, plan'.insertionsAt p = plan.insertionsAt p) (hwithin : plan.IsWithin d)
    (hapart : (plan.placed d).Pairwise fun x y => x.2.stop ≤ y.2.start) (start stop : Nat) :
    (plan'.planned d).filter (·.2.spans start stop) =
      (plan.planned d).filter (·.2.spans start stop) := by
  have hfilter : ((plan'.planned d).filter (·.2.spans start stop)).Perm
      ((plan.planned d).filter (·.2.spans start stop)) := (hperm.map _).filter _
  cases hfound : (plan.planned d).filter (·.2.spans start stop) with
  | nil => exact (hfound ▸ hfilter).eq_nil
  | cons x rest =>
      rw [← hfound]
      by_cases hne : start = stop
      · -- what is between an offset and itself is inserted at one place
        have hx : x ∈ (plan.planned d).filter (·.2.spans start stop) :=
          hfound ▸ List.mem_cons_self
        obtain ⟨hmem, hspans⟩ := List.mem_filter.mp hx
        obtain ⟨e, he, rfl⟩ := List.mem_map.mp hmem
        obtain ⟨rfl, -⟩ := Splice.spans_iff.mp hspans
        obtain rfl := hne
        have hwithin' : plan'.IsWithin d := fun a ha => hwithin a (hperm.mem_iff.mp ha)
        have hplace := (hwithin e he).1
        exact (filter_spans_planned_eq_insertionsAt hwithin' hplace).trans
          (hinsertions _ ▸ (filter_spans_planned_eq_insertionsAt hwithin hplace).symm)
      · -- anything else is there only once
        have hlength := length_filter_spans_le_one hne hwithin hapart
        rw [filter_spans_placed, hfound, List.length_cons] at hlength
        obtain rfl : rest = [] := List.eq_nil_of_length_eq_zero (by omega)
        rw [hfound] at hfilter ⊢
        exact List.perm_singleton.mp hfilter

/-- A plan that resolves comes in the same order of the document however it was planned, when
insertions at one place keep their order. -/
theorem placed_eq_of_perm (hperm : plan'.edits.Perm plan.edits)
    (hinsertions : ∀ p, plan'.insertionsAt p = plan.insertionsAt p)
    (hresolve : plan.resolve d = .ok splices) : plan'.placed d = plan.placed d := by
  obtain ⟨hwithin, hapart, -⟩ := resolve_eq_ok_iff.mp hresolve
  apply Splice.eq_of_pairwise_precedes (plan'.pairwise_placed d) (plan.pairwise_placed d)
  intro start stop
  rw [filter_spans_placed, filter_spans_placed,
    filter_spans_planned hperm hinsertions hwithin hapart]

theorem resolve_of_perm (hperm : plan'.edits.Perm plan.edits)
    (hinsertions : ∀ p, plan'.insertionsAt p = plan.insertionsAt p)
    (hresolve : plan.resolve d = .ok splices) : plan'.resolve d = .ok splices := by
  have hplaced := placed_eq_of_perm hperm hinsertions hresolve
  obtain ⟨hwithin, hapart, hsplices⟩ := resolve_eq_ok_iff.mp hresolve
  rw [resolve_eq_ok_iff, hplaced]
  exact ⟨fun e he => hwithin e (hperm.mem_iff.mp he), hapart, hsplices⟩

/-! ## The three outcomes -/

theorem resolve_eq_outOfBounds_iff :
    plan.resolve d = .error (.outOfBounds p) ↔ plan.FirstOutside d p := by
  rw [← firstInvalid?_eq_some_iff, resolve]
  cases plan.firstInvalid? d with
  | some q => simp
  | none =>
      cases firstOverlap? (plan.placed d) with
      | some pair => simp
      | none => simp

theorem resolve_ne_outOfBounds (h : plan.IsWithin d) :
    plan.resolve d ≠ .error (.outOfBounds p) := by
  intro hresolve
  obtain ⟨e, he, hinvalid⟩ :=
    exists_firstOutside_iff.mp ⟨p, resolve_eq_outOfBounds_iff.mp hresolve⟩
  exact hinvalid (h e he)

/-- An overlap that is reported is one of two edits of the plan that conflict. -/
theorem exists_conflict_of_resolve {first second : Range}
    (h : plan.resolve d = .error (.overlap first second)) :
    plan.IsWithin d ∧ ∃ a b, plan.Conflict d a b ∧ first = a.range ∧ second = b.range := by
  rw [resolve] at h
  cases hfirst : plan.firstInvalid? d with
  | some p => simp [hfirst] at h
  | none =>
      have hwithin := firstInvalid?_eq_none_iff.mp hfirst
      cases hoverlap : firstOverlap? (plan.placed d) with
      | some pair =>
          simp only [hfirst, hoverlap, Except.error.injEq, EditError.overlap.injEq] at h
          obtain ⟨rfl, rfl⟩ := h
          exact ⟨hwithin, exists_conflict_of_firstOverlap? hwithin hoverlap⟩
      | none => simp [hfirst, hoverlap] at h

theorem exists_resolve_eq_ok_iff : (∃ splices, plan.resolve d = .ok splices) ↔
    plan.IsWithin d ∧ ¬∃ a b, plan.Conflict d a b := by
  constructor
  · rintro ⟨splices, hresolve⟩
    obtain ⟨hwithin, hapart, -⟩ := resolve_eq_ok_iff.mp hresolve
    refine ⟨hwithin, ?_⟩
    rintro ⟨a, b, hconflict⟩
    exact hconflict.not_pairwise ((pairwise_placed_iff hwithin).mp hapart)
  · rintro ⟨hwithin, hclear⟩
    cases hresolve : plan.resolve d with
    | ok splices => exact ⟨splices, rfl⟩
    | error e =>
        cases e with
        | outOfBounds p => exact absurd hresolve (resolve_ne_outOfBounds hwithin)
        | overlap first second =>
            obtain ⟨-, a, b, hconflict, -⟩ := exists_conflict_of_resolve hresolve
            exact absurd ⟨a, b, hconflict⟩ hclear

/-- The first place outside of the document is what is wrong with a plan that has one. Otherwise two
edits that conflict are, wherever they stand in the plan, and a plan without any resolves. What it
resolves to, and so the text it leads to, is the same for all orders of planning that keep the order
of the insertions at each place. -/
theorem resolve_outcomes (plan : EditPlan) (d : Document) :
    (∀ p, plan.resolve d = .error (.outOfBounds p) ↔ plan.FirstOutside d p) ∧
    ((∃ p, plan.FirstOutside d p) ↔
      ∃ e ∈ plan.edits, ¬(d.isValid e.range.start ∧ d.isValid e.range.stop)) ∧
    ((∃ first second, plan.resolve d = .error (.overlap first second)) ↔
      plan.IsWithin d ∧ ∃ a b, plan.Conflict d a b) ∧
    (∀ first second, plan.resolve d = .error (.overlap first second) →
      ∃ a b, plan.Conflict d a b ∧ first = a.range ∧ second = b.range) ∧
    ((∃ splices, plan.resolve d = .ok splices) ↔
      plan.IsWithin d ∧ ¬∃ a b, plan.Conflict d a b) ∧
    ∀ (splices : List Splice) (plan' : EditPlan), plan.resolve d = .ok splices →
      plan'.edits.Perm plan.edits → (∀ p, plan'.insertionsAt p = plan.insertionsAt p) →
        plan'.resolve d = .ok splices ∧ d.apply plan' = d.apply plan := by
  refine ⟨fun p => resolve_eq_outOfBounds_iff, exists_firstOutside_iff, ?_, ?_,
    exists_resolve_eq_ok_iff, ?_⟩
  · constructor
    · rintro ⟨first, second, hresolve⟩
      obtain ⟨hwithin, a, b, hconflict, -⟩ := exists_conflict_of_resolve hresolve
      exact ⟨hwithin, a, b, hconflict⟩
    · rintro ⟨hwithin, hconflict⟩
      cases hresolve : plan.resolve d with
      | ok splices => exact absurd hconflict (exists_resolve_eq_ok_iff.mp ⟨splices, hresolve⟩).2
      | error e =>
          cases e with
          | outOfBounds p => exact absurd hresolve (resolve_ne_outOfBounds hwithin)
          | overlap first second => exact ⟨first, second, rfl⟩
  · intro first second hresolve
    exact (exists_conflict_of_resolve hresolve).2
  · intro splices plan' hresolve hperm hinsertions
    have hsame := resolve_of_perm hperm hinsertions hresolve
    refine ⟨hsame, ?_⟩
    rw [Document.apply_eq, Document.apply_eq, hsame, hresolve]

/-- Two insertions behind a deletion, and the same with the first insertion in front. -/
theorem resolve_outcomes_insertions :
    let d : Document := ⟨['a', 'b'], .lf⟩
    let delete : Edit := ⟨⟨⟨0, 0⟩, ⟨0, 1⟩, by decide⟩, []⟩
    let insert (c : Char) : Edit := ⟨.empty ⟨0, 1⟩, [c]⟩
    let plan : EditPlan := ⟨[delete, insert 'x', insert 'y'], by decide⟩
    let plan' : EditPlan := ⟨[insert 'x', delete, insert 'y'], by decide⟩
    let splices : List Splice := [⟨0, 1, []⟩, ⟨1, 1, ['x']⟩, ⟨1, 1, ['y']⟩]
    plan.resolve d = .ok splices ∧ plan'.edits.Perm plan.edits ∧
      (∀ p, plan'.insertionsAt p = plan.insertionsAt p) ∧
      plan'.resolve d = .ok splices ∧ d.apply plan' = d.apply plan := by
  intro d delete insert plan plan' splices
  have hresolve : plan.resolve d = .ok splices := by cbv
  have hperm : plan'.edits.Perm plan.edits := .swap _ _ _
  have hinsertions (p : Position) : plan'.insertionsAt p = plan.insertionsAt p := by
    have hdelete : delete.range ≠ Range.empty p := by
      intro heq
      obtain ⟨hstart, hstop⟩ := Range.ext_iff'.mp heq
      exact absurd (hstart.trans hstop.symm) (by decide)
    simp [insertionsAt, plan, plan', List.filter_cons, hdelete]
  obtain ⟨-, -, -, -, -, hany⟩ := resolve_outcomes plan d
  exact ⟨hresolve, hperm, hinsertions, hany splices plan' hresolve hperm hinsertions⟩

end EditPlan

end MarkupPairs
