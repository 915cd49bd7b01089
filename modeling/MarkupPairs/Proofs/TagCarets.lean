import MarkupPairs.Proofs.InsertedTags
import MarkupPairs.Proofs.Landing
import MarkupPairs.Proofs.MergedSelections

/-!
# Carets in inserted tags

What is written for a selection stands behind what is made of the text in front of it. Its caret is
looked for where the start of its range lands, which is in front of everything that is written from
that start on. So each caret is in the tag of its selection just when no two of the ranges start at
the same position: of those that do, the last one has its caret in a tag of another one, or nowhere
at all.
-/

namespace MarkupPairs

/-- Where members of a list agree in some respect, there is a last one that agrees with one in front
of it. -/
theorem exists_last_of_not_pairwise {α β : Type} {f : α → β} {l : List α}
    (h : ¬l.Pairwise fun a b => f a ≠ f b) :
    ∃ pre x post, l = pre ++ x :: post ∧ (∃ y ∈ pre, f y = f x) ∧ ∀ z ∈ post, f z ≠ f x := by
  induction l with
  | nil => exact absurd .nil h
  | cons a l ih =>
      by_cases hl : l.Pairwise fun a b => f a ≠ f b
      · rw [List.pairwise_cons, not_and_or, or_iff_left (not_not_intro hl)] at h
        push Not at h
        obtain ⟨x, hx, heq⟩ := h
        obtain ⟨pre, post, rfl⟩ := List.append_of_mem hx
        refine ⟨a :: pre, x, post, rfl, ⟨a, List.mem_cons_self, heq⟩, ?_⟩
        intro z hz
        obtain ⟨-, hlater, -⟩ := List.pairwise_append.mp hl
        exact ((List.pairwise_cons.mp hlater).1 z hz).symm
      · obtain ⟨pre, x, post, rfl, ⟨y, hy, heq⟩, hpost⟩ := ih hl
        exact ⟨a :: pre, x, post, rfl, ⟨y, List.mem_cons_of_mem _ hy, heq⟩, hpost⟩

namespace Splice

variable {t : Text} {pre post : List Splice} {s : Splice} {k upto offset : Nat} {shift : Int}

/-- An offset passes by splices that start before it and stop no later. -/
theorem landingFrom_of_passed (bias : Bias) (shift : Int)
    (hpassed : ∀ a ∈ pre, a.start < offset ∧ a.stop ≤ offset) (rest : List Splice) :
    landingFrom bias offset shift (pre ++ rest) =
      landingFrom bias offset (shift + (pre.map delta).sum) rest := by
  induction pre generalizing shift with
  | nil => simp
  | cons a pre ih =>
      obtain ⟨⟨hstart, hstop⟩, hpre⟩ := List.forall_mem_cons.mp hpassed
      have hnot : ¬bias.stopsAt offset a.start := fun hstops =>
        absurd (Bias.le_of_stopsAt hstops) (Nat.not_le.mpr hstart)
      rw [List.cons_append, landingFrom_of_stop_le hnot hstop, ih _ hpre, List.map_cons,
        List.sum_cons, Int.add_assoc]

/-- Where the start of a splice lands on the left does not depend on the splice. -/
theorem landingFrom_left_start (shift : Int) :
    landingFrom .left s.start shift (pre ++ s :: post) = landingFrom .left s.start shift pre := by
  induction pre generalizing shift with
  | nil => exact landingFrom_of_stopsAt (Bias.left_stopsAt_iff.mpr (Nat.le_refl _))
  | cons a pre ih => rw [List.cons_append, landingFrom, landingFrom, ih]

/-- What is made of the text in front of a splice is as long as that text, with the changes of the
splices in front of it. -/
theorem Apart.length_front (h : Apart t.length 0 (pre ++ s :: post)) :
    ((interleave (t.take s.start) 0 pre).length : Int) = s.start + (pre.map delta).sum := by
  obtain ⟨hpre, hle, hpost⟩ := h.of_append
  have hlength : (t.take s.start).length = s.start :=
    List.length_take_of_le (Nat.le_trans hle hpost.le)
  have hfront := length_interleave (hlength.symm ▸ hpre)
  rw [hlength] at hfront
  omega

/-- The start of a splice lands no further than what is put in place there. -/
theorem Apart.landing_start_le (h : Apart t.length 0 (pre ++ s :: post)) :
    landing (pre ++ s :: post) s.start .left ≤ (interleave (t.take s.start) 0 pre).length := by
  obtain ⟨hpre, hle, hpost⟩ := h.of_append
  have hlength : (t.take s.start).length = s.start :=
    List.length_take_of_le (Nat.le_trans hle hpost.le)
  have hbound := landingFrom_le .left 0 (hlength.symm ▸ hpre) (Nat.zero_le s.start)
    (Nat.le_of_eq hlength.symm)
  have hlanding := h.landing_eq s.start .left
  rw [landingFrom_left_start] at hlanding
  omega

/-- It lands right there when no other splice in front of it starts at the same offset. -/
theorem Apart.landing_start_eq (h : Apart t.length 0 (pre ++ s :: post))
    (hpre : ∀ a ∈ pre, a.start < s.start) :
    landing (pre ++ s :: post) s.start .left = (interleave (t.take s.start) 0 pre).length := by
  have hpassed : ∀ a ∈ pre, a.start < s.start ∧ a.stop ≤ s.start :=
    fun a ha => ⟨hpre a ha, (h.of_append.1.stop_le a ha).2⟩
  have hlanding := h.landing_eq s.start .left
  have hfront := h.length_front
  rw [landingFrom_of_passed .left 0 hpassed,
    landingFrom_of_stopsAt (Bias.left_stopsAt_iff.mpr (Nat.le_refl _))] at hlanding
  omega

/-- An offset behind a splice lands behind what is put in place by it. -/
theorem Apart.le_landing (h : Apart t.length 0 (pre ++ s :: post)) (hstart : s.start < offset)
    (hstop : s.stop ≤ offset) :
    (interleave (t.take s.start) 0 pre).length + s.text.length ≤
      landing (pre ++ s :: post) offset .left := by
  obtain ⟨hpre, hle, hpost⟩ := h.of_append
  have hpassed : ∀ a ∈ pre, a.start < offset ∧ a.stop ≤ offset := by
    intro a ha
    obtain ⟨hends, hahead⟩ := hpre.stop_le a ha
    omega
  have hlanding := h.landing_eq offset .left
  rw [landingFrom_of_passed .left 0 hpassed,
    landingFrom_of_stop_le (mt Bias.left_stopsAt_iff.mp (Nat.not_le.mpr hstart)) hstop] at hlanding
  have hlater := le_landingFrom .left (0 + (pre.map delta).sum + s.delta) hpost hstop
  have hfront := h.length_front
  have hbegin := s.stop_add_delta (pre.map delta).sum
  omega

end Splice

namespace Writing

open Splice

variable {w : Writing} {d : Document} {selections earlier between later : List Selection}
  {x y z : Selection}

/-- What the new text has in front of what is written for a selection. -/
def front (w : Writing) (d : Document) (earlier : List Selection) (selection : Selection) : Text :=
  interleave (d.text.take (d.offsetAt (w.range selection).start)) 0 (earlier.map (w.splice d))

/-- What the new text has behind what is written for a selection. -/
def behind (w : Writing) (d : Document) (selection : Selection) (later : List Selection) : Text :=
  interleave d.text (d.offsetAt (w.range selection).stop) (later.map (w.splice d))

/-- Where the start of a range lands in the new text. -/
def landing (w : Writing) (d : Document) (selections : List Selection) (selection : Selection) :
    Nat :=
  Splice.landing (w.splices d selections) (d.offsetAt (w.range selection).start) .left

/-- Where the caret of a selection is looked for in the new text. -/
def caretOffset (w : Writing) (d : Document) (selections : List Selection)
    (selection : Selection) : Nat :=
  w.landing d selections selection + (w.lead selection).length

theorem splices_eq (horder : w.order d selections = earlier ++ x :: later) :
    w.splices d selections =
      earlier.map (w.splice d) ++ w.splice d x :: later.map (w.splice d) := by
  rw [splices, horder, List.map_append, List.map_cons]

theorem apart_of_order (h : w.Fits d selections)
    (horder : w.order d selections = earlier ++ x :: later) :
    Apart d.text.length 0 (earlier.map (w.splice d) ++ w.splice d x :: later.map (w.splice d)) :=
  splices_eq horder ▸ Document.apart_of_resolve (resolve_plan h)

/-- The new text by what is written for one of the selections. -/
theorem interleave_splices (h : w.Fits d selections)
    (horder : w.order d selections = earlier ++ x :: later) :
    interleave d.text 0 (w.splices d selections) =
      w.front d earlier x ++ (w.text x ++ w.behind d x later) := by
  rw [splices_eq horder]
  exact interleave_append (apart_of_order h horder)

/-- What is written for a selection stands in front of what is written for a later one. -/
theorem front_text_le (h : w.Fits d selections)
    (horder : w.order d selections = earlier ++ x :: (between ++ y :: later)) :
    (w.front d earlier x).length + (w.text x).length ≤
      (w.front d (earlier ++ x :: between) y).length := by
  have hall : w.order d selections = (earlier ++ x :: between) ++ y :: later := by
    rw [horder, List.append_assoc, List.cons_append]
  have hapart := (apart_of_order h hall).of_append.1
  rw [List.map_append, List.map_cons] at hapart
  have hstart : (w.splice d x).start ≤ (w.splice d y).start :=
    Nat.le_trans hapart.of_append.2.1 hapart.of_append.2.2.le
  have hfront : w.front d (earlier ++ x :: between) y = w.front d earlier x ++ (w.text x ++
      interleave (d.text.take (w.splice d y).start) (w.splice d x).stop
        (between.map (w.splice d))) := by
    have happend := interleave_append (t := d.text.take (w.splice d y).start) hapart
    rw [List.take_take, Nat.min_eq_left hstart] at happend
    rw [front, List.map_append, List.map_cons]
    exact happend
  rw [hfront, List.length_append, List.length_append]
  omega

theorem splice_start_eq_iff (h : w.Fits d selections) (hx : x ∈ selections) (hy : y ∈ selections) :
    (w.splice d x).start = (w.splice d y).start ↔ (w.range x).start = (w.range y).start :=
  Document.offsetAt_inj (h.isValid x hx).1 (h.isValid y hy).1

/-- Of two selections the one that comes first is written for first, or no later. -/
theorem splice_start_le (horder : w.order d selections = earlier ++ x :: later) :
    (∀ y ∈ earlier, (w.splice d y).start ≤ (w.splice d x).start) ∧
      ∀ z ∈ later, (w.splice d x).start ≤ (w.splice d z).start := by
  have hle {a b : Splice} (hab : a.precedes b) : a.start ≤ b.start := by
    rw [Splice.precedes_iff] at hab
    omega
  have hordered := w.pairwise_order d selections
  rw [horder, List.pairwise_append, List.pairwise_cons] at hordered
  obtain ⟨-, ⟨hlater, -⟩, hearlier⟩ := hordered
  exact ⟨fun y hy => hle (hearlier y hy x List.mem_cons_self), fun z hz => hle (hlater z hz)⟩

theorem mem_of_order (horder : w.order d selections = earlier ++ x :: later) :
    x ∈ selections ∧ (∀ y ∈ earlier, y ∈ selections) ∧ ∀ z ∈ later, z ∈ selections := by
  have hmem {y : Selection} (hy : y ∈ earlier ++ x :: later) : y ∈ selections :=
    (w.order_perm d selections).mem_iff.mp (horder ▸ hy)
  refine ⟨hmem (List.mem_append_right _ List.mem_cons_self), ?_, ?_⟩
  · exact fun y hy => hmem (List.mem_append_left _ hy)
  · exact fun z hz => hmem (List.mem_append_right _ (List.mem_cons_of_mem _ hz))

/-! ## Where the ranges land -/

theorem landing_le_front (h : w.Fits d selections)
    (horder : w.order d selections = earlier ++ x :: later) :
    w.landing d selections x ≤ (w.front d earlier x).length := by
  rw [landing, splices_eq horder]
  exact (apart_of_order h horder).landing_start_le

/-- A range lands right where what is written in place of it begins if no range in front starts at
the same position. -/
theorem landing_eq_front (h : w.Fits d selections)
    (horder : w.order d selections = earlier ++ x :: later)
    (hne : ∀ y ∈ earlier, (w.range y).start ≠ (w.range x).start) :
    w.landing d selections x = (w.front d earlier x).length := by
  obtain ⟨hx, hearlier, -⟩ := mem_of_order horder
  have hlt : ∀ y ∈ earlier, (w.splice d y).start < (w.splice d x).start := fun y hy =>
    Nat.lt_of_le_of_ne ((splice_start_le horder).1 y hy) fun heq =>
      hne y hy ((splice_start_eq_iff h (hearlier y hy) hx).mp heq)
  rw [landing, splices_eq horder]
  exact (apart_of_order h horder).landing_start_eq (List.forall_mem_map.mpr hlt)

/-- A later range lands behind what is written for a selection, unless it starts at the same
position. -/
theorem front_text_le_landing (h : w.Fits d selections)
    (horder : w.order d selections = earlier ++ x :: later) (hz : z ∈ later)
    (hne : (w.range z).start ≠ (w.range x).start) :
    (w.front d earlier x).length + (w.text x).length ≤ w.landing d selections z := by
  obtain ⟨hx, -, hlater⟩ := mem_of_order horder
  have hlt : (w.splice d x).start < (w.splice d z).start :=
    Nat.lt_of_le_of_ne ((splice_start_le horder).2 z hz) fun heq =>
      hne ((splice_start_eq_iff h hx (hlater z hz)).mp heq).symm
  have hapart := apart_of_order h horder
  rw [landing, splices_eq horder]
  exact hapart.le_landing hlt (hapart.of_append.2.2.le_start _ (List.mem_map_of_mem hz))

/-! ## Whose caret is where -/

/-- Whether the new text has, for each selection, what is written for it between what it has in
front of that and behind it. -/
structure WrittenTo (w : Writing) (s after : Session) : Prop where
  perm : (w.order s.document s.selections).Perm s.selections
  text_eq : ∀ earlier selection later,
    w.order s.document s.selections = earlier ++ selection :: later →
      after.document.text = w.front s.document earlier selection ++
        (w.lead selection ++ (w.rest selection ++ w.behind s.document selection later))

/-- Whether each selection has a caret in what is written for it, where it belongs. -/
def CaretsInPlace (w : Writing) (s after : Session) : Prop :=
  ∀ earlier selection later,
    w.order s.document s.selections = earlier ++ selection :: later →
      .caret (Position.origin.afterText
        (w.front s.document earlier selection ++ w.lead selection)) ∈ after.selections

variable {s : Session}

theorem writtenTo_write (h : w.Fits s.document s.selections) : w.WrittenTo s (s.write w) := by
  refine ⟨w.order_perm _ _, ?_⟩
  intro earlier selection later horder
  rw [← List.append_assoc (w.lead selection)]
  exact interleave_splices h horder

/-- Where carets are, by how far into the new text they are looked for. -/
theorem caret_mem_write_iff {t u : Text} (htext : (s.write w).document.text = t ++ u) :
    .caret (Position.origin.afterText t) ∈ (s.write w).selections ↔
      ∃ x ∈ s.selections,
        (s.write w).document.text.take (w.caretOffset s.document s.selections x) = t := by
  have hcaret (x : Selection) :
      (w.target s.document x).resolve (w.splices s.document s.selections) (s.write w).document =
        .caret ((s.write w).document.positionAt (w.caretOffset s.document s.selections x)) := rfl
  have hempty : ∀ x ∈ s.selections.map fun x =>
      (w.target s.document x).resolve (w.splices s.document s.selections) (s.write w).document,
      x.isEmpty := by
    rw [List.forall_mem_map]
    exact fun x _ => beq_self_eq_true _
  change _ ∈ Selection.normalize (s.selections.map fun x =>
    (w.target s.document x).resolve (w.splices s.document s.selections) (s.write w).document) ↔ _
  rw [Selection.mem_normalize_of_isEmpty hempty, List.mem_map]
  refine exists_congr fun x => and_congr_right fun _ => ?_
  rw [hcaret]
  constructor
  · intro heq
    have hposition := congrArg Selection.active heq
    have hparts := (List.take_append_drop (w.caretOffset s.document s.selections x)
      (s.write w).document.text).trans htext
    exact Position.afterText_inj hparts hposition
  · intro heq
    rw [Document.positionAt, heq]

/-- A caret is looked for no further than what is written for its selection goes. -/
theorem caretOffset_le (h : w.Fits d selections)
    (horder : w.order d selections = earlier ++ x :: later) :
    w.caretOffset d selections x ≤ (w.front d earlier x).length + (w.text x).length :=
  Nat.add_le_add (landing_le_front h horder) (w.length_lead_le x)

/-- Where a range in front starts at the same position and none behind does, no caret is looked for
right behind the text that leads up to it. -/
theorem caretOffset_ne (h : w.Fits d selections)
    (horder : w.order d selections = earlier ++ x :: later)
    (hy : y ∈ earlier) (hsame : (w.range y).start = (w.range x).start)
    (hlater : ∀ z ∈ later, (w.range z).start ≠ (w.range x).start) (hz : z ∈ selections) :
    w.caretOffset d selections z ≠ (w.front d earlier x ++ w.lead x).length := by
  have hsplit {a : Selection} (ha : a ∈ earlier) : ∃ before between,
      earlier = before ++ a :: between ∧
        w.order d selections = before ++ a :: (between ++ x :: later) := by
    obtain ⟨before, between, rfl⟩ := List.append_of_mem ha
    exact ⟨before, between, rfl, by rw [horder, List.append_assoc, List.cons_append]⟩
  have hmem := (w.order_perm d selections).mem_iff.mpr hz
  rw [horder, List.mem_append, List.mem_cons] at hmem
  rw [List.length_append]
  rcases hmem with hz | rfl | hz
  · -- the caret of an earlier selection is no further than what is written for that
    obtain ⟨before, between, rfl, horder'⟩ := hsplit hz
    have hcaret := caretOffset_le h horder'
    have hfront := front_text_le h horder'
    have hpos := w.length_lead_pos x
    omega
  · -- its own caret starts out where that of `y` does, in front of what is written for `y`
    obtain ⟨before, between, rfl, horder'⟩ := hsplit hy
    have hlanding := landing_le_front h horder'
    rw [landing, hsame] at hlanding
    have hfront := front_text_le h horder'
    have hpos := w.length_lead_pos y
    have hle := w.length_lead_le y
    rw [caretOffset, landing]
    omega
  · have hlanding := front_text_le_landing h horder hz (hlater z hz)
    have hpos := w.length_lead_pos z
    have hle := w.length_lead_le x
    rw [caretOffset]
    omega

/-- The caret of a selection that starts in front of another one is looked for in front. -/
theorem caretOffset_lt_caretOffset (h : w.Fits d selections) (hx : x ∈ selections)
    (hy : y ∈ selections) (hlt : (w.range x).start < (w.range y).start) :
    w.caretOffset d selections x < w.caretOffset d selections y := by
  obtain ⟨earlier, later, horder⟩ :=
    List.append_of_mem ((w.order_perm d selections).mem_iff.mpr hx)
  have hmem := (w.order_perm d selections).mem_iff.mpr hy
  rw [horder, List.mem_append, List.mem_cons] at hmem
  rcases hmem with hmem | rfl | hmem
  · have hle : d.offsetAt (w.range y).start ≤ d.offsetAt (w.range x).start :=
      (splice_start_le horder).1 y hmem
    rw [Document.offsetAt_le_offsetAt (h.isValid y hy).1 (h.isValid x hx).1] at hle
    exact absurd hle (Position.not_le.mpr hlt)
  · exact absurd (Position.le_refl _) (Position.not_le.mpr hlt)
  · have hne : (w.range y).start ≠ (w.range x).start :=
      fun heq => Position.not_le.mpr hlt (Position.le_of_eq heq)
    have hcaret := caretOffset_le h horder
    have hlanding := front_text_le_landing h horder hmem hne
    have hpos := w.length_lead_pos y
    rw [caretOffset] at hcaret ⊢
    rw [caretOffset]
    omega

/-- Carets are looked for in the order of where the selections start, and of those that start at one
place in the order of how far the carets go into what is written. -/
theorem caretOffset_le_caretOffset_iff (h : w.Fits d selections) (hx : x ∈ selections)
    (hy : y ∈ selections) :
    w.caretOffset d selections x ≤ w.caretOffset d selections y ↔
      (w.range x).start < (w.range y).start ∨ (w.range x).start = (w.range y).start ∧
        (w.lead x).length ≤ (w.lead y).length := by
  by_cases hlt : (w.range x).start < (w.range y).start
  · exact iff_of_true (Nat.le_of_lt (caretOffset_lt_caretOffset h hx hy hlt)) (.inl hlt)
  by_cases hgt : (w.range y).start < (w.range x).start
  · refine iff_of_false (Nat.not_le.mpr (caretOffset_lt_caretOffset h hy hx hgt)) ?_
    rintro (hlt' | ⟨heq, -⟩)
    · exact hlt hlt'
    · exact Position.not_le.mpr hgt (Position.le_of_eq heq)
  · have heq : (w.range x).start = (w.range y).start :=
      Position.le_antisymm (Position.not_lt.mp hgt) (Position.not_lt.mp hlt)
    rw [or_iff_right hlt, and_iff_right heq, caretOffset, caretOffset, landing, landing, heq,
      Nat.add_le_add_iff_left]

/-- Carets are looked for inside the new text. -/
theorem caretOffset_le_length (h : w.Fits s.document s.selections)
    (hx : x ∈ s.selections) :
    w.caretOffset s.document s.selections x ≤ (s.write w).document.text.length := by
  obtain ⟨earlier, later, horder⟩ :=
    List.append_of_mem ((w.order_perm s.document s.selections).mem_iff.mpr hx)
  refine Nat.le_trans (caretOffset_le h horder) ?_
  rw [(writtenTo_write h).text_eq earlier x later horder, text]
  simp only [List.length_append]
  omega

/-- The carets are all in place just when no two ranges start at the same position. -/
theorem caretsInPlace_write_iff (h : w.Fits s.document s.selections) :
    w.CaretsInPlace s (s.write w) ↔
      s.selections.Pairwise fun a b => (w.range a).start ≠ (w.range b).start := by
  have hperm := w.order_perm s.document s.selections
  rw [← hperm.pairwise_iff fun hab => hab.symm]
  have htext {earlier later : List Selection} {x : Selection}
      (horder : w.order s.document s.selections = earlier ++ x :: later) :
      (s.write w).document.text = (w.front s.document earlier x ++ w.lead x) ++
        (w.rest x ++ w.behind s.document x later) := by
    rw [(writtenTo_write h).text_eq earlier x later horder, List.append_assoc]
  constructor
  · intro hplace
    by_contra hstarts
    -- the last of the selections that start where an earlier one does has no caret in place
    obtain ⟨earlier, x, later, horder, ⟨y, hy, hsame⟩, hlater⟩ :=
      exists_last_of_not_pairwise hstarts
    obtain ⟨z, hz, htake⟩ :=
      (caret_mem_write_iff (htext horder)).mp (hplace earlier x later horder)
    apply caretOffset_ne h horder hy hsame hlater hz
    rw [← htake, List.length_take_of_le (caretOffset_le_length h hz)]
  · intro hstarts earlier x later horder
    rw [caret_mem_write_iff (htext horder)]
    have hne : ∀ y ∈ earlier, (w.range y).start ≠ (w.range x).start := by
      rw [horder, List.pairwise_append] at hstarts
      exact fun y hy => hstarts.2.2 y hy x List.mem_cons_self
    refine ⟨x, (mem_of_order horder).1, ?_⟩
    rw [caretOffset, landing_eq_front h horder hne, ← List.length_append, htext horder,
      List.take_left]

end Writing

namespace Session

variable {s : Session}

/-- Wrapping writes its tags for every selection, and an element by itself is written at every active
end. The carets of wrapping are all in place, behind the `<` of their opening tags, or between the
tags where there is nothing to wrap, just when no two selections start at the same position. Those
of elements by themselves, behind the names, are in place just when no two selections are active at
the same position. -/
theorem carets_in_inserted_tags (asked : Option Text) (hsome : s.selections ≠ [])
    (hvalid : s.IsValid)
    (hapart : s.selections.Pairwise fun a b => a.range.IsApart b.range) :
    (∃ after, s.execute (.surroundWithTag asked) =
        .ok (.applied s.selections.length s.settings.autoRename, after) ∧
      (s.wrapping asked).WrittenTo s after ∧
      ((s.wrapping asked).CaretsInPlace s after ↔
        s.selections.Pairwise fun a b => a.range.start ≠ b.range.start)) ∧
    ∃ after, s.execute .insertSelfClosingTag =
        .ok (.applied s.selections.length s.settings.autoRename, after) ∧
      s.selfClosing.WrittenTo s after ∧
      (s.selfClosing.CaretsInPlace s after ↔
        s.selections.Pairwise fun a b => a.active ≠ b.active) := by
  have hwrapping : (s.wrapping asked).Fits s.document s.selections := fits_wrapping hvalid hapart
  have hselfClosing := fits_selfClosing hvalid
  have hstart {selection : Selection} (hselection : selection ∈ s.selections) :
      ((s.wrapping asked).range selection).start = selection.range.start := by
    obtain ⟨hanchor, hactive⟩ := hvalid selection hselection
    exact (Document.trimLineStart_le (Selection.isValid_range hanchor hactive).1).1
  refine ⟨⟨_, execute_surroundWithTag_eq hsome hvalid hapart, Writing.writtenTo_write hwrapping,
    (Writing.caretsInPlace_write_iff hwrapping).trans ?_⟩,
    _, execute_insertSelfClosingTag_eq hsome hvalid, Writing.writtenTo_write hselfClosing,
    Writing.caretsInPlace_write_iff hselfClosing⟩
  apply List.Pairwise.iff_of_mem
  intro a b ha hb
  rw [hstart ha, hstart hb]

/-- A selected character, one behind it that is selected backward, so that both selections are
active in between, and a caret behind both. -/
theorem carets_in_inserted_tags_touching :
    let s : Session := ⟨⟨['a', 'b', 'c'], .lf⟩,
      [⟨⟨0, 0⟩, ⟨0, 1⟩⟩, ⟨⟨0, 2⟩, ⟨0, 1⟩⟩, .caret ⟨0, 2⟩], .default, .other⟩
    s.selections ≠ [] ∧ s.IsValid ∧
      (s.selections.Pairwise fun a b => a.range.IsApart b.range) ∧
      (∃ after, s.execute (.surroundWithTag (some ['p'])) = .ok (.applied 3 false, after) ∧
        (s.wrapping (some ['p'])).CaretsInPlace s after) ∧
      ∃ after, s.execute .insertSelfClosingTag = .ok (.applied 3 false, after) ∧
        ¬s.selfClosing.CaretsInPlace s after := by
  intro s
  have hsome : s.selections ≠ [] := List.cons_ne_nil _ _
  have hvalid : s.IsValid := by decide
  have hapart : s.selections.Pairwise fun a b => a.range.IsApart b.range := by decide
  obtain ⟨⟨wrapped, hwrap, -, hwrapped⟩, inserted, hinsert, -, hinserted⟩ :=
    carets_in_inserted_tags (some ['p']) hsome hvalid hapart
  exact ⟨hsome, hvalid, hapart, ⟨wrapped, hwrap, hwrapped.mpr (by decide)⟩, inserted, hinsert,
    mt hinserted.mp (by decide)⟩

/-- A caret in front of a character that is selected backward: the second `<p>` and the second `div`
have no caret. -/
theorem caret_not_in_inserted_tag :
    let s : Session := ⟨⟨['a', 'b'], .lf⟩, [.caret ⟨0, 0⟩, ⟨⟨0, 1⟩, ⟨0, 0⟩⟩], .default, .other⟩
    s.selections ≠ [] ∧ s.selections.Nodup ∧ s.IsValid ∧
      (s.selections.Pairwise fun a b => a.range.IsApart b.range) ∧
      (∃ after, s.execute (.surroundWithTag (some ['p'])) = .ok (.applied 2 false, after) ∧
        after.document.text = ['<', 'p', '>', '<', '/', 'p', '>'] ++
          ['<', 'p', '>', 'a', '<', '/', 'p', '>', 'b'] ∧
        .caret ⟨0, 8⟩ ∉ after.selections) ∧
      ∃ after, s.execute .insertSelfClosingTag = .ok (.applied 2 false, after) ∧
        after.document.text = ['<', 'd', 'i', 'v', ' ', '/', '>'] ++
          ['<', 'd', 'i', 'v', ' ', '/', '>', 'a', 'b'] ∧
        .caret ⟨0, 11⟩ ∉ after.selections := by
  intro s
  let wrapped : Session := ⟨⟨['<', 'p', '>', '<', '/', 'p', '>', '<', 'p', '>', 'a', '<', '/', 'p',
    '>', 'b'], .lf⟩, [.caret ⟨0, 1⟩, .caret ⟨0, 3⟩], .default, .other⟩
  let inserted : Session := ⟨⟨['<', 'd', 'i', 'v', ' ', '/', '>', '<', 'd', 'i', 'v', ' ', '/', '>',
    'a', 'b'], .lf⟩, [.caret ⟨0, 4⟩], .default, .other⟩
  have hsome : s.selections ≠ [] := List.cons_ne_nil _ _
  have hwrap : s.execute (.surroundWithTag (some ['p'])) = .ok (.applied 2 false, wrapped) := by
    let edits : List (Edit × CaretTarget) :=
      [(⟨.empty ⟨0, 0⟩, Wrap.inline ['p'] []⟩, .place 0 3),
        (⟨⟨⟨0, 0⟩, ⟨0, 1⟩, by decide⟩, Wrap.inline ['p'] ['a']⟩, .place 0 1)]
    have hedits : s.selections.map (s.wrapEdit (some ['p'])) = edits := by decide
    have hresolve : (edits.foldl (fun plan e => plan.add e.1) EditPlan.empty).resolve s.document =
        .ok [⟨0, 0, Wrap.inline ['p'] []⟩, ⟨0, 1, Wrap.inline ['p'] ['a']⟩] := by cbv
    have hselections : Selection.normalize [.caret ⟨0, 3⟩, .caret ⟨0, 1⟩] = wrapped.selections :=
      Selection.normalize_of_perm (List.Perm.swap _ _ _) (by decide)
    rw [execute_of_ne_nil hsome, action, result_surroundWithTag, hedits,
      result_insertTags_of_resolve hresolve]
    exact congrArg (fun selections => Except.ok (_, { wrapped with selections })) hselections
  have hinsert : s.execute .insertSelfClosingTag = .ok (.applied 2 false, inserted) := by
    have hresolve : ((s.selections.map s.selfClosingEdit).foldl
        (fun plan e => plan.add e.1) EditPlan.empty).resolve s.document =
          .ok [⟨0, 0, Wrap.selfClosingTag ['d', 'i', 'v']⟩,
            ⟨0, 0, Wrap.selfClosingTag ['d', 'i', 'v']⟩] := by cbv
    have hselections : Selection.normalize [.caret ⟨0, 4⟩, .caret ⟨0, 4⟩] = inserted.selections :=
      Selection.normalize_of_perm (List.Perm.refl _) (by decide)
    rw [execute_of_ne_nil hsome, action, result_insertSelfClosingTag,
      result_insertTags_of_resolve hresolve]
    exact congrArg (fun selections => Except.ok (_, { inserted with selections })) hselections
  exact ⟨hsome, by decide, by decide, by decide,
    ⟨wrapped, hwrap, rfl, by decide⟩, inserted, hinsert, rfl, by decide⟩

end Session

end MarkupPairs
