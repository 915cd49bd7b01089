import MarkupPairs.Proofs.MergedSelections

/-!
# The first of normalized selections

Normalizing puts the selection first that starts first, with all that is merged into it. So any
other selection comes to be the first one only where it is merged with that one, or is the same
caret: there is no place in front of it, with yet another selection further ahead, that none of the
selections extends across.
-/

namespace MarkupPairs

namespace Selection

variable {selections rest later : List Selection} {first last s t t' u x : Selection} {p : Position}

/-- Whether normalizing turns one of the selections into `t`, which is the selection itself where it
is kept, or the one that it is merged into. -/
def Becomes (selections : List Selection) (s t : Selection) : Prop :=
  t ∈ normalize selections ∧ (s = t ∨ s ∉ normalize selections ∧ t.range.contains s.range)

instance (selections : List Selection) (s t : Selection) : Decidable (Becomes selections s t) :=
  inferInstanceAs (Decidable (_ ∧ _))

/-- Whether none of the selections extends across a place. -/
def IsGap (selections : List Selection) (p : Position) : Prop :=
  ∀ s ∈ selections, s.range.stop ≤ p ∨ p ≤ s.range.start

/-- Whether one selection is in front of another one with a place in between that none of the
selections extends across. -/
def IsAheadOf (selections : List Selection) (x s : Selection) : Prop :=
  x.range ≠ s.range ∧ ∃ p, x.range.stop ≤ p ∧ p ≤ s.range.start ∧ IsGap selections p

/-! ## Gaps -/

/-- Merging joins nothing across a gap. -/
theorem isGap_mergeFrom (hsorted : (last :: rest).Pairwise fun a b => a.range.start ≤ b.range.start)
    (h : IsGap (last :: rest) p) : IsGap (mergeFrom last rest) p := by
  fun_induction mergeFrom last rest with
  | case1 last => exact h
  | case2 last s rest hlt cover ih =>
      obtain ⟨hlast, hrest⟩ := List.pairwise_cons.mp hsorted
      obtain ⟨hs, hlater⟩ := List.forall_mem_cons.mp hlast
      have hstart : cover.start = last.range.start := Range.start_union hs
      obtain ⟨hgap, hgaps⟩ := List.forall_mem_cons.mp h
      obtain ⟨hsgap, hgaps⟩ := List.forall_mem_cons.mp hgaps
      apply ih (List.pairwise_cons.mpr ⟨by rwa [range_ends, hstart], hrest.of_cons⟩)
      refine List.forall_mem_cons.mpr ⟨?_, hgaps⟩
      rw [range_ends, hstart]
      rcases hgap with hstop | hbehind
      · -- `s` starts in front of the gap, so it stops there as well
        have hin : s.range.start < p := Position.lt_of_lt_of_le hlt hstop
        exact .inl (Position.max_le_iff.mpr
          ⟨hstop, hsgap.resolve_right (Position.not_le.mpr hin)⟩)
      · exact .inr hbehind
  | case3 last s rest hle heq ih =>
      have hsublist : (last :: rest).Sublist (last :: s :: rest) :=
        .cons_cons _ (List.sublist_cons_self _ _)
      exact ih (hsorted.sublist hsublist) fun y hy => h y (hsublist.subset hy)
  | case4 last s rest hle hne ih =>
      obtain ⟨hgap, hgaps⟩ := List.forall_mem_cons.mp h
      exact List.forall_mem_cons.mpr ⟨hgap, ih hsorted.of_cons hgaps⟩

theorem isGap_normalize_iff : IsGap (normalize selections) p ↔ IsGap selections p := by
  constructor
  · intro h s hs
    obtain ⟨t, ht, hcontains⟩ := exists_contains_normalize hs
    obtain ⟨hstart, hstop⟩ := Range.contains_iff.mp hcontains
    exact (h t ht).imp (Position.le_trans hstop) (Position.le_trans · hstart)
  · intro h
    have hsorted := pairwise_mergeSort selections
    have hgaps : IsGap (selections.mergeSort precedes) p :=
      fun s hs => h s (List.mem_mergeSort.mp hs)
    rw [normalize]
    cases hcases : selections.mergeSort precedes with
    | nil => exact fun s hs => absurd hs List.not_mem_nil
    | cons last rest => exact isGap_mergeFrom (hcases ▸ hsorted) (hcases ▸ hgaps)

/-- Of two normalized selections one stops before the other one starts. -/
theorem eq_or_stop_le (ht : t ∈ normalize selections) (hu : u ∈ normalize selections) :
    t = u ∨ t.range.stop ≤ u.range.start ∨ u.range.stop ≤ t.range.start := by
  have hordered := isOrdered_normalize selections
  obtain ⟨before, after, hsplit⟩ := List.append_of_mem ht
  rw [hsplit, IsOrdered, List.pairwise_append, List.pairwise_cons] at hordered
  rw [hsplit, List.mem_append, List.mem_cons] at hu
  obtain ⟨-, ⟨hbehind, -⟩, hfront⟩ := hordered
  rcases hu with hu | rfl | hu
  · exact .inr (.inr (hfront u hu t List.mem_cons_self).1)
  · exact .inl rfl
  · exact .inr (.inl (hbehind u hu).1)

/-- Behind each of the normalized selections there is a gap. -/
theorem isGap_stop (ht : t ∈ normalize selections) : IsGap selections t.range.stop := by
  rw [← isGap_normalize_iff]
  intro u hu
  rcases eq_or_stop_le hu ht with rfl | hstop | hbehind
  · exact .inl (Position.le_refl _)
  · exact .inl (Position.le_trans hstop t.range.start_le_stop)
  · exact .inr hbehind

/-- A caret in a gap is kept. -/
theorem mem_normalize_of_isGap (hs : s ∈ selections) (hstart : p ≤ s.range.start)
    (hstop : s.range.stop ≤ p) (h : IsGap selections p) : s ∈ normalize selections := by
  obtain ⟨before, after, rfl⟩ := List.append_of_mem hs
  apply mem_normalize_of_isClear
  intro x hx
  have hmem : x ∈ before ++ s :: after := by
    rw [List.mem_append, List.mem_cons]
    exact (List.mem_append.mp hx).imp_right .inr
  rw [Range.isClear_iff]
  rcases h x hmem with hfront | hbehind
  · exact .inr (Position.le_trans hfront hstart)
  · exact .inl (Position.le_trans hstop hbehind)

/-! ## What selections become -/

theorem exists_becomes (hs : s ∈ selections) : ∃ t, Becomes selections s t := by
  by_cases hkept : s ∈ normalize selections
  · exact ⟨s, hkept, .inl rfl⟩
  · obtain ⟨t, ht, hcontains⟩ := exists_contains_normalize hs
    exact ⟨t, ht, .inr ⟨hkept, hcontains⟩⟩

/-- A selection does not lie within two of the normalized ones unless it is kept. -/
theorem mem_normalize_of_contains (hs : s ∈ selections) (ht : t ∈ normalize selections)
    (hu : u.range.contains s.range) (htu : t.range.stop ≤ u.range.start)
    (hts : t.range.contains s.range) : s ∈ normalize selections := by
  rw [Range.contains_iff] at hu hts
  exact mem_normalize_of_isGap hs (Position.le_trans htu hu.1) hts.2 (isGap_stop ht)

theorem Becomes.eq (hs : s ∈ selections) (h : Becomes selections s t)
    (h' : Becomes selections s t') : t = t' := by
  obtain ⟨ht, hst⟩ := h
  obtain ⟨ht', hst'⟩ := h'
  by_cases hkept : s ∈ normalize selections
  · rw [← hst.resolve_right fun h => h.1 hkept, ← hst'.resolve_right fun h => h.1 hkept]
  · have hcontains : t.range.contains s.range :=
      (hst.resolve_left fun heq => hkept (heq ▸ ht)).2
    have hcontains' : t'.range.contains s.range :=
      (hst'.resolve_left fun heq => hkept (heq ▸ ht')).2
    rcases eq_or_stop_le ht ht' with heq | hle | hle
    · exact heq
    · exact absurd (mem_normalize_of_contains hs ht hcontains' hle hcontains) hkept
    · exact absurd (mem_normalize_of_contains hs ht' hcontains hle hcontains') hkept

/-- Each selection becomes exactly one of the normalized ones. -/
theorem existsUnique_becomes (hs : s ∈ selections) : ∃! t, Becomes selections s t := by
  obtain ⟨t, ht⟩ := exists_becomes hs
  exact ⟨t, ht, fun _ h => h.eq hs ht⟩

theorem Becomes.range_le (h : Becomes selections s t) :
    t.range.start ≤ s.range.start ∧ s.range.stop ≤ t.range.stop := by
  rcases h.2 with rfl | ⟨-, hcontains⟩
  · exact ⟨Position.le_refl _, Position.le_refl _⟩
  · exact Range.contains_iff.mp hcontains

/-! ## The first one -/

theorem exists_mergeFrom_eq_cons
    (hsorted : (last :: rest).Pairwise fun a b => a.range.start ≤ b.range.start) :
    ∃ first later, mergeFrom last rest = first :: later ∧
      first.range.start = last.range.start ∧ last.range.stop ≤ first.range.stop := by
  fun_induction mergeFrom last rest with
  | case1 last => exact ⟨last, [], rfl, rfl, Position.le_refl _⟩
  | case2 last s rest hlt cover ih =>
      obtain ⟨hlast, hrest⟩ := List.pairwise_cons.mp hsorted
      obtain ⟨hs, hlater⟩ := List.forall_mem_cons.mp hlast
      have hstart : cover.start = last.range.start := Range.start_union hs
      obtain ⟨first, later, heq, hfirst, hstop⟩ :=
        ih (List.pairwise_cons.mpr ⟨by rwa [range_ends, hstart], hrest.of_cons⟩)
      rw [range_ends] at hfirst hstop
      exact ⟨first, later, heq, hfirst.trans hstart,
        Position.le_trans (Position.le_max_left _ _) hstop⟩
  | case3 last s rest hle heq ih =>
      exact ih (hsorted.sublist (.cons_cons _ (List.sublist_cons_self _ _)))
  | case4 last s rest hle hne ih => exact ⟨last, _, rfl, rfl, Position.le_refl _⟩

/-- The first of the normalized selections starts with one of those that it is made of. -/
theorem exists_start_eq_first (h : normalize selections = first :: later) :
    ∃ x ∈ selections, x.range.start = first.range.start ∧ x.range.stop ≤ first.range.stop := by
  have hsorted := pairwise_mergeSort selections
  rw [normalize] at h
  cases hcases : selections.mergeSort precedes with
  | nil =>
      rw [hcases] at h
      cases h
  | cons last rest =>
      rw [hcases] at h hsorted
      obtain ⟨first', later', heq, hstart, hstop⟩ := exists_mergeFrom_eq_cons hsorted
      obtain ⟨rfl, -⟩ := List.cons.inj (heq.symm.trans h)
      have hlast : last ∈ selections :=
        List.mem_mergeSort.mp (hcases ▸ List.mem_cons_self (a := last))
      exact ⟨last, hlast, hstart.symm, hstop⟩

/-- The first of the normalized selections stops before the others start. -/
theorem eq_or_first_stop_le (h : normalize selections = first :: later)
    (ht : t ∈ normalize selections) : t = first ∨ first.range.stop ≤ t.range.start := by
  have hordered := isOrdered_normalize selections
  rw [h] at ht hordered
  exact (List.mem_cons.mp ht).imp_right fun ht => ((List.pairwise_cons.mp hordered).1 t ht).1

/-- No selection starts in front of the first of the normalized ones. -/
theorem first_start_le (h : normalize selections = first :: later) (hs : s ∈ selections) :
    first.range.start ≤ s.range.start := by
  obtain ⟨t, ht, hcontains⟩ := exists_contains_normalize hs
  obtain ⟨hstart, -⟩ := Range.contains_iff.mp hcontains
  rcases eq_or_first_stop_le h ht with rfl | hstop
  · exact hstart
  · exact Position.le_trans first.range.start_le_stop (Position.le_trans hstop hstart)

/-- The first of the normalized selections stops in front of every gap behind a selection. -/
theorem first_stop_le (h : normalize selections = first :: later) (hx : x ∈ selections)
    (hxp : x.range.stop ≤ p) (hgap : IsGap selections p) : first.range.stop ≤ p := by
  have hxstart := first_start_le h hx
  have hxstop := x.range.start_le_stop
  rcases isGap_normalize_iff.mpr hgap first (h ▸ List.mem_cons_self) with hstop | hbehind
  · exact hstop
  · -- then the selection is a caret in the gap, which is kept
    have hkept := mem_normalize_of_isGap hx (Position.le_trans hbehind hxstart) hxp hgap
    rcases eq_or_first_stop_le h hkept with rfl | hstop
    · exact hxp
    · exact Position.le_trans hstop (Position.le_trans hxstop hxp)

/-- A selection becomes the first of the normalized ones unless another one is ahead of it. -/
theorem becomes_first_iff (h : normalize selections = first :: later) (hs : s ∈ selections) :
    Becomes selections s first ↔ ¬∃ x ∈ selections, IsAheadOf selections x s := by
  have hmem : first ∈ normalize selections := h ▸ List.mem_cons_self
  have hsle := s.range.start_le_stop
  constructor
  · rintro hfirst ⟨x, hx, hne, p, hxp, hps, hgap⟩
    have hstop := first_stop_le h hx hxp hgap
    have hinside := hfirst.range_le
    -- so the selection is a caret in the gap, and the first one, with nothing ahead of it
    have hkept : s ∈ normalize selections :=
      mem_normalize_of_isGap hs hps (Position.le_trans hinside.2 hstop) hgap
    obtain rfl : s = first := hfirst.2.resolve_right fun h => h.1 hkept
    have hxstart := first_start_le h hx
    have hxstop := x.range.start_le_stop
    apply hne
    simp only [Range.ext_iff', Position.ext_iff', Position.le_def] at *
    omega
  · intro hnone
    by_contra hnot
    obtain ⟨t, ht⟩ := exists_becomes hs
    have hne : t ≠ first := fun heq => hnot (heq ▸ ht)
    have hbehind : first.range.stop ≤ t.range.start :=
      (eq_or_first_stop_le h ht.1).resolve_left hne
    have hps : first.range.stop ≤ s.range.start := Position.le_trans hbehind ht.range_le.1
    obtain ⟨x, hx, hxstart, hxstop⟩ := exists_start_eq_first h
    refine hnone ⟨x, hx, ?_, first.range.stop, hxstop, hps, isGap_stop hmem⟩
    intro heq
    have hsstop : s.range.stop ≤ first.range.stop := heq ▸ hxstop
    have hsstart : s.range.start = first.range.start := heq ▸ hxstart
    -- then the selection is a caret where the first one stops, which is the same caret
    have hkept : s ∈ normalize selections := mem_normalize_of_isGap hs hps hsstop (isGap_stop hmem)
    obtain rfl : s = t := ht.2.resolve_right fun h => h.1 hkept
    have hfle := first.range.start_le_stop
    have hrange : s.range = first.range := by
      simp only [Range.ext_iff', Position.ext_iff', Position.le_def] at *
      omega
    exact hne (eq_of_range_eq hrange (Range.isEmpty_of_stop_le (Position.le_trans hsstop hps)))

/-- Where no selection extends across the start of another one, that one becomes the first of the
normalized ones unless a different one stops in front of it. -/
theorem becomes_first_iff_of_isGap (h : normalize selections = first :: later) (hs : s ∈ selections)
    (hgap : IsGap selections s.range.start) :
    Becomes selections s first ↔ ∀ x ∈ selections, x.range.stop ≤ s.range.start → x = s := by
  rw [becomes_first_iff h hs]
  constructor
  · intro hnone x hx hstop
    by_contra hne
    refine hnone ⟨x, hx, ?_, s.range.start, hstop, Position.le_refl _, hgap⟩
    exact fun heq => hne (eq_of_range_eq heq (Range.isEmpty_of_stop_le (heq ▸ hstop)))
  · rintro hall ⟨x, hx, hne, p, hxp, hps, -⟩
    exact hne (congrArg range (hall x hx (Position.le_trans hxp hps)))

/-- Of carets the one that is in front of all the others becomes the first one. -/
theorem becomes_first_iff_of_isEmpty (h : normalize selections = first :: later)
    (hs : s ∈ selections) (hempty : ∀ x ∈ selections, x.isEmpty) :
    Becomes selections s first ↔ ∀ x ∈ selections, s.active ≤ x.active := by
  have hrange {x : Selection} (hx : x ∈ selections) : x.range = Range.empty x.active := by
    rw [eq_caret (hempty x hx), range_caret]
    rfl
  have hgap : IsGap selections s.range.start := by
    intro x hx
    rw [hrange hx, hrange hs]
    exact Position.le_total _ _
  rw [becomes_first_iff_of_isGap h hs hgap]
  refine forall₂_congr fun x hx => ?_
  rw [hrange hx, hrange hs]
  constructor
  · intro hsame
    rcases Position.le_total s.active x.active with hle | hle
    · exact hle
    · exact hsame hle ▸ Position.le_refl _
  · intro hle hxs
    rw [eq_caret (hempty x hx), eq_caret (hempty s hs)]
    exact congrArg caret (Position.le_antisymm hxs hle)

end Selection

end MarkupPairs
