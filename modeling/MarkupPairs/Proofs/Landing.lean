import MarkupPairs.Proofs.Splicing

/-!
# Where offsets land

An offset of a text lands behind as many characters as are made of what stands in front of it. So it
lands inside the new text, offsets keep their order, a character that is kept stands where its
offset lands, and an offset inside a replaced stretch lands where the replacement starts.

The inductions are on the splices. Those that are left come behind an offset `k` of the text, and
what is made of the text from there on begins at `k + shift`.
-/

namespace MarkupPairs

namespace Bias

variable {bias : Bias} {offset start : Nat}

theorem left_stopsAt_iff : left.stopsAt offset start ↔ offset ≤ start := decide_eq_true_iff

theorem right_stopsAt_iff : right.stopsAt offset start ↔ offset < start := decide_eq_true_iff

theorem le_of_stopsAt (h : bias.stopsAt offset start) : offset ≤ start := by
  cases bias with
  | left => exact left_stopsAt_iff.mp h
  | right => exact Nat.le_of_lt (right_stopsAt_iff.mp h)

theorem stopsAt_of_lt (h : offset < start) : bias.stopsAt offset start := by
  cases bias with
  | left => exact left_stopsAt_iff.mpr (Nat.le_of_lt h)
  | right => exact right_stopsAt_iff.mpr h

theorem le_of_not_stopsAt (h : ¬bias.stopsAt offset start) : start ≤ offset :=
  Nat.not_lt.mp fun hlt => h (stopsAt_of_lt hlt)

/-- An offset that stops at a splice does so from further ahead as well. -/
theorem stopsAt_of_stopsAt {offset' : Nat} (hle : offset ≤ offset')
    (h : bias.stopsAt offset' start) : bias.stopsAt offset start := by
  cases bias with
  | left => exact left_stopsAt_iff.mpr (Nat.le_trans hle (left_stopsAt_iff.mp h))
  | right => exact right_stopsAt_iff.mpr (Nat.lt_of_le_of_lt hle (right_stopsAt_iff.mp h))

end Bias

namespace Splice

variable {t : Text} {splices pre post rest : List Splice} {s : Splice}
  {k upto offset offset' : Nat} {shift : Int}

/-! ## Bounds and order -/

theorem landingFrom_of_stopsAt {bias : Bias} (h : bias.stopsAt offset s.start) :
    landingFrom bias offset shift (s :: rest) = offset + shift := by
  rw [landingFrom, if_pos h]

theorem landingFrom_of_lt_stop {bias : Bias} (h : ¬bias.stopsAt offset s.start)
    (hstop : offset < s.stop) :
    landingFrom bias offset shift (s :: rest) = s.start + shift := by
  rw [landingFrom, if_neg h, if_pos hstop]

theorem landingFrom_of_stop_le {bias : Bias} (h : ¬bias.stopsAt offset s.start)
    (hstop : s.stop ≤ offset) :
    landingFrom bias offset shift (s :: rest) =
      landingFrom bias offset (shift + s.delta) rest := by
  rw [landingFrom, if_neg h, if_neg (Nat.not_lt.mpr hstop)]

/-- An offset is before a splice, inside what the splice replaces, or behind it. -/
theorem landingFrom_cases (bias : Bias) (offset : Nat) (shift : Int) (s : Splice)
    (rest : List Splice) :
    offset ≤ s.start ∧ landingFrom bias offset shift (s :: rest) = offset + shift ∨
      s.start ≤ offset ∧ offset < s.stop ∧
        landingFrom bias offset shift (s :: rest) = s.start + shift ∨
      s.start ≤ offset ∧ s.stop ≤ offset ∧
        landingFrom bias offset shift (s :: rest) =
          landingFrom bias offset (shift + s.delta) rest := by
  by_cases hstops : bias.stopsAt offset s.start
  · exact .inl ⟨Bias.le_of_stopsAt hstops, landingFrom_of_stopsAt hstops⟩
  · have hstart := Bias.le_of_not_stopsAt hstops
    rcases Nat.lt_or_ge offset s.stop with hinside | hpassed
    · exact .inr (.inl ⟨hstart, hinside, landingFrom_of_lt_stop hstops hinside⟩)
    · exact .inr (.inr ⟨hstart, hpassed, landingFrom_of_stop_le hstops hpassed⟩)

/-- What is made of the text behind a splice begins where the replacement stops. -/
theorem stop_add_delta (s : Splice) (shift : Int) :
    s.stop + (shift + s.delta) = s.start + shift + s.text.length := by
  simp only [delta, insertedLength]
  omega

theorem le_landingFrom (bias : Bias) (shift : Int) (h : Apart upto k splices) (hk : k ≤ offset) :
    k + shift ≤ landingFrom bias offset shift splices := by
  induction splices generalizing k shift with
  | nil =>
      rw [landingFrom]
      omega
  | cons s rest ih =>
      obtain ⟨hs, hle, hrest⟩ := h
      rcases landingFrom_cases bias offset shift s rest with
        ⟨-, heq⟩ | ⟨-, -, heq⟩ | ⟨-, hpassed, heq⟩
      · omega
      · omega
      · have hlater := ih (shift + s.delta) hrest hpassed
        have hbegin := s.stop_add_delta shift
        omega

/-- An offset of the text does not land in front of the new one. -/
theorem Apart.landing_eq (h : Apart upto 0 splices) (offset : Nat) (bias : Bias) :
    (landing splices offset bias : Int) = landingFrom bias offset 0 splices := by
  have hle := le_landingFrom bias 0 h offset.zero_le
  rw [landing]
  omega

theorem landingFrom_le (bias : Bias) (shift : Int) (h : Apart t.length k splices)
    (hk : k ≤ offset) (hoffset : offset ≤ t.length) :
    landingFrom bias offset shift splices ≤ k + shift + (interleave t k splices).length := by
  induction splices generalizing k shift with
  | nil =>
      rw [landingFrom, interleave, List.length_drop]
      omega
  | cons s rest ih =>
      obtain ⟨hs, hle, hrest⟩ := h
      have hstop := hrest.le
      simp only [interleave, List.length_append, List.length_drop, List.length_take]
      rcases landingFrom_cases bias offset shift s rest with
        ⟨hbefore, heq⟩ | ⟨-, -, heq⟩ | ⟨-, hpassed, heq⟩
      · omega
      · omega
      · have hlater := ih (shift + s.delta) hrest hpassed
        have hbegin := s.stop_add_delta shift
        omega

/-- Of two offsets the one that stops wherever the other one does lands no later. -/
theorem landingFrom_le_landingFrom {bias bias' : Bias} (shift : Int) (h : Apart upto k splices)
    (hk : k ≤ offset) (hoffset : offset ≤ offset')
    (hstop : ∀ start, bias'.stopsAt offset' start → bias.stopsAt offset start) :
    landingFrom bias offset shift splices ≤ landingFrom bias' offset' shift splices := by
  induction splices generalizing k shift with
  | nil =>
      rw [landingFrom, landingFrom]
      omega
  | cons s rest ih =>
      obtain ⟨hs, hle, hrest⟩ := h
      by_cases hstops' : bias'.stopsAt offset' s.start
      · rw [landingFrom_of_stopsAt hstops', landingFrom_of_stopsAt (hstop _ hstops')]
        omega
      rcases Nat.lt_or_ge offset' s.stop with hinside' | hpassed'
      · rw [landingFrom_of_lt_stop hstops' hinside']
        rcases landingFrom_cases bias offset shift s rest with
          ⟨hbefore, heq⟩ | ⟨-, -, heq⟩ | ⟨-, hpassed, -⟩
        · omega
        · omega
        · omega
      · rw [landingFrom_of_stop_le hstops' hpassed']
        -- the later offset lands behind the replacement
        have hbehind := le_landingFrom bias' (shift + s.delta) hrest hpassed'
        have hbegin := s.stop_add_delta shift
        rcases landingFrom_cases bias offset shift s rest with
          ⟨hbefore, heq⟩ | ⟨-, -, heq⟩ | ⟨-, hpassed, heq⟩
        · omega
        · omega
        · rw [heq]
          exact ih _ hrest hpassed

theorem landing_nil (offset : Nat) (bias : Bias) : landing [] offset bias = offset := by
  rw [landing, landingFrom]
  omega

/-! ## Kept and replaced characters -/

/-- A stretch of a text is what stands in front of one of its characters, the character, and what
stands behind it. -/
theorem drop_take_eq_append {n : Nat} (hk : k ≤ offset) (hn : offset < n) (h : offset < t.length) :
    (t.take n).drop k = (t.take offset).drop k ++ t[offset] :: (t.take n).drop (offset + 1) := by
  have hlength : offset < (t.take n).length := by
    rw [List.length_take]
    omega
  have hparts := (List.take_append_drop offset (t.take n)).symm
  rw [List.take_take, Nat.min_eq_left (Nat.le_of_lt hn), List.drop_eq_getElem_cons hlength,
    List.getElem_take] at hparts
  rw [hparts, List.drop_append_of_le_length (by rw [List.length_take]; omega), ← hparts]

/-- A character that is kept stands between where its offset lands, past what is inserted in front
of it, and where the next offset lands. -/
theorem exists_interleave_eq_of_kept (shift : Int) (h : Apart t.length k splices) (hk : k ≤ offset)
    (hoffset : offset < t.length)
    (hkept : ∀ s ∈ splices, ¬(s.start ≤ offset ∧ offset < s.stop)) :
    ∃ front back, interleave t k splices = front ++ t[offset] :: back ∧
      landingFrom .right offset shift splices = k + shift + front.length ∧
      landingFrom .left (offset + 1) shift splices = k + shift + front.length + 1 := by
  induction splices generalizing k shift with
  | nil =>
      refine ⟨(t.take offset).drop k, t.drop (offset + 1), ?_, ?_, ?_⟩
      · simpa [interleave] using drop_take_eq_append hk hoffset hoffset
      · rw [landingFrom, List.length_drop, List.length_take]
        omega
      · rw [landingFrom, List.length_drop, List.length_take]
        omega
  | cons s rest ih =>
      obtain ⟨hs, hle, hrest⟩ := h
      obtain ⟨hhere, hkept⟩ := List.forall_mem_cons.mp hkept
      by_cases hbefore : offset < s.start
      · refine ⟨(t.take offset).drop k,
          (t.take s.start).drop (offset + 1) ++ (s.text ++ interleave t s.stop rest), ?_, ?_, ?_⟩
        · rw [interleave, drop_take_eq_append hk hbefore hoffset, List.append_assoc,
            List.cons_append]
        · rw [landingFrom_of_stopsAt (Bias.right_stopsAt_iff.mpr hbefore), List.length_drop,
            List.length_take]
          omega
        · rw [landingFrom_of_stopsAt (Bias.left_stopsAt_iff.mpr hbefore), List.length_drop,
            List.length_take]
          omega
      · have hpassed : s.stop ≤ offset := by omega
        obtain ⟨front, back, htext, hright, hleft⟩ := ih (shift + s.delta) hrest hpassed
          hkept
        have hbegin := s.stop_add_delta shift
        have hstop := hrest.le
        refine ⟨(t.take s.start).drop k ++ s.text ++ front, back, ?_, ?_, ?_⟩
        · rw [interleave, htext]
          simp only [List.append_assoc]
        · rw [landingFrom_of_stop_le (mt Bias.right_stopsAt_iff.mp hbefore) hpassed, hright]
          simp only [List.length_append, List.length_drop, List.length_take]
          omega
        · rw [landingFrom_of_stop_le (mt Bias.left_stopsAt_iff.mp (by omega)) (by omega), hleft]
          simp only [List.length_append, List.length_drop, List.length_take]
          omega

/-- An offset inside a replaced stretch lands behind what is made of the text in front of it. -/
theorem landingFrom_append (bias : Bias) (shift : Int) (h : Apart t.length k (pre ++ s :: post))
    (hstart : s.start < offset) (hstop : offset < s.stop) :
    landingFrom bias offset shift (pre ++ s :: post) =
      k + shift + (interleave (t.take s.start) k pre).length := by
  induction pre generalizing k shift with
  | nil =>
      obtain ⟨hs, hle, hrest⟩ := h
      have hupto := hrest.le
      have hnot : ¬bias.stopsAt offset s.start := fun hstops =>
        absurd (Bias.le_of_stopsAt hstops) (Nat.not_le.mpr hstart)
      rw [List.nil_append, landingFrom_of_lt_stop hnot hstop, interleave, List.length_drop,
        List.length_take]
      omega
  | cons a pre ih =>
      obtain ⟨hs, hle, hrest⟩ := h
      have hpassed : a.stop ≤ s.start := hrest.of_append.1.le
      have hupto := hrest.le
      have hnot : ¬bias.stopsAt offset a.start := fun hstops =>
        absurd (Bias.le_of_stopsAt hstops) (by omega)
      have hbegin := a.stop_add_delta shift
      rw [List.cons_append, landingFrom_of_stop_le hnot (by omega), ih _ hrest, interleave]
      simp only [List.length_append, List.length_drop, List.length_take]
      omega

end Splice

namespace Document

open Splice

variable {d : Document} {plan : EditPlan} {splices : List Splice}

theorem text_after_of_resolve (h : plan.resolve d = .ok splices) :
    (d.after plan).text = interleave d.text 0 splices := by
  rw [after_of_apply (apply_of_resolve h)]

theorem landing_eq_landingFrom (h : plan.resolve d = .ok splices) (offset : Nat) (bias : Bias) :
    (landing splices offset bias : Int) = landingFrom bias offset 0 splices :=
  (apart_of_resolve h).landing_eq offset bias

theorem landing_le_length (h : plan.resolve d = .ok splices) {offset : Nat}
    (hoffset : offset ≤ d.text.length) (bias : Bias) :
    landing splices offset bias ≤ (d.after plan).text.length := by
  have hle := landingFrom_le bias 0 (apart_of_resolve h) offset.zero_le hoffset
  rw [← landing_eq_landingFrom h, ← text_after_of_resolve h] at hle
  omega

theorem landing_le_landing (h : plan.resolve d = .ok splices) {offset offset' : Nat}
    {bias bias' : Bias} (hoffset : offset ≤ offset')
    (hstop : ∀ start, bias'.stopsAt offset' start → bias.stopsAt offset start) :
    landing splices offset bias ≤ landing splices offset' bias' := by
  have hle := landingFrom_le_landingFrom 0 (apart_of_resolve h) offset.zero_le hoffset hstop
  rw [← landing_eq_landingFrom h, ← landing_eq_landingFrom h] at hle
  omega

/-- Offsets land inside the new text, in their order, on the left no later than on the right. None
has to be cut off, as a count would be that is beyond the new text. Where a character is kept, it
stands where its offset lands on the right, and the next offset lands behind it on the left. An
offset inside a replaced stretch lands behind what is made of the text in front of that, where the
replacement starts. -/
theorem landing_after (h : plan.resolve d = .ok splices) :
    (∀ offset offset', offset ≤ offset' → offset' ≤ d.text.length →
      landing splices offset .left ≤ landing splices offset .right ∧
      landing splices offset .right ≤ (d.after plan).text.length ∧
      ∀ bias, landing splices offset bias ≤ landing splices offset' bias) ∧
    (∀ offset bias, offset ≤ d.text.length →
      (landing splices offset bias : Int) = landingFrom bias offset 0 splices ∧
      ((d.after plan).text.length ≤ maxCount →
        mapOffset splices offset bias = landing splices offset bias)) ∧
    (∀ (offset : Nat) (hoffset : offset < d.text.length),
      (∀ s ∈ splices, ¬(s.start ≤ offset ∧ offset < s.stop)) →
        (d.after plan).text[landing splices offset .right]? = some d.text[offset] ∧
        landing splices (offset + 1) .left = landing splices offset .right + 1) ∧
    ∀ offset bias pre s post, splices = pre ++ s :: post → s.start < offset → offset < s.stop →
      (d.after plan).text = interleave (d.text.take s.start) 0 pre ++
        (s.text ++ interleave d.text s.stop post) ∧
      landing splices offset bias = (interleave (d.text.take s.start) 0 pre).length := by
  have hapart := apart_of_resolve h
  refine ⟨?_, ?_, ?_, ?_⟩
  · intro offset offset' hle hoffset'
    refine ⟨?_, landing_le_length h (by omega) .right, ?_⟩
    · apply landing_le_landing h (Nat.le_refl _)
      exact fun start hstops => Bias.left_stopsAt_iff.mpr (Bias.le_of_stopsAt hstops)
    · intro bias
      exact landing_le_landing h hle fun start hstops => Bias.stopsAt_of_stopsAt hle hstops
  · intro offset bias hoffset
    refine ⟨landing_eq_landingFrom h offset bias, ?_⟩
    intro hcount
    exact mapOffset_eq_landing (Nat.le_trans (landing_le_length h hoffset bias) hcount)
  · intro offset hoffset hkept
    obtain ⟨front, back, htext, hright, hleft⟩ :=
      exists_interleave_eq_of_kept 0 hapart offset.zero_le hoffset hkept
    rw [← landing_eq_landingFrom h] at hright hleft
    have hfront : landing splices offset .right = front.length := by omega
    refine ⟨?_, by omega⟩
    rw [text_after_of_resolve h, htext, hfront, List.getElem?_append_right (Nat.le_refl _),
      Nat.sub_self, List.getElem?_cons_zero]
  · rintro offset bias pre s post rfl hstart hstop
    have hlanding := landingFrom_append bias 0 hapart hstart hstop
    rw [← landing_eq_landingFrom h] at hlanding
    exact ⟨(text_after_of_resolve h).trans (interleave_append hapart), by omega⟩

/-- A stretch replaced by a longer text, with a text inserted in front of it. -/
theorem landing_after_replacement :
    let d : Document := ⟨['a', 'b', 'c', 'd'], .lf⟩
    let plan : EditPlan := ⟨[⟨.empty ⟨0, 1⟩, ['x']⟩, ⟨⟨⟨0, 1⟩, ⟨0, 3⟩, by decide⟩, ['y', 'z', 'z']⟩],
      by decide⟩
    let splices : List Splice := [⟨1, 1, ['x']⟩, ⟨1, 3, ['y', 'z', 'z']⟩]
    plan.resolve d = .ok splices ∧
      landing splices 2 .left = (interleave ['a'] 0 [⟨1, 1, ['x']⟩]).length ∧
      (d.after plan).text[landing splices 3 .right]? = some 'd' ∧
      landing splices 1 .left ≤ landing splices 1 .right := by
  intro d plan splices
  have hresolve : plan.resolve d = .ok splices := by cbv
  obtain ⟨horder, -, hkept, hinside⟩ := landing_after hresolve
  refine ⟨hresolve, ?_, ?_, ?_⟩
  · exact (hinside 2 .left [⟨1, 1, ['x']⟩] ⟨1, 3, ['y', 'z', 'z']⟩ [] rfl (by decide)
      (by decide)).2
  · exact (hkept 3 (by decide) (by decide)).1
  · exact (horder 1 1 (by decide) (by decide)).1

end Document

end MarkupPairs
