import Mathlib.Data.List.Basic
import MarkupPairs.Proofs.DeletionPlan
import MarkupPairs.Proofs.Lines

/-!
# Deletions on one line

What the ranges on a line cover, and what the line breaks of lines that go altogether cover. A run
of whole lines takes the line feed after it; only the run at the end of the text takes the one
before it, which leaves no line feed behind the last line that stays.
-/

namespace MarkupPairs

/-- Whether a line lies between the first and the last line of a range. -/
def Range.Encloses (r : Range) (n : Nat) : Prop := r.start.line < n ∧ n < r.stop.line

/-- Whether a range that is not empty starts or stops on a line. -/
def Range.Bounds (r : Range) (n : Nat) : Prop :=
  r.start ≠ r.stop ∧ (r.start.line = n ∨ r.stop.line = n)

instance (r : Range) (n : Nat) : Decidable (r.Encloses n) := inferInstanceAs (Decidable (_ ∧ _))

instance (r : Range) (n : Nat) : Decidable (r.Bounds n) := inferInstanceAs (Decidable (_ ∧ _))

namespace LineDeletion

/-! ## Numbers in ascending order -/

theorem eraseRepsBy_loop (r : Nat → Nat → Bool) (n : Nat) (ns acc : List Nat) :
    List.eraseRepsBy.loop r n ns acc = acc.reverse ++ List.eraseRepsBy.loop r n ns [] := by
  induction ns generalizing n acc with
  | nil => simp [List.eraseRepsBy.loop]
  | cons m ns ih =>
      simp only [List.eraseRepsBy.loop]
      split
      · exact ih n acc
      · rw [ih m (n :: acc), ih m [n]]
        simp

theorem eraseReps_cons_cons (n m : Nat) (ns : List Nat) :
    (n :: m :: ns).eraseReps =
      if n = m then (n :: ns).eraseReps else n :: (m :: ns).eraseReps := by
  simp only [List.eraseReps, List.eraseRepsBy, List.eraseRepsBy.loop]
  split
  next heq => rw [if_pos (by simpa using heq)]
  next hne => rw [if_neg (by simpa using hne), eraseRepsBy_loop]; rfl

theorem mem_eraseReps {k : Nat} : ∀ {ns : List Nat}, k ∈ ns.eraseReps ↔ k ∈ ns
  | [] => Iff.rfl
  | [_] => Iff.rfl
  | n :: m :: ns => by
      rw [eraseReps_cons_cons]
      split
      next heq => rw [mem_eraseReps, heq, List.mem_cons, List.mem_cons, List.mem_cons, or_self_left]
      next => rw [List.mem_cons, mem_eraseReps, ← List.mem_cons]

theorem pairwise_eraseReps : ∀ {ns : List Nat}, ns.Pairwise (· ≤ ·) →
    ns.eraseReps.Pairwise (· < ·)
  | [], _ => .nil
  | [_], _ => List.pairwise_singleton _ _
  | n :: m :: ns, h => by
      obtain ⟨hn, hrest⟩ := List.pairwise_cons.mp h
      rw [eraseReps_cons_cons]
      split
      next heq =>
        have hsorted : (n :: ns).Pairwise (· ≤ ·) := heq ▸ hrest
        exact pairwise_eraseReps hsorted
      next hne =>
        refine List.pairwise_cons.mpr ⟨?_, pairwise_eraseReps hrest⟩
        intro k hk
        have hnm : n ≤ m := hn m List.mem_cons_self
        have hmk : m ≤ k := by
          rcases List.mem_cons.mp (mem_eraseReps.mp hk) with rfl | hk
          · exact Nat.le_refl k
          · exact (List.pairwise_cons.mp hrest).1 k hk
        omega

theorem mem_ascending {k : Nat} {ns : List Nat} : k ∈ ascending ns ↔ k ∈ ns := by
  rw [ascending, mem_eraseReps, (List.mergeSort_perm ns _).mem_iff]

theorem pairwise_ascending (ns : List Nat) : (ascending ns).Pairwise (· < ·) := by
  apply pairwise_eraseReps
  have hsorted : (ns.mergeSort (· ≤ ·)).Pairwise fun a b => decide (a ≤ b) := by
    apply List.pairwise_mergeSort
    · intro a b c hab hbc
      simp only [decide_eq_true_eq] at *
      exact Nat.le_trans hab hbc
    · intro a b
      simpa using Nat.le_total a b
  exact hsorted.imp fun h => of_decide_eq_true h

/-! ## Runs of consecutive numbers -/

theorem exists_runs_cons (n : Nat) (rest : List Nat) :
    ∃ last later, runs (n :: rest) = (n, last) :: later := by
  rw [runs]
  split
  · split
    · exact ⟨_, _, rfl⟩
    · exact ⟨_, _, rfl⟩
  · exact ⟨_, _, rfl⟩

theorem first_le_last {ns : List Nat} : ∀ run ∈ runs ns, run.1 ≤ run.2 := by
  induction ns with
  | nil => simp [runs]
  | cons n rest ih =>
      rw [runs]
      split
      next first last later hruns =>
        rw [hruns] at ih
        obtain ⟨hle, hlater⟩ := List.forall_mem_cons.mp ih
        split
        next hnext => exact List.forall_mem_cons.mpr ⟨by simp only at hle ⊢; omega, hlater⟩
        next => exact List.forall_mem_cons.mpr ⟨Nat.le_refl n, ih⟩
      next => simp

/-- The runs of a list hold the numbers of the list and no others. -/
theorem exists_run_iff {k : Nat} {ns : List Nat} :
    (∃ run ∈ runs ns, run.1 ≤ k ∧ k ≤ run.2) ↔ k ∈ ns := by
  induction ns with
  | nil => simp [runs]
  | cons n rest ih =>
      rw [List.mem_cons, ← ih, runs]
      -- the number opens a run by itself or joins the first run of the rest
      split
      next first last later hruns =>
        have hle : first ≤ last := first_le_last _ (hruns ▸ List.mem_cons_self)
        split
        next hnext =>
          simp only [hruns, List.exists_mem_cons_iff]
          rw [← or_assoc]
          refine or_congr_left ?_
          omega
        next =>
          simp only [hruns, List.exists_mem_cons_iff]
          refine or_congr_left ?_
          omega
      next hruns =>
        simp only [hruns, List.exists_mem_cons_iff]
        simp
        omega

/-- A run goes on as long as it can. -/
theorem succ_last_not_mem {ns : List Nat} (h : ns.Pairwise (· < ·)) :
    ∀ run ∈ runs ns, run.2 + 1 ∉ ns := by
  induction ns with
  | nil => simp [runs]
  | cons n rest ih =>
      obtain ⟨hn, hrest⟩ := List.pairwise_cons.mp h
      have hlast : ∀ run ∈ runs rest, run.2 + 1 ∉ n :: rest := by
        intro run hrun
        have hmem : run.2 ∈ rest := exists_run_iff.mp ⟨run, hrun, first_le_last run hrun, le_refl _⟩
        have hlt := hn _ hmem
        rw [List.mem_cons, not_or]
        exact ⟨by omega, ih hrest run hrun⟩
      cases rest with
      | nil => simp [runs]
      | cons m rest =>
          obtain ⟨last, later, hruns⟩ := exists_runs_cons m rest
          have hnm : n < m := hn m List.mem_cons_self
          rw [hruns] at hlast
          rw [runs, hruns]
          obtain ⟨hfirst, hlater⟩ := List.forall_mem_cons.mp hlast
          simp only
          split
          next => exact List.forall_mem_cons.mpr ⟨hfirst, hlater⟩
          next hgap =>
            refine List.forall_mem_cons.mpr ⟨?_, hlast⟩
            intro hmem
            -- the numbers after `m` are greater still
            rcases List.mem_cons.mp hmem with heq | hmem
            · omega
            rcases List.mem_cons.mp hmem with heq | hmem
            · exact hgap heq.symm
            · have hlt := (List.pairwise_cons.mp hrest).1 _ hmem
              omega

/-! ## What goes with whole lines -/

variable {d : Document} {first last n : Nat}

/-- The stretch of whole lines at the end of the text starts at the end of the line before. -/
theorem lineStop_le_lineStop (d : Document) (h : first ≤ last) :
    d.lineStop (first - 1) ≤ d.lineStop last := by
  rcases Nat.lt_or_ge (first - 1) last with hlt | hge
  · exact .inl hlt
  · obtain rfl : first - 1 = last := by omega
    exact Position.le_refl _

theorem runRange_ends (hle : first ≤ last) :
    (runRange d first last).start =
        (if last + 1 < d.lineCount ∨ first = 0 then ⟨first, 0⟩ else d.lineStop (first - 1)) ∧
      (runRange d first last).stop =
        if last + 1 < d.lineCount then ⟨last + 1, 0⟩ else d.lineStop last := by
  unfold runRange
  split
  next hnext =>
    rw [Range.between_of_le (.inl (Nat.lt_succ_of_le hle)), if_pos (.inl hnext)]
    exact ⟨rfl, rfl⟩
  next hnext =>
    split
    next hpos =>
      rw [Range.between_of_le (lineStop_le_lineStop d hle), if_neg (by omega)]
      exact ⟨rfl, rfl⟩
    next hzero =>
      obtain rfl : first = 0 := by omega
      have hle : (⟨0, 0⟩ : Position) ≤ d.lineStop last := by
        simp only [Position.le_def, Document.lineStop]
        omega
      rw [Range.between_of_le hle, if_pos (.inr rfl)]
      exact ⟨rfl, rfl⟩

theorem isValid_runRange (hle : first ≤ last) (hlast : last < d.lineCount) :
    d.isValid (runRange d first last).start ∧ d.isValid (runRange d first last).stop := by
  obtain ⟨hstart, hstop⟩ := runRange_ends (d := d) hle
  rw [hstart, hstop]
  constructor
  · split
    · exact Document.isValid_lineStart (Nat.lt_of_le_of_lt hle hlast)
    · exact Document.isValid_lineStop (by omega)
  · split
    next hnext => exact Document.isValid_lineStart hnext
    · exact Document.isValid_lineStop hlast

/-- The characters that go are those of the lines. -/
theorem covers_runRange_character {i : Nat} (hle : first ≤ last) (hi : i < d.lineLength n)
    (hn : n < d.lineCount) :
    (runRange d first last).covers ⟨n, i⟩ ↔ first ≤ n ∧ n ≤ last := by
  obtain ⟨hstart, hstop⟩ := runRange_ends (d := d) hle
  rw [Range.covers_iff, hstart, hstop]
  have hprev : n = first - 1 → d.lineLength n = d.lineLength (first - 1) := fun h => h ▸ rfl
  have hsame : n = last → d.lineLength n = d.lineLength last := fun h => h ▸ rfl
  refine and_congr ?_ ?_
  · split
    · simp only [Position.le_def]
      omega
    · simp only [Position.le_def, Document.lineStop]
      omega
  · split
    · simp only [Position.lt_def]
      omega
    · simp only [Position.lt_def, Document.lineStop]
      omega

/-- The line feeds that go are those behind the lines, or, at the end of the text, those before
them. -/
theorem covers_runRange_lineFeed (hle : first ≤ last) (hlast : last < d.lineCount)
    (hn : n + 1 < d.lineCount) :
    (runRange d first last).covers (d.lineStop n) ↔
      first ≤ n ∧ n ≤ last ∨ last + 1 = d.lineCount ∧ first ≤ n + 1 ∧ n + 1 ≤ last := by
  obtain ⟨hstart, hstop⟩ := runRange_ends (d := d) hle
  rw [Range.covers_iff, hstart, hstop]
  -- ends of one line compare by its length, which omega does not know to be one number
  have hprev : n = first - 1 → d.lineLength n = d.lineLength (first - 1) := fun h => h ▸ rfl
  have hsame : n = last → d.lineLength n = d.lineLength last := fun h => h ▸ rfl
  by_cases hnext : last + 1 < d.lineCount
  · rw [if_pos (.inl hnext), if_pos hnext]
    simp only [Position.le_def, Position.lt_def, Document.lineStop]
    omega
  · rw [if_neg hnext]
    split
    · simp only [Position.le_def, Position.lt_def, Document.lineStop]
      omega
    · simp only [Position.le_def, Position.lt_def, Document.lineStop]
      omega

/-! ## The ranges on a line -/

theorem mem_linesOf {r : Range} : n ∈ linesOf r ↔ r.Encloses n ∨ r.Bounds n := by
  have hle := r.start_le_stop
  rw [linesOf, Range.Encloses, Range.Bounds]
  by_cases hempty : r.start = r.stop
  · have hline := congrArg Position.line hempty
    simp [Range.isEmpty, hempty]
    omega
  · simp only [Position.le_def] at hle
    simp [Range.isEmpty, hempty, List.mem_range'_1]
    omega

/-- The places on a line, its end included. -/
def OnLine (d : Document) (n : Nat) (p : Position) : Prop :=
  p.line = n ∧ p.character ≤ d.lineLength n

theorem OnLine.isValid {p : Position} (h : OnLine d n p) (hn : n < d.lineCount) :
    d.isValid p := by
  obtain ⟨rfl, hle⟩ := h
  exact Document.isValid_iff.mpr ⟨hn, hle⟩

theorem covers_eq_false {r : Range} {i : Nat} (h : n < r.start.line ∨ r.stop.line < n) :
    r.covers ⟨n, i⟩ = false := by
  rcases h with hstart | hstop
  · exact Range.covers_of_lt_start (.inl hstart)
  · exact Range.covers_of_stop_le (.inl hstop)

/-- What a range takes from a line that it does not take altogether. -/
theorem Entry.covers_delete {r : Range} {i : Nat} (e : Entry) (hvalid : d.isValid r.start)
    (hinside : ¬r.Encloses n) (hi : i < d.lineLength n) :
    (e.delete d n r).ranges.covers ⟨n, i⟩ = (r.covers ⟨n, i⟩ || e.ranges.covers ⟨n, i⟩) := by
  have hle := r.start_le_stop
  simp only [Position.le_def] at hle
  simp only [Range.Encloses] at hinside
  unfold Entry.delete
  split
  next hempty => rw [Range.covers_of_isEmpty hempty, Bool.false_or]
  next hsome =>
    split
    next hsingle =>
      have hline : r.start.line = r.stop.line := by simpa [Range.isSingleLine] using hsingle
      split
      next => exact RangeSet.covers_insert e.ranges r _
      next hother => rw [covers_eq_false (by omega), Bool.false_or]
    next hsingle =>
      have hline : r.start.line ≠ r.stop.line := by simpa [Range.isSingleLine] using hsingle
      split
      next hfirst =>
        have hstop : r.start ≤ d.lineStop n :=
          .inr ⟨hfirst, hfirst ▸ (Document.isValid_iff.mp hvalid).2⟩
        refine (RangeSet.covers_insert e.ranges _ _).trans (congrArg (· || _) ?_)
        rw [Range.between_of_le hstop, Bool.eq_iff_iff, Range.covers_iff, Range.covers_iff]
        apply and_congr_right
        intro _
        simp only [Position.lt_def, Document.lineStop, true_and]
        omega
      next hfirst =>
        split
        next hlast =>
          have hzero : (⟨n, 0⟩ : Position) ≤ r.stop := .inr ⟨hlast.symm, Nat.zero_le _⟩
          refine (RangeSet.covers_insert e.ranges _ _).trans (congrArg (· || _) ?_)
          rw [Range.between_of_le hzero, Bool.eq_iff_iff, Range.covers_iff, Range.covers_iff]
          apply and_congr_left
          intro _
          simp only [Position.le_def, true_and]
          omega
        next hlast => rw [covers_eq_false (by omega), Bool.false_or]

/-- A line inside a range goes altogether, and nothing else makes it go at once. -/
theorem Entry.wholeLine_delete (e : Entry) (r : Range) :
    (e.delete d n r).wholeLine = (decide (r.Encloses n) || e.wholeLine) := by
  have houtside (h : ¬r.Encloses n) : (decide (r.Encloses n) || e.wholeLine) = e.wholeLine := by
    rw [decide_eq_false h, Bool.false_or]
  unfold Entry.delete
  split
  next hempty =>
    have heq : r.start = r.stop := Range.isEmpty_iff.mp hempty
    exact (houtside fun h => by simp only [Range.Encloses, heq] at h; omega).symm
  next =>
    split
    next hsingle =>
      have hline : r.start.line = r.stop.line := by simpa [Range.isSingleLine] using hsingle
      have hinside : ¬r.Encloses n := fun h => by simp only [Range.Encloses, hline] at h; omega
      split
      · exact (houtside hinside).symm
      · exact (houtside hinside).symm
    next =>
      split
      next hfirst => exact (houtside fun h => Nat.ne_of_lt h.1 hfirst).symm
      next =>
        split
        next hlast => exact (houtside fun h => Nat.ne_of_gt h.2 hlast).symm
        next =>
          split
          next hinside =>
            rw [decide_eq_true (p := r.Encloses n) hinside, Bool.true_or]
            rfl
          next hinside => exact (houtside hinside).symm

/-- What is planned for a line lies on the line. -/
theorem Entry.allEnds_delete {r : Range} {e : Entry}
    (hvalid : d.isValid r.start ∧ d.isValid r.stop)
    (he : RangeSet.AllEnds (OnLine d n) e.ranges.ranges) :
    RangeSet.AllEnds (OnLine d n) (e.delete d n r).ranges.ranges := by
  have hstart := (Document.isValid_iff.mp hvalid.1).2
  have hstop := (Document.isValid_iff.mp hvalid.2).2
  unfold Entry.delete
  split
  · exact he
  · split
    next hsingle =>
      have hline : r.start.line = r.stop.line := by simpa [Range.isSingleLine] using hsingle
      split
      next hn =>
        have hn' : r.stop.line = n := hline.symm.trans hn
        exact RangeSet.allEnds_insert ⟨⟨hn, hn ▸ hstart⟩, ⟨hn', hn' ▸ hstop⟩⟩ he
      · exact he
    next =>
      split
      next hfirst =>
        have hon : OnLine d n r.start := ⟨hfirst, hfirst ▸ hstart⟩
        have hle : r.start ≤ d.lineStop n := .inr hon
        rw [Range.between_of_le hle]
        exact RangeSet.allEnds_insert ⟨hon, rfl, Nat.le_refl _⟩ he
      next =>
        split
        next hlast =>
          have hon : OnLine d n r.stop := ⟨hlast, hlast ▸ hstop⟩
          have hle : (⟨n, 0⟩ : Position) ≤ r.stop := .inr ⟨hlast.symm, Nat.zero_le _⟩
          rw [Range.between_of_le hle]
          exact RangeSet.allEnds_insert ⟨⟨rfl, Nat.zero_le _⟩, hon⟩ he
        next =>
          split
          · simp [Entry.whole, RangeSet.empty, RangeSet.AllEnds]
          · exact he

/-! ## All ranges together -/

theorem wholeLine_foldl (ranges : List Range) (e : Entry) :
    (ranges.foldl (Entry.delete d n) e).wholeLine =
      (ranges.any (·.Encloses n) || e.wholeLine) := by
  induction ranges generalizing e with
  | nil => rfl
  | cons r ranges ih =>
      rw [List.foldl_cons, ih, Entry.wholeLine_delete, List.any_cons, Bool.or_left_comm,
        Bool.or_assoc]

theorem covers_foldl {ranges : List Range} {i : Nat} (e : Entry)
    (hvalid : RangeSet.AllEnds (d.isValid ·) ranges) (hinside : ∀ r ∈ ranges, ¬r.Encloses n)
    (hi : i < d.lineLength n) :
    (ranges.foldl (Entry.delete d n) e).ranges.covers ⟨n, i⟩ =
      (ranges.any (·.covers ⟨n, i⟩) || e.ranges.covers ⟨n, i⟩) := by
  induction ranges generalizing e with
  | nil => rfl
  | cons r ranges ih =>
      obtain ⟨hr, hrest⟩ := RangeSet.allEnds_cons.mp hvalid
      obtain ⟨houtside, hothers⟩ := List.forall_mem_cons.mp hinside
      rw [List.foldl_cons, ih _ hrest hothers, Entry.covers_delete e hr.1 houtside hi,
        List.any_cons, Bool.or_left_comm, Bool.or_assoc]

theorem allEnds_foldl {ranges : List Range} {e : Entry}
    (hvalid : RangeSet.AllEnds (d.isValid ·) ranges)
    (he : RangeSet.AllEnds (OnLine d n) e.ranges.ranges) :
    RangeSet.AllEnds (OnLine d n) (ranges.foldl (Entry.delete d n) e).ranges.ranges := by
  induction ranges generalizing e with
  | nil => exact he
  | cons r ranges ih =>
      obtain ⟨hr, hrest⟩ := RangeSet.allEnds_cons.mp hvalid
      exact ih hrest (Entry.allEnds_delete hr he)

/-- A range on a line cuts a part out of the text of the line. -/
theorem exists_cutsOut_line {r : Range} (hstart : OnLine d n r.start) (hstop : OnLine d n r.stop) :
    ∃ pre mid, r.CutsOut ⟨n, 0⟩ (d.line n) pre mid ∧
      (⟨r.start.character, max r.start.character r.stop.character, []⟩ : Splice) =
        ⟨pre.length, (pre ++ mid).length, []⟩ := by
  have hflat (k : Nat) : (⟨n, 0⟩ : Position).afterText ((d.line n).take k) =
      ⟨n, min k (d.lineLength n)⟩ := by
    have hchars : ∀ c ∈ (d.line n).take k, c ≠ '\n' := fun c hc heq =>
      d.not_mem_line n (heq ▸ List.mem_of_mem_take hc)
    rw [Position.afterText_of_flat hchars, List.length_take, Position.right, Nat.zero_add]
    rfl
  have hle : r.start.character ≤ r.stop.character := by
    have hle := r.start_le_stop
    simp only [Position.le_def, hstart.1, hstop.1] at hle
    omega
  have happend : (d.line n).take r.start.character ++
      ((d.line n).take r.stop.character).drop r.start.character =
        (d.line n).take r.stop.character := by
    have htake := List.take_append_drop r.start.character ((d.line n).take r.stop.character)
    rwa [List.take_take, Nat.min_eq_left hle] at htake
  refine ⟨(d.line n).take r.start.character,
    ((d.line n).take r.stop.character).drop r.start.character, ⟨?_, ?_, ?_⟩, ?_⟩
  · rw [happend]
    exact List.take_prefix _ _
  · rw [hflat, Nat.min_eq_left hstart.2, ← hstart.1]
  · rw [happend, hflat, Nat.min_eq_left hstop.2, ← hstop.1]
  · rw [happend, List.length_take_of_le hstart.2, List.length_take_of_le hstop.2,
      Nat.max_eq_right hle]

/-- What is left of a line are the characters that its ranges do not cover. -/
theorem deleteRanges_eq {s : RangeSet} (h : RangeSet.AllEnds (OnLine d n) s.ranges) :
    deleteRanges (d.line n) s.ranges = Cell.keptText s.ranges (d.cellsOfLine n) := by
  rw [Document.cellsOfLine, ← Splice.applyAll_eq_keptText
    (fun r hr => exists_cutsOut_line (h r hr).1 (h r hr).2) s.apart, deleteRanges,
    Splice.applyAll, List.foldr_map]
  simp only [Splice.apply, List.append_nil]

end LineDeletion

end MarkupPairs
