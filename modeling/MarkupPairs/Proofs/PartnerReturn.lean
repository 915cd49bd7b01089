import MarkupPairs.Proofs.Segments
import MarkupPairs.Proofs.TagsWithin

/-!
# From an opening tag to its partner and back

The search forward stops at the first closing tag that nothing between takes, as it counts. The
search backward from there comes back to the opening tag if what stands between nests as it counts,
and if it reads the opening tag itself as one. It finds another tag, or none, in all other cases.
-/

namespace MarkupPairs

/-! ## What the search forward has passed -/

section Forward

variable {wanted : Text} {depth : Nat} {phase : TagPhase} {ink : Option Char} {p : Position}
  {s t : Text} {u : Tag}

/-- Plain text ends no tag. -/
theorem exists_seekClosing_plain {rest : List Cell} (hs : s.IsPlain) :
    ∃ phase' ink', seekClosing wanted depth phase ink (Cell.layOut p s ++ rest) =
      seekClosing wanted depth phase' ink' rest := by
  induction s generalizing p phase ink with
  | nil => exact ⟨phase, ink, rfl⟩
  | cons c s ih =>
      obtain ⟨⟨hopen, hclose⟩, hs⟩ := List.forall_mem_cons.mp hs
      rw [Cell.layOut_cons, List.cons_append]
      cases hextend : phase.extend? c with
      | some head =>
          rw [seekClosing_read hextend]
          exact ih hs
      | none =>
          rw [seekClosing_other hextend hopen hclose]
          exact ih hs

/-- A segment without its `>` does nothing: the next `<` starts anew. -/
theorem seekClosing_unclosed (hs : s.IsPlain) (ht : ∀ c ∈ t.head?, c = '<') :
    seekClosing wanted depth .outside ink (Cell.layOut p ('<' :: (s ++ t))) =
      seekClosing wanted depth .outside ink (Cell.layOut ((p.after '<').afterText s) t) := by
  rw [Cell.layOut_cons, seekClosing_open, Cell.layOut_append]
  obtain ⟨phase, ink', hpass⟩ := exists_seekClosing_plain hs
  rw [hpass]
  cases t with
  | nil => rfl
  | cons c t =>
      obtain rfl := ht c rfl
      rw [Cell.layOut_cons, seekClosing_open, seekClosing_open]

/-- The search forward stops at what reads as a closing tag of the wanted name, and of the elements
of that name that it counts before the tag each is closed. -/
theorem exists_of_seekClosing
    (h : seekClosing wanted depth .outside ink (Cell.layOut p s) = some u) :
    ∃ mid x rest : Text, s = mid ++ (x.angled ++ rest) ∧
      u = ⟨wanted, .closing, Range.spanning (p.afterText mid) x.angled⟩ ∧
      (∃ tail, ReadsAs x true wanted tail) ∧
      Mark.depthAfter? (Segment.forwardMarks wanted mid.segments) depth = some 0 := by
  induction s using Text.segmentInduction generalizing depth ink p with
  | nil => cases h
  | other c t hc ih =>
      have hpass : ∃ ink', seekClosing wanted depth .outside ink (Cell.layOut p (c :: t)) =
          seekClosing wanted depth .outside ink' (Cell.layOut (p.after c) t) := by
        rw [Cell.layOut_cons]
        by_cases hclose : c = '>'
        · subst c
          exact ⟨_, seekClosing_close_outside⟩
        · exact ⟨_, seekClosing_other rfl hc hclose⟩
      obtain ⟨ink', hpass⟩ := hpass
      obtain ⟨mid, x, rest, rfl, hu, hx, hmid⟩ := ih (hpass ▸ h)
      refine ⟨c :: mid, x, rest, rfl, hu, hx, ?_⟩
      rw [Text.segments_other hc]
      exact hmid
  | closed x t hx ih =>
      rw [Cell.layOut_append, seekClosing_angled hx] at h
      cases hdepth : Mark.depthAfter? ((Segment.mk x true).forwardMark? wanted).toList depth with
      | none =>
          -- the segment is the closing tag that the search stops at
          rw [hdepth] at h
          obtain ⟨hmark, rfl⟩ := Mark.depthAfter?_toList_eq_none hdepth
          obtain ⟨tail, hreads, -⟩ := (forwardMark?_eq_some_iff hx).mp hmark
          exact ⟨[], x, t, rfl, (Option.some.inj h).symm, ⟨tail, hreads⟩, rfl⟩
      | some n =>
          rw [hdepth] at h
          obtain ⟨mid, y, rest, rfl, hu, hy, hmid⟩ := ih h
          refine ⟨x.angled ++ mid, y, rest, (List.append_assoc _ _ _).symm, ?_, hy, ?_⟩
          · rw [hu, Position.afterText_append]
          · rw [Text.segments_angled hx, Segment.forwardMarks_cons, Mark.depthAfter?_append, hdepth]
            exact hmid
  | unclosed x t hx ht ih =>
      rw [seekClosing_unclosed hx ht] at h
      obtain ⟨mid, y, rest, rfl, hu, hy, hmid⟩ := ih h
      have hmid' : ∀ c ∈ mid.head?, c = '<' := by
        intro c hc
        apply ht
        rw [List.head?_append, hc]
        rfl
      refine ⟨'<' :: (x ++ mid), y, rest, by simp, ?_, hy, ?_⟩
      · rw [hu, Position.afterText_cons, Position.afterText_append]
      · rw [Text.segments_unclosed hx hmid', Segment.forwardMarks_cons]
        exact hmid

end Forward

/-! ## What the search backward passes -/

section Backward

variable {wanted : Text} {depth n : Nat} {close : Option (Position × Bool)} {behind : Text}
  {p : Position} {before : List Cell} {s : Text} {v : Tag}

/-- What is left over of the `>` in a text that the search backward has passed: it stands in the
text, and at a `<` it is the one that the segments leave over. -/
structure IsLeftOver (close : Option (Position × Bool)) (p : Position) (s : Text) : Prop where
  le_position : ∀ x ∈ close, p ≤ x.1
  left_eq : (∀ c ∈ s.head?, c = '<') → close.map Prod.snd = Segment.left? s.segments

/-- A segment with its `>` leaves that over, if its head does not take it. -/
theorem IsLeftOver.angled {x t : Text} (hx : x.IsPlain) :
    IsLeftOver (if (Segment.mk x true).head?.isSome then none
      else some ((p.after '<').afterText x, x.endsSlashed)) p (x.angled ++ t) := by
  constructor
  · intro y hy
    split at hy
    next => cases hy
    next => exact Option.some.inj hy ▸ p.le_afterText ('<' :: x)
  · intro _
    rw [Text.segments_angled hx, Segment.left?]
    split
    next => rfl
    next => rfl

/-- A segment without its `>` leaves over what is behind it, if its head does not take it. -/
theorem IsLeftOver.unclosed {x t : Text} (h : IsLeftOver close (p.afterText ('<' :: x)) t)
    (hx : x.IsPlain) (ht : ∀ c ∈ t.head?, c = '<') :
    IsLeftOver (if (Segment.mk x false).head?.isSome then none else close) p
      ('<' :: (x ++ t)) := by
  constructor
  · intro y hy
    split at hy
    next => cases hy
    next => exact Position.le_trans (p.le_afterText _) (h.le_position y hy)
  · intro _
    rw [Text.segments_unclosed hx ht, Segment.left?]
    split
    next => rfl
    next => exact h.left_eq ht

/-- What the search backward does with a text. -/
inductive BackwardRun (wanted : Text) (depth : Nat) (behind : Text) (before : List Cell)
    (p : Position) (s : Text) : Prop where
  /-- It passes the text, and leaves the depth that the segments make. -/
  | passes (n : Nat) (close : Option (Position × Bool))
      (depth_eq : Mark.depthBefore? (Segment.backwardMarks wanted s.segments) depth = some n)
      (isLeftOver : IsLeftOver close p s)
      (search_eq : seekOpening wanted depth none behind ((Cell.layOut p s).reverse ++ before) =
        seekOpening wanted n close (s ++ behind) before)
  /-- The segments open more than is closed behind them, and it stops in the text. -/
  | stops (depth_eq : Mark.depthBefore? (Segment.backwardMarks wanted s.segments) depth = none)
      (le_start : ∀ v, seekOpening wanted depth none behind
        ((Cell.layOut p s).reverse ++ before) = some v → p ≤ v.range.start)

namespace BackwardRun

variable {c : Char} {x t : Text}

theorem other (hc : c ≠ '<')
    (h : BackwardRun wanted depth behind (⟨p, c⟩ :: before) (p.after c) t) :
    BackwardRun wanted depth behind before p (c :: t) := by
  have hle := Position.le_of_lt (p.lt_after c)
  have hhead : ¬∀ x ∈ (c :: t).head?, x = '<' := fun hall => hc (hall c rfl)
  have hcells : (Cell.layOut p (c :: t)).reverse ++ before =
      (Cell.layOut (p.after c) t).reverse ++ (⟨p, c⟩ :: before) := by
    rw [Cell.layOut_cons, List.reverse_cons, List.append_assoc, List.singleton_append]
  rcases h with ⟨n, close, hn, hclose, hpass⟩ | ⟨hnone, hstop⟩
  · rw [← Text.segments_other hc] at hn
    rw [← hcells] at hpass
    by_cases hangle : c = '>'
    · subst c
      refine .passes n _ hn ⟨?_, fun hall => absurd hall hhead⟩ (hpass.trans seekOpening_close)
      intro x hx
      exact Option.some.inj hx ▸ Position.le_refl p
    · refine .passes n close hn ⟨?_, fun hall => absurd hall hhead⟩
        (hpass.trans (seekOpening_other hc hangle))
      intro x hx
      exact Position.le_trans hle (hclose.le_position x hx)
  · rw [← Text.segments_other hc] at hnone
    rw [← hcells] at hstop
    exact .stops hnone fun v hv => Position.le_trans hle (hstop v hv)

theorem angled (hx : x.IsPlain)
    (h : BackwardRun wanted depth behind ((Cell.layOut p x.angled).reverse ++ before)
      (p.afterText x.angled) t) :
    BackwardRun wanted depth behind before p (x.angled ++ t) := by
  have hcells : (Cell.layOut p (x.angled ++ t)).reverse ++ before =
      (Cell.layOut (p.afterText x.angled) t).reverse ++
        ((Cell.layOut p x.angled).reverse ++ before) := by
    rw [Cell.layOut_append, List.reverse_append, List.append_assoc]
  have hdepth : Mark.depthBefore? (Segment.backwardMarks wanted (x.angled ++ t).segments) depth =
      (Mark.depthBefore? (Segment.backwardMarks wanted t.segments) depth).bind
        (Mark.depthBefore?
          ((Segment.mk x true).backwardMark? wanted (Segment.left? t.segments)).toList) := by
    rw [Text.segments_angled hx, Segment.backwardMarks, Mark.depthBefore?_append]
  rcases h with ⟨m, close, hm, -, hpass⟩ | ⟨hnone, hstop⟩
  · rw [hm, Option.bind_some] at hdepth
    rw [← hcells, seekOpening_angled hx (Segment.left? t.segments), ← hdepth] at hpass
    cases hn : Mark.depthBefore? (Segment.backwardMarks wanted (x.angled ++ t).segments) depth with
    | some n =>
        rw [hn] at hpass
        exact .passes n _ hn (.angled hx) (by rw [hpass, List.append_assoc])
    | none =>
        rw [hn] at hpass
        refine .stops hn fun v hv => ?_
        exact Option.some.inj (hpass.symm.trans hv) ▸ Position.le_refl p
  · rw [hnone] at hdepth
    rw [← hcells] at hstop
    exact .stops hdepth fun v hv => Position.le_trans (p.le_afterText _) (hstop v hv)

theorem unclosed (hbehind : behind.head? = some '<') (hx : x.IsPlain)
    (ht : ∀ c ∈ t.head?, c = '<')
    (h : BackwardRun wanted depth behind ((Cell.layOut p ('<' :: x)).reverse ++ before)
      (p.afterText ('<' :: x)) t) :
    BackwardRun wanted depth behind before p ('<' :: (x ++ t)) := by
  have hcells : (Cell.layOut p ('<' :: (x ++ t))).reverse ++ before =
      (Cell.layOut (p.afterText ('<' :: x)) t).reverse ++
        ((Cell.layOut p ('<' :: x)).reverse ++ before) := by
    rw [← List.cons_append, Cell.layOut_append, List.reverse_append, List.append_assoc]
  have hdepth :
      Mark.depthBefore? (Segment.backwardMarks wanted (Text.segments ('<' :: (x ++ t)))) depth =
        (Mark.depthBefore? (Segment.backwardMarks wanted t.segments) depth).bind
          (Mark.depthBefore?
            ((Segment.mk x false).backwardMark? wanted (Segment.left? t.segments)).toList) := by
    rw [Text.segments_unclosed hx ht, Segment.backwardMarks, Mark.depthBefore?_append]
  obtain ⟨more, hmore⟩ : ∃ more, t ++ behind = '<' :: more := by
    apply List.head?_eq_some_iff.mp
    cases t with
    | nil => exact hbehind
    | cons c t => exact congrArg some (ht c rfl)
  rcases h with ⟨m, close, hm, hclose, hpass⟩ | ⟨hnone, hstop⟩
  · -- at the `<` that follows, what is left over is what the segments behind leave over
    rw [hm, Option.bind_some] at hdepth
    rw [← hcells, hmore, seekOpening_unclosed hx (hclose.left_eq ht), ← hdepth, ← hmore] at hpass
    cases hn : Mark.depthBefore?
        (Segment.backwardMarks wanted (Text.segments ('<' :: (x ++ t)))) depth with
    | some n =>
        rw [hn] at hpass
        refine .passes n _ hn (hclose.unclosed hx ht) (hpass.trans ?_)
        rw [List.cons_append, List.append_assoc, hmore]
    | none =>
        rw [hn] at hpass
        refine .stops hn fun v hv => ?_
        obtain ⟨y, hy, rfl⟩ := Option.map_eq_some_iff.mp (hpass.symm.trans hv)
        have hle : p ≤ y.1.right 1 := by
          apply Position.le_of_lt
          apply Position.lt_right_one.mpr
          exact Position.le_trans (p.le_afterText _) (hclose.le_position y hy)
        rw [Range.between_of_le hle]
        exact Position.le_refl p
  · rw [hnone] at hdepth
    rw [← hcells] at hstop
    exact .stops hdepth fun v hv => Position.le_trans (p.le_afterText _) (hstop v hv)

end BackwardRun

/-- Behind a text that starts with a `<`, the search backward runs over any text so. -/
theorem backwardRun (wanted : Text) (depth : Nat) (hbehind : behind.head? = some '<')
    (before : List Cell) (p : Position) (s : Text) :
    BackwardRun wanted depth behind before p s := by
  induction s using Text.segmentInduction generalizing p before with
  | nil => exact .passes depth none rfl ⟨(fun x hx => by cases hx), fun _ => rfl⟩ rfl
  | other c t hc ih => exact .other hc (ih _ _)
  | closed x t hx ih => exact .angled hx (ih _ _)
  | unclosed x t hx ht ih => exact .unclosed hbehind hx ht (ih _ _)

/-! ## What the search backward answers -/

/-- What a `<` does to the search backward, whatever stands before it: the search goes on, or has
the head of an opening tag of the wanted name there and answers with the `>` that is left over, no
slash before it. -/
theorem seekOpening_open_step (wanted : Text) (depth : Nat) (close : Option (Position × Bool))
    (behind : Text) (p : Position) :
    (∃ n close', (close' = close ∨ close' = none) ∧ ∀ before,
      seekOpening wanted depth close behind (⟨p, '<'⟩ :: before) =
        seekOpening wanted n close' ('<' :: behind) before) ∨
    ∃ stop, close = some (stop, false) ∧ TagHead.read? behind = some (false, wanted) ∧ ∀ before,
      seekOpening wanted depth close behind (⟨p, '<'⟩ :: before) =
        some ⟨wanted, .opening, Range.between p (stop.right 1)⟩ := by
  have hangle : '<' ≠ '>' := by decide
  simp only [seekOpening.eq_def _ _ _ _ (_ :: _), if_neg hangle, if_pos]
  cases hread : TagHead.read? behind with
  | none => exact .inl ⟨depth, close, .inl rfl, fun _ => rfl⟩
  | some head =>
      obtain ⟨closing, name⟩ := head
      by_cases hname : name = wanted
      · simp only [hname, ne_eq, not_true_eq_false, if_false]
        cases closing with
        | true => exact .inl ⟨depth + 1, none, .inr rfl, fun _ => rfl⟩
        | false =>
            rcases close with _ | ⟨stop, _ | _⟩
            · exact .inl ⟨depth, none, .inr rfl, fun _ => rfl⟩
            · cases depth with
              | zero => exact .inr ⟨stop, rfl, rfl, fun _ => rfl⟩
              | succ depth => exact .inl ⟨depth, none, .inr rfl, fun _ => rfl⟩
            · exact .inl ⟨depth, none, .inr rfl, fun _ => rfl⟩
      · simp only [ne_eq, hname, not_false_eq_true, if_true]
        exact .inl ⟨depth, none, .inr rfl, fun _ => rfl⟩

/-- A search backward that answers goes on before a `<`, or answers there. -/
theorem seekOpening_open_cases
    (h : seekOpening wanted depth close behind (⟨p, '<'⟩ :: before) = some v) :
    (∃ n close', (close' = close ∨ close' = none) ∧
      seekOpening wanted n close' ('<' :: behind) before = some v) ∨
    ∃ stop, close = some (stop, false) ∧ TagHead.read? behind = some (false, wanted) ∧
      v = ⟨wanted, .opening, Range.between p (stop.right 1)⟩ := by
  rcases seekOpening_open_step wanted depth close behind p with
    ⟨n, close', hclose', hpass⟩ | ⟨stop, hclose, hread, hanswer⟩
  · exact .inl ⟨n, close', hclose', (hpass before).symm.trans h⟩
  · exact .inr ⟨stop, hclose, hread, (Option.some.inj ((hanswer before).symm.trans h)).symm⟩

/-- What is left over of the `>` behind a text is the first one there, and said to end an element by
itself if a slash stands right before it. -/
def IsNextClose (close : Option (Position × Bool)) (p : Position) (s behind : Text) : Prop :=
  ∀ x ∈ close, ∃ y z : Text, behind = y ++ '>' :: z ∧ '>' ∉ y ∧ x.1 = p.afterText (s ++ y) ∧
    (['/'] <:+ s ++ y → x.2 = true)

theorem isNextClose_none : IsNextClose none p s behind := fun x hx => by cases hx

/-- A slash at the end of a text is the last character of its last line that is not blank. -/
theorem endsSlashed_of_suffix (h : ['/'] <:+ s) : s.endsSlashed := by
  obtain ⟨t, rfl⟩ := h
  rw [Text.endsSlashed, List.reverse_append]
  rfl

theorem isNextClose_angled {pre : Text} {q : Position} (hq : q = p.afterText pre) (hs : s.IsPlain)
    (taken : Bool) :
    IsNextClose (if taken then none else some ((q.after '<').afterText s, s.endsSlashed)) p pre
      (s.angled ++ behind) := by
  intro x hx
  split at hx
  next => cases hx
  next =>
    obtain rfl := Option.some.inj hx
    refine ⟨'<' :: s, behind, Text.angled_append s behind, ?_, ?_, ?_⟩
    · exact List.not_mem_cons_of_ne_of_not_mem (by decide) fun hmem => (hs _ hmem).2 rfl
    · rw [Position.afterText_append, Position.afterText_cons, hq]
    · intro hslash
      rw [← Text.endsSlashed_append pre s]
      exact endsSlashed_of_suffix hslash

theorem IsNextClose.concat {c : Char} (h : IsNextClose close p (s ++ [c]) behind) (hc : c ≠ '>') :
    IsNextClose close p s (c :: behind) := by
  intro x hx
  obtain ⟨y, z, rfl, hy, hposition, hslash⟩ := h x hx
  rw [List.append_assoc, List.singleton_append] at hposition hslash
  exact ⟨c :: y, z, rfl, List.not_mem_cons_of_ne_of_not_mem (Ne.symm hc) hy, hposition, hslash⟩

/-- Whether a tag is what a text says from a `<` of it to the next `>`, in the text or behind it:
the head there is that of an opening tag, and no slash stands before the `>`. -/
def Tag.OpensIn (v : Tag) (p : Position) (s behind : Text) : Prop :=
  ∃ pre x rest : Text, s ++ behind = pre ++ (x.angled ++ rest) ∧ pre.length < s.length ∧
    '>' ∉ x ∧ v.kind = .opening ∧ v.range = Range.spanning (p.afterText pre) x.angled ∧
    TagHead.read? (x ++ ['>']) = some (false, v.name) ∧ ¬['/'] <:+ x

theorem Tag.OpensIn.concat {c : Char} (h : v.OpensIn p s (c :: behind)) :
    v.OpensIn p (s ++ [c]) behind := by
  obtain ⟨pre, x, rest, htext, hlength, hx⟩ := h
  refine ⟨pre, x, rest, ?_, ?_, hx⟩
  · rw [List.append_assoc, List.singleton_append, htext]
  · rw [List.length_append]
    exact Nat.lt_add_right _ hlength

/-- The search backward answers with what reads as an opening tag of the wanted name, from some `<`
to the next `>` behind it. -/
theorem opensIn_of_seekOpening (hclose : IsNextClose close p s behind)
    (h : seekOpening wanted depth close behind (Cell.layOut p s).reverse = some v) :
    v.name = wanted ∧ v.OpensIn p s behind := by
  induction s using List.reverseRecOn generalizing depth close behind with
  | nil => cases h
  | append_singleton s c ih =>
      rw [Cell.layOut_append, List.reverse_append, Cell.layOut_cons, Cell.layOut_nil,
        List.reverse_singleton, List.singleton_append] at h
      by_cases hangle : c = '>'
      · subst c
        rw [seekOpening_close] at h
        refine (ih ?_ h).imp_right Tag.OpensIn.concat
        intro x hx
        obtain rfl := Option.some.inj hx
        refine ⟨[], behind, rfl, List.not_mem_nil, by rw [List.append_nil], ?_⟩
        intro hslash
        rw [followsSlash_eq, Cell.text, List.map_reverse, ← Cell.text, Cell.text_layOut,
          List.reverse_reverse]
        exact endsSlashed_of_suffix (by rwa [List.append_nil] at hslash)
      · by_cases hopen : c = '<'
        · subst c
          rcases seekOpening_open_cases h with ⟨n, close', hclose', h⟩ | ⟨stop, rfl, hread, rfl⟩
          · refine (ih ?_ h).imp_right Tag.OpensIn.concat
            rcases hclose' with rfl | rfl
            · exact hclose.concat hangle
            · exact isNextClose_none
          · obtain ⟨y, z, rfl, hy, hposition, hslash⟩ := hclose _ rfl
            rw [TagHead.read?_append_angle (.inr rfl)] at hread
            refine ⟨rfl, s, y, z, ?_, by simp, hy, rfl, ?_, hread, ?_⟩
            · rw [List.append_assoc, Text.angled_append, List.singleton_append]
            · change stop = _ at hposition
              rw [hposition, List.append_assoc, Position.afterText_append]
              exact Range.between_right (t := '<' :: y) (by decide)
            · intro hend
              have hfalse := hslash (hend.trans (List.suffix_append _ _))
              cases hfalse
        · rw [seekOpening_other hopen hangle] at h
          exact (ih (hclose.concat hangle) h).imp_right Tag.OpensIn.concat

/-- The search backward answers with a tag that stops no later than the cells do. -/
theorem stop_le_of_seekOpening {cells : List Cell} {q : Position}
    (hcells : ∀ cell ∈ cells, cell.position < q) (hclose : ∀ x ∈ close, x.1 < q)
    (h : seekOpening wanted depth close behind cells = some v) : v.range.stop ≤ q := by
  induction cells generalizing depth close behind with
  | nil => cases h
  | cons cell cells ih =>
      obtain ⟨p, c⟩ := cell
      rw [List.forall_mem_cons] at hcells
      obtain ⟨hp, hcells⟩ := hcells
      by_cases hangle : c = '>'
      · subst c
        rw [seekOpening_close] at h
        exact ih hcells (fun x hx => Option.some.inj hx ▸ hp) h
      · by_cases hopen : c = '<'
        · subst c
          rcases seekOpening_open_cases h with ⟨n, close', hclose', h⟩ | ⟨stop, rfl, -, rfl⟩
          · refine ih hcells ?_ h
            rcases hclose' with rfl | rfl
            · exact hclose
            · exact fun x hx => by cases hx
          · have hstop := Position.right_one_le.mpr (hclose _ rfl)
            rw [Range.between]
            split
            next => exact hstop
            next => exact Position.le_of_lt hp
        · rw [seekOpening_other hopen hangle] at h
          exact ih hcells hclose h

end Backward

/-! ## The way back -/

/-- Whether a tag has no angles inside and counts for an opening tag in a search backward. -/
def Tag.OpensBackward (t : Tag) (d : Document) : Prop :=
  ∃ s : Text, s.IsPlain ∧ d.slice t.range = s.angled ∧
    (Segment.mk s true).backwardMark? t.name none = some .opens

namespace Tag.WrittenIn

variable {t : Tag} {d : Document} {limits : ScanLimits} {pre inner post mid rest : Text}

/-- A search backward that starts behind some text comes to that text first, then to the tag. -/
theorem openingTag?_eq (h : t.WrittenIn d pre inner (mid ++ rest))
    (hlimits : d.lineCount < limits.paired) (name : Text) :
    d.openingTag? limits name (t.range.stop.afterText mid) =
      seekOpening name 0 none rest ((Cell.layOut t.range.stop mid).reverse ++
        ((Cell.layOut t.range.start inner.angled).reverse ++
          (Cell.layOut Position.origin pre).reverse)) := by
  rw [h.dividedAt_stop.append.openingTag? hlimits, Cell.layOut_append, Cell.layOut_append,
    List.reverse_append, List.reverse_append, ← h.dividedAt_stop.position_eq,
    ← h.divided.position_eq]

/-- A tag that the search backward answers with has no angles inside. -/
theorem isPlain_of_openingTag? (h : t.WrittenIn d pre inner (mid ++ rest))
    (hlimits : d.lineCount < limits.paired) {name : Text}
    (ht : d.openingTag? limits name (t.range.stop.afterText mid) = some t) : inner.IsPlain := by
  rw [h.dividedAt_stop.append.openingTag? hlimits] at ht
  obtain ⟨-, pre', x, rest', htext, -, hx, -, hrange, -⟩ :=
    opensIn_of_seekOpening isNextClose_none ht
  have hdiv : d.DividedAt (Position.origin.afterText pre') pre' (x.angled ++ rest') := by
    refine ⟨?_, rfl⟩
    rw [← htext]
    exact h.dividedAt_stop.append.text_eq
  have hangled : inner.angled = x.angled := by
    rw [← h.slice_eq, hrange]
    exact hdiv.slice
  obtain rfl := Text.angled_inj.mp hangled
  exact h.isBalanced.isPlain_of_not_mem_close hx

/-- What stands before a tag has no answer that starts with the tag. -/
theorem ne_start_of_seekOpening {close : Option (Position × Bool)} {behind name : Text}
    {depth : Nat} {v : Tag} (h : t.WrittenIn d pre inner post)
    (hclose : IsNextClose close Position.origin pre behind)
    (hv : seekOpening name depth close behind (Cell.layOut Position.origin pre).reverse = some v) :
    v.range.start ≠ t.range.start := by
  rw [h.divided.position_eq]
  obtain ⟨-, pre', x, rest, htext, hlength, -, -, hrange, -⟩ := opensIn_of_seekOpening hclose hv
  have hlt := (Position.afterText_lt_iff (p := Position.origin) htext.symm).mpr hlength
  intro heq
  rw [hrange] at heq
  exact Position.lt_irrefl _ (heq ▸ hlt)

/-- The search backward answers with an opening tag if and only if it takes the tag for one and what
stands between nests as it counts. -/
theorem openingTag?_eq_some_iff (h : t.WrittenIn d pre inner (mid ++ '<' :: rest))
    (hkind : t.kind = .opening) (hlimits : d.lineCount < limits.paired) :
    d.openingTag? limits t.name (t.range.stop.afterText mid) = some t ↔
      t.OpensBackward d ∧ Mark.IsNested (Segment.backwardMarks t.name mid.segments) := by
  have hself : (⟨t.name, .opening, Range.spanning t.range.start inner.angled⟩ : Tag) = t := by
    rw [← h.range_eq, ← hkind]
  have hhead : List.head? ('<' :: rest) = some '<' := rfl
  have hrun := backwardRun t.name 0 hhead
    ((Cell.layOut t.range.start inner.angled).reverse ++ (Cell.layOut Position.origin pre).reverse)
    t.range.stop mid
  constructor
  · intro ht
    have hplain := h.isPlain_of_openingTag? hlimits ht
    rw [h.openingTag?_eq hlimits] at ht
    rcases hrun with ⟨n, close, hn, -, hpass⟩ | ⟨-, hstop⟩
    · rw [hpass, seekOpening_angled hplain none] at ht
      cases hm : Mark.depthBefore?
          ((Segment.mk inner true).backwardMark? t.name none).toList n with
      | none =>
          obtain ⟨hmark, rfl⟩ := Mark.depthBefore?_toList_eq_none hm
          exact ⟨⟨inner, hplain, h.slice_eq, hmark⟩, Mark.depthBefore?_eq_some_iff.mp hn⟩
      | some m =>
          -- the search goes on before the tag, where every answer starts earlier
          rw [hm] at ht
          refine absurd rfl (h.ne_start_of_seekOpening ?_ ht)
          exact isNextClose_angled h.divided.position_eq hplain _
    · -- the search stops behind the tag
      have hlt : t.range.start < t.range.stop :=
        h.stop_eq ▸ Position.lt_afterText (List.cons_ne_nil _ _)
      exact absurd (hstop t ht) (Position.not_le.mpr hlt)
  · rintro ⟨⟨s, hplain, hs, hmark⟩, hnested⟩
    obtain rfl := Text.angled_inj.mp (h.slice_eq.symm.trans hs)
    have hdepth := Mark.depthBefore?_eq_some_iff.mpr hnested
    rw [h.openingTag?_eq hlimits]
    rcases hrun with ⟨n, close, hn, -, hpass⟩ | ⟨hnone, -⟩
    · obtain rfl := Option.some.inj (hdepth.symm.trans hn)
      rw [hpass, seekOpening_angled hplain none, hmark]
      exact congrArg some hself
    · rw [hdepth] at hnone
      cases hnone

end Tag.WrittenIn

namespace Document

variable {d : Document} {limits : ScanLimits} {r : Range} {t u : Tag}

/-- What the search forward answers with reads as a closing tag, and starts no earlier than the
search. -/
theorem exists_of_closingTag? {name : Text} {p : Position}
    (h : d.closingTag? limits name p = some u) :
    ∃ pre x post tail : Text, d.text = pre ++ (x.angled ++ post) ∧ ReadsAs x true name tail ∧
      u = ⟨name, .closing, Range.spanning (Position.origin.afterText pre) x.angled⟩ ∧
      p ≤ Position.origin.afterText pre := by
  obtain ⟨before, near, behind, htext, hnear⟩ := d.exists_takeWhile_cellsFrom p
    (·.position.line < p.line + limits.paired)
  rw [closingTag?, hnear] at h
  obtain ⟨mid, x, rest, rfl, rfl, ⟨tail, hreads⟩, -⟩ := exists_of_seekClosing h
  refine ⟨before ++ mid, x, rest ++ behind, tail, ?_, hreads, ?_, ?_⟩
  · rw [htext]
    simp only [List.append_assoc]
  · rw [Position.afterText_append]
  · rw [Position.afterText_append]
    refine Position.le_trans ?_ (Position.le_afterText _ mid)
    obtain ⟨c, s, hs⟩ : ∃ c s, mid ++ (x.angled ++ rest) = c :: s :=
      List.exists_cons_of_ne_nil (by simp [Text.angled])
    rw [hs, Cell.layOut_cons] at hnear
    obtain ⟨cells, hcells⟩ := List.takeWhile_prefix (l := d.cellsFrom p)
      fun cell => decide (cell.position.line < p.line + limits.paired)
    rw [hnear] at hcells
    exact le_of_cellsFrom_eq_cons hcells.symm

/-- What the search backward answers with has the head of an opening tag and no slash at its end,
and stops no later than the search starts. -/
theorem exists_of_openingTag? {name : Text} {p : Position}
    (h : d.openingTag? limits name p = some u) :
    ∃ pre x post : Text, d.text = pre ++ (x.angled ++ post) ∧ '>' ∉ x ∧
      TagHead.read? (x ++ ['>']) = some (false, name) ∧ ¬['/'] <:+ x ∧
      u = ⟨name, .opening, Range.spanning (Position.origin.afterText pre) x.angled⟩ ∧
      u.range.stop ≤ p := by
  obtain ⟨cut, near, behind, htext, hbefore, hlt, hfrom⟩ := d.exists_takeWhile_cellsBefore
    p (p.line - limits.paired ≤ ·.position.line)
  rw [openingTag?, hbefore, hfrom, Cell.text_layOut] at h
  have hstop : u.range.stop ≤ p := by
    refine stop_le_of_seekOpening ?_ (fun x hx => by cases hx) h
    simpa using hlt
  obtain ⟨rfl, mid, x, rest, hmid, -, hx, hkind, hrange, hread, hslash⟩ :=
    opensIn_of_seekOpening isNextClose_none h
  refine ⟨cut ++ mid, x, rest, ?_, hx, hread, hslash, ?_, hstop⟩
  · rw [htext, hmid, List.append_assoc]
  · rw [Position.afterText_append, ← hkind, ← hrange]

/-- A partner, whatever tag it is of, runs from a `<` of the text to a `>`. -/
theorem exists_angled_of_partner? (h : d.partner? limits t = some u) :
    ∃ pre x post : Text, d.text = pre ++ (x.angled ++ post) ∧
      u.range = Range.spanning (Position.origin.afterText pre) x.angled := by
  rw [partner?] at h
  split at h
  next =>
    obtain ⟨pre, x, post, tail, htext, -, rfl, -⟩ := exists_of_closingTag? h
    exact ⟨pre, x, post, htext, rfl⟩
  next =>
    obtain ⟨pre, x, post, htext, -, -, -, rfl, -⟩ := exists_of_openingTag? h
    exact ⟨pre, x, post, htext, rfl⟩
  next => cases h

/-- The segments between two tags. -/
def segmentsBetween (d : Document) (t u : Tag) : List Segment :=
  (d.slice (Range.between t.range.stop u.range.start)).segments

/-- What the search forward from an opening tag finds, and what the search backward from there has
between. -/
theorem exists_of_partner? (ht : t ∈ d.tagsIn r) (hkind : t.kind = .opening)
    (hlimits : d.lineCount < limits.paired) (hu : d.partner? limits t = some u) :
    ∃ pre inner mid rest, t.WrittenIn d pre inner (mid ++ '<' :: rest) ∧
      d.segmentsBetween t u = mid.segments ∧
      Mark.IsNested (Segment.forwardMarks t.name mid.segments) ∧
      d.partner? limits u = d.openingTag? limits t.name (t.range.stop.afterText mid) := by
  obtain ⟨pre, inner, post, hwritten⟩ := exists_writtenIn_of_mem_tagsIn ht
  have hforward : seekClosing t.name 0 .outside none (Cell.layOut t.range.stop post) = some u := by
    rw [← hwritten.dividedAt_stop.closingTag? hlimits, ← hu, partner?, hkind]
  obtain ⟨mid, x, rest, rfl, rfl, -, hmid⟩ := exists_of_seekClosing hforward
  rw [Text.angled_append] at hwritten
  have hbetween := Range.between_afterText t.range.stop mid
  refine ⟨pre, inner, mid, x ++ '>' :: rest, hwritten, ?_, hmid, rfl⟩
  exact (congrArg (fun r => (d.slice r).segments) hbetween).trans
    (congrArg Text.segments hwritten.dividedAt_stop.slice)

/-- Where every segment between ends alike for both searches, the way back ends at the tag. -/
theorem partner?_partner?_of_endsAlike (ht : t ∈ d.tagsIn r) (hkind : t.kind = .opening)
    (hlimits : d.lineCount < limits.paired) (hu : d.partner? limits t = some u)
    (hopens : t.OpensBackward d) (hends : ∀ s ∈ d.segmentsBetween t u, s.EndsAlike) :
    d.partner? limits u = some t := by
  obtain ⟨pre, inner, mid, rest, hwritten, hbetween, hnested, hback⟩ :=
    exists_of_partner? ht hkind hlimits hu
  rw [hback, hwritten.openingTag?_eq_some_iff hkind hlimits]
  rw [hbetween] at hends
  rw [Segment.backwardMarks_of_endsAlike hends]
  exact ⟨hopens, hnested⟩

/-- The search forward from an opening tag stops at a closing tag before which the segments nest as
it counts. The search backward from there comes back if and only if they nest as it counts too, and
it takes the opening tag for one. -/
theorem partner?_partner?_iff (ht : t ∈ d.tagsIn r) (hkind : t.kind = .opening)
    (hlimits : d.lineCount < limits.paired) (hu : d.partner? limits t = some u) :
    Mark.IsNested (Segment.forwardMarks t.name (d.segmentsBetween t u)) ∧
    (d.partner? limits u = some t ↔
      t.OpensBackward d ∧
        Mark.IsNested (Segment.backwardMarks t.name (d.segmentsBetween t u))) := by
  obtain ⟨pre, inner, mid, rest, hwritten, hbetween, hnested, hback⟩ :=
    exists_of_partner? ht hkind hlimits hu
  rw [hbetween, hback]
  exact ⟨hnested, hwritten.openingTag?_eq_some_iff hkind hlimits⟩

/-- Around a `<` that is no tag and an element of the same name. -/
theorem partner?_partner?_iff_stray :
    let d : Document := ⟨['<', 'a', '>', '<', ' ', '<', 'a', '>', '<', '/', 'a', '>',
      '<', '/', 'a', '>'], .lf⟩
    let t : Tag := ⟨['a'], .opening, ⟨⟨0, 0⟩, ⟨0, 3⟩, by decide⟩⟩
    let u : Tag := ⟨['a'], .closing, ⟨⟨0, 12⟩, ⟨0, 16⟩, by decide⟩⟩
    t ∈ d.tagsIn d.whole ∧ t.kind = .opening ∧ d.lineCount < (ScanLimits.mk 2 2 1).paired ∧
      d.partner? ⟨2, 2, 1⟩ t = some u ∧ d.partner? ⟨2, 2, 1⟩ u = some t := by
  intro d t u
  have hbegins : t.Begins Position.origin d.text :=
    ⟨['a'], d.text.drop 3, rfl, by decide, by decide⟩
  have ht : t ∈ d.tagsIn d.whole := mem_tagsIn_of_begins hbegins
  have hlimits : d.lineCount < (ScanLimits.mk 2 2 1).paired := by decide
  have hu : d.partner? ⟨2, 2, 1⟩ t = some u := by decide
  refine ⟨ht, rfl, hlimits, hu, ?_⟩
  apply (partner?_partner?_iff ht rfl hlimits hu).2.mpr
  exact ⟨⟨['a'], by decide, by decide, by decide⟩, by decide⟩

/-- A line feed between the slash and the `>` tells the searches apart: in `<a><a/` and `></a>`
on the next line, the search forward takes the tag between for an element by itself, and the search
backward answers with it. -/
theorem partner?_partner?_ne_lineBreak :
    let d : Document := ⟨['<', 'a', '>', '<', 'a', '/', '\n', '>', '<', '/', 'a', '>'], .lf⟩
    let t : Tag := ⟨['a'], .opening, ⟨⟨0, 0⟩, ⟨0, 3⟩, by decide⟩⟩
    t ∈ d.tagsIn d.whole ∧ d.lineCount < ScanLimits.default.paired ∧
      d.lineCount < ScanLimits.default.enclosing ∧
      ∃ u, d.partner? .default t = some u ∧ d.partner? .default u ≠ some t := by
  intro d t
  have hbegins : t.Begins Position.origin d.text :=
    ⟨['a'], d.text.drop 3, rfl, by decide, by decide⟩
  refine ⟨mem_tagsIn_of_begins hbegins, by decide, by decide, ?_⟩
  exact ⟨⟨['a'], .closing, ⟨⟨1, 1⟩, ⟨1, 5⟩, by decide⟩⟩, by decide, by decide⟩

end Document

end MarkupPairs
