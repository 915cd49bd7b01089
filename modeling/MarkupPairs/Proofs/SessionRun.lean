import MarkupPairs.Proofs.CommandEffect
import MarkupPairs.Proofs.MergedSelections
import MarkupPairs.Proofs.Offsets
import MarkupPairs.Proofs.PairDeletion

/-!
# Runs of a session

A session is started on a text, and from then on commands are tried, the settings change, and other
selections are made within the document. However long this goes on, there are selections and they
lie within the document. A command that edits the text, or that goes to the class lists, leaves them
in order.
-/

namespace MarkupPairs

/-! ## Where carets can go -/

namespace Document

variable {d : Document} {limits : ScanLimits} {t u : Tag}

/-- The place behind the `<` of a partner. -/
theorem isValid_right_of_partner? (h : d.partner? limits t = some u) :
    d.isValid (u.range.start.right 1) := by
  obtain ⟨pre, x, post, htext, hrange⟩ := exists_angled_of_partner? h
  have hdiv : d.DividedAt u.range.start pre ('<' :: (x ++ '>' :: post)) :=
    ⟨by rw [htext, Text.angled_append], congrArg Range.start hrange⟩
  have hnext := hdiv.next.isValid
  rwa [Position.after_of_ne (by decide)] at hnext

end Document

theorem Selection.ends_moveTo {P : Position → Prop} {selection : Selection} {p : Position}
    (hanchor : P selection.anchor) (hp : P p) :
    P (selection.moveTo p).anchor ∧ P (selection.moveTo p).active := by
  rw [moveTo]
  split
  next => exact ⟨hp, hp⟩
  next => exact ⟨hanchor, hp⟩

namespace Session

variable {s s' after : Session} {command : Command} {outcome : Outcome} {selection : Selection}
  {p q : Position}

theorem isValid_of_bracketJump (h : s.bracketJump p = some q) : s.document.isValid q := by
  simp only [bracketJump, Option.bind_eq_bind, Option.bind_eq_some_iff] at h
  obtain ⟨c, -, b, -, hpartner⟩ := h
  exact (Document.isValid_of_bracketPartner? hpartner).1

theorem isValid_of_tagJump (h : s.tagJump p = some q) : s.document.isValid q := by
  simp only [tagJump, Option.bind_eq_bind, Option.bind_eq_some_iff] at h
  obtain ⟨tag, -, partner, hpartner, hq⟩ := h
  obtain rfl := Option.some.inj hq
  exact Document.isValid_right_of_partner? hpartner

theorem isValid_of_jumpTarget? (h : s.jumpTarget? selection = some q) : s.document.isValid q := by
  have hjumps {first second : Option Position} (hor : (first <|> second) = some q)
      (hfirst : first = some q → s.document.isValid q)
      (hsecond : second = some q → s.document.isValid q) : s.document.isValid q := by
    cases first with
    | none => exact hsecond hor
    | some p => exact hfirst hor
  refine hjumps h ?_ ?_
  · intro hcursor
    split at hcursor
    next => cases hcursor
    next => exact hjumps hcursor isValid_of_bracketJump isValid_of_tagJump
  · intro hline
    obtain ⟨p, -, hline⟩ := Option.bind_eq_some_iff.mp hline
    exact hjumps hline isValid_of_tagJump isValid_of_bracketJump

/-! ## One step -/

/-- Whether there are selections and all of them lie within the document. -/
structure IsSound (s : Session) : Prop where
  isSelected : s.selections ≠ []
  isValid : s.IsValid

/-- Wherever the targets of a plan are, there are selections at them within the new text, and they
are in order. -/
theorem sound_of_commit {plan : EditPlan} {targets : List CaretTarget} {count : Nat}
    (targeted : targets ≠ []) (h : (commit plan targets).result s = .ok (count, after)) :
    after.IsSound ∧ Selection.IsOrdered after.selections := by
  obtain ⟨splices, document, -, -, rfl⟩ := commit_eq_ok_iff.mp h
  refine ⟨⟨?_, ?_⟩, Selection.isOrdered_normalize _⟩
  · exact Selection.normalize_ne_nil (List.map_eq_nil_iff.not.mpr targeted)
  · apply Selection.allEnds_normalize (P := (document.isValid ·))
    intro selection hselection
    obtain ⟨target, -, rfl⟩ := List.mem_map.mp hselection
    cases target <;> exact ⟨document.isValid_positionAt _, document.isValid_positionAt _⟩

theorem Does.isSound (h : s.Does command outcome after) (hs : s.IsSound) : after.IsSound := by
  cases h with
  | nothing => exact hs
  | jump =>
      refine ⟨List.map_eq_nil_iff.not.mpr hs.isSelected, ?_⟩
      intro moved hmoved
      obtain ⟨selection, hselection, rfl⟩ := List.mem_map.mp hmoved
      obtain ⟨hanchor, hactive⟩ := hs.isValid selection hselection
      cases htarget : s.jumpTarget? selection with
      | none => exact ⟨hanchor, hactive⟩
      | some q =>
          exact Selection.ends_moveTo (P := (s.document.isValid ·)) hanchor
            (isValid_of_jumpTarget? htarget)
  | edit targeted commit => exact (sound_of_commit targeted commit).1
  | place targeted commit => exact (sound_of_commit targeted commit).1

/-- What a host does with a session. -/
inductive Step (s : Session) : Session → Prop where
  | attempt (command : Command) : Step s (s.attempt command).2
  | configure (settings : Settings) : Step s (s.configure settings)
  | select {selections : List Selection} (some : selections ≠ [])
      (valid : Selection.AllEnds (s.document.isValid ·) selections) : Step s (s.select selections)

theorem Step.isSound (h : s.Step s') (hs : s.IsSound) : s'.IsSound := by
  cases h with
  | attempt command =>
      rcases hattempt : s.attempt command with ⟨e | outcome, after⟩
      · obtain rfl := isAtomic_perform command s e after hattempt
        exact hs
      · exact (does_of_execute (execute_eq_ok_iff.mpr hattempt)).isSound hs
  | configure settings => exact ⟨hs.isSelected, hs.isValid⟩
  | select some valid => exact ⟨some, valid⟩

/-! ## Runs -/

/-- The sessions that come of a text in any number of steps. -/
inductive Reachable : Session → Prop where
  | start (t : Text) (dialect : Dialect) (settings : Settings) :
      Reachable (start t dialect settings)
  | step {s s' : Session} (run : Reachable s) (last : s.Step s') : Reachable s'

theorem isSound_start (t : Text) (dialect : Dialect) (settings : Settings) :
    (start t dialect settings).IsSound := by
  refine ⟨List.cons_ne_nil _ _, ?_⟩
  have hdiv : (Document.ofText t).DividedAt .origin [] (Document.ofText t).text := ⟨rfl, rfl⟩
  exact List.forall_mem_singleton.mpr ⟨hdiv.isValid, hdiv.isValid⟩

theorem Reachable.isSound (h : s.Reachable) : s.IsSound := by
  induction h with
  | start t dialect settings => exact isSound_start t dialect settings
  | step run last ih => exact last.isSound ih

/-- Whatever was done with a session since it was started, there are selections and all of them lie
within the document. A command that edits the text, or that goes to the class lists, leaves them in
order: none starts before the one in front of it stops, and no two cover the same range. -/
theorem reachable_selections (h : s.Reachable) :
    s.selections ≠ [] ∧ s.IsValid ∧
      ∀ command outcome after, s.execute command = .ok (outcome, after) →
        (∃ edits rename, outcome = .applied edits rename) ∨
          command = .focusClass ∧ outcome = .moved →
        Selection.IsOrdered after.selections := by
  refine ⟨h.isSound.isSelected, h.isSound.isValid, ?_⟩
  intro command outcome after hexecute houtcome
  cases does_of_execute hexecute with
  | nothing =>
      rcases houtcome with ⟨edits, rename, houtcome⟩ | ⟨-, houtcome⟩
      · cases houtcome
      · cases houtcome
  | jump =>
      rcases houtcome with ⟨edits, rename, houtcome⟩ | ⟨hcommand, -⟩
      · cases houtcome
      · cases hcommand
  | edit targeted commit => exact (sound_of_commit targeted commit).2
  | place targeted commit => exact (sound_of_commit targeted commit).2

/-- Two carets, the later one first. -/
theorem reachable_selections_carets :
    let s := (start ['a', 'b'] .other .default).select [.caret ⟨0, 2⟩, .caret ⟨0, 1⟩]
    let after : Session := ⟨⟨['a', '<', 'd', 'i', 'v', ' ', '/', '>', 'b', '<', 'd', 'i', 'v', ' ',
      '/', '>'], .lf⟩, [.caret ⟨0, 5⟩, .caret ⟨0, 13⟩], .default, .other⟩
    s.Reachable ∧ s.selections ≠ [] ∧ s.IsValid ∧
      s.execute .insertSelfClosingTag = .ok (.applied 2 false, after) ∧
      Selection.IsOrdered after.selections := by
  intro s after
  have hreachable : s.Reachable :=
    .step (.start _ _ _) (.select (List.cons_ne_nil _ _) (by decide))
  obtain ⟨hsome, hvalid, hordered⟩ := reachable_selections hreachable
  have hresolve : ((s.selections.map s.selfClosingEdit).foldl (fun plan e => plan.add e.1)
      EditPlan.empty).resolve s.document =
        .ok [⟨1, 1, Wrap.selfClosingTag ['d', 'i', 'v']⟩,
          ⟨2, 2, Wrap.selfClosingTag ['d', 'i', 'v']⟩] := by cbv
  have hselections : Selection.normalize [.caret ⟨0, 13⟩, .caret ⟨0, 5⟩] = after.selections :=
    Selection.normalize_of_perm (List.Perm.swap _ _ _) (by decide)
  have hexecute : s.execute .insertSelfClosingTag = .ok (.applied 2 false, after) := by
    rw [execute_of_ne_nil hsome, action, result_insertSelfClosingTag,
      result_insertTags_of_resolve hresolve]
    exact congrArg (fun selections => Except.ok (_, { after with selections })) hselections
  exact ⟨hreachable, hsome, hvalid, hexecute, hordered _ _ _ hexecute (.inl ⟨_, _, rfl⟩)⟩

end Session

end MarkupPairs
