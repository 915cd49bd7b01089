import MarkupPairs.Proofs.Refusals
import MarkupPairs.Proofs.Splicing

/-!
# What commands do

A command that is not refused finds nothing to do, moves the selections, or carries out one plan and
puts the selections where their targets are. So no command changes the settings, the dialect or the
line ending, and without an edit the text stays as it is. Commands in a row go as far as none of
them is refused.
-/

namespace MarkupPairs

/-- A plan that is carried out keeps the line ending, and the text where it has no edits. -/
theorem Document.keeps_of_apply {d after : Document} {plan : EditPlan} {splices : List Splice}
    (h : d.apply plan = .ok (splices, after)) :
    after.ending = d.ending ∧ (splices = [] → after = d) := by
  rw [apply_of_resolve (resolve_of_apply h)] at h
  obtain ⟨-, rfl⟩ := Prod.mk.inj (Except.ok.inj h)
  refine ⟨rfl, ?_⟩
  rintro rfl
  rfl

namespace Session

variable {s after : Session} {command : Command} {outcome : Outcome} {plan : EditPlan}
  {targets : List CaretTarget} {count : Nat}

/-! ## One command -/

/-- What a command that is not refused does to a session. -/
inductive Does (s : Session) : Command → Outcome → Session → Prop where
  | nothing {command : Command} {missing : Missing} : Does s command (.notFound missing) s
  | jump : Does s .jumpToPartner .moved { s with
      selections := s.selections.map fun selection =>
        ((s.jumpTarget? selection).map selection.moveTo).getD selection }
  | edit {command : Command} {after : Session} {plan : EditPlan} {targets : List CaretTarget}
      {count : Nat} {rename : Bool} (targeted : targets ≠ [])
      (commit : (commit plan targets).result s = .ok (count, after)) :
      Does s command (.applied count rename) after
  /-- No class attribute has to be added, so the plan has no edits. -/
  | place {after : Session} {plan : EditPlan} {targets : List CaretTarget} (targeted : targets ≠ [])
      (commit : (commit plan targets).result s = .ok (0, after)) : Does s .focusClass .moved after

/-- A plan that is carried out changes nothing but the text and the selections. -/
theorem commit_eq_ok_iff : (commit plan targets).result s = .ok (count, after) ↔
    ∃ splices document, s.document.apply plan = .ok (splices, document) ∧ splices.length = count ∧
      after = { s with
        document := document
        selections :=
          Selection.normalize (targets.map (CaretTarget.resolve splices document)) } := by
  rw [result_commit]
  cases happly : s.document.apply plan with
  | error e => simp
  | ok result =>
      obtain ⟨splices, document⟩ := result
      simp [eq_comm]

/-- The outcome of a command that carries out a plan hangs on the number of edits. -/
theorem exists_of_map_commit {f : Nat × Session → Outcome}
    (h : ((commit plan targets).result s).map (fun result => (f result, result.2)) =
      .ok (outcome, after)) :
    ∃ count, (commit plan targets).result s = .ok (count, after) ∧ outcome = f (count, after) := by
  cases hcommit : (commit plan targets).result s with
  | error e =>
      rw [hcommit] at h
      cases h
  | ok result =>
      rw [hcommit] at h
      obtain ⟨rfl, rfl⟩ := Prod.mk.inj (Except.ok.inj h)
      exact ⟨_, rfl, rfl⟩

theorem does_of_jumpToPartner (h : jumpToPartner.result s = .ok (outcome, after)) :
    s.Does .jumpToPartner outcome after := by
  rw [result_jumpToPartner] at h
  have hjump := Except.ok.inj h
  split at hjump
  next =>
    obtain ⟨rfl, rfl⟩ := Prod.mk.inj hjump
    exact .jump
  next =>
    obtain ⟨rfl, rfl⟩ := Prod.mk.inj hjump
    exact .nothing

/-- To insert tags is to carry out the plan of their edits. -/
theorem commit_of_insertTags {edits : List (Edit × CaretTarget)}
    (h : (insertTags edits).result s = .ok (outcome, after)) :
    ∃ count, (commit (edits.foldl (fun plan e => plan.add e.1) .empty) (edits.map (·.2))).result s =
        .ok (count, after) ∧
      outcome = .applied count after.settings.autoRename := by
  rw [result_insertTags] at h
  exact exists_of_map_commit h

/-- Inserting tags by the splices that their edits come to. -/
theorem result_insertTags_of_resolve {edits : List (Edit × CaretTarget)} {splices : List Splice}
    (h : (edits.foldl (fun plan e => plan.add e.1) EditPlan.empty).resolve s.document =
      .ok splices) :
    let document : Document := ⟨Splice.interleave s.document.text 0 splices, s.document.ending⟩
    (insertTags edits).result s = .ok (.applied splices.length s.settings.autoRename, { s with
      document
      selections :=
        Selection.normalize ((edits.map (·.2)).map (·.resolve splices document)) }) := by
  rw [result_insertTags, result_commit, Document.apply_of_resolve h]
  rfl

/-- Deleting a pair finds none, or deletes a tag with its partner and keeps the selections. -/
theorem cases_of_deleteSurroundingPair (h : deleteSurroundingPair.result s = .ok (outcome, after)) :
    (∃ missing, outcome = .notFound missing ∧ after = s) ∨
      ∃ tag count, (s.selections.head?.map Selection.active).bind
          (s.document.surroundingTag? s.settings.limits) = some tag ∧
        (commit (s.document.deletionPlan (s.document.lineDeletions (tag.range ::
          (s.document.partner? s.settings.limits tag).toList.map Tag.range)))
          (s.selections.map s.keep)).result s = .ok (count, after) ∧
        outcome = .applied count false := by
  rw [result_deleteSurroundingPair] at h
  split at h
  next =>
    obtain ⟨rfl, rfl⟩ := Prod.mk.inj (Except.ok.inj h)
    exact .inl ⟨_, rfl, rfl⟩
  next tag htag =>
    split at h
    next =>
      obtain ⟨rfl, rfl⟩ := Prod.mk.inj (Except.ok.inj h)
      exact .inl ⟨_, rfl, rfl⟩
    next =>
      obtain ⟨count, hcommit, rfl⟩ := exists_of_map_commit h
      exact .inr ⟨tag, count, htag, hcommit, rfl⟩

/-- Going to the class list finds no tag, or adds the attributes that are missing. -/
theorem cases_of_focusClass (h : focusClass.result s = .ok (outcome, after)) :
    (∃ missing, outcome = .notFound missing ∧ after = s) ∨
      ∃ spelling count, s.dialect.emptyClassAttribute = some spelling ∧
        (commit (attributePlan s.document spelling ((s.selections.map s.classPlace?).filterMap id))
          (s.selections.map fun selection => ((s.classPlace? selection).map
            (placeTarget s.document spelling)).getD (s.keep selection))).result s =
          .ok (count, after) ∧
        outcome = if count = 0 then .moved else .applied count false := by
  rw [result_focusClass] at h
  split at h
  next => cases h
  next spelling hspelling =>
    split at h
    next =>
      obtain ⟨rfl, rfl⟩ := Prod.mk.inj (Except.ok.inj h)
      exact .inl ⟨_, rfl, rfl⟩
    next =>
      obtain ⟨count, hcommit, rfl⟩ := exists_of_map_commit h
      exact .inr ⟨spelling, count, hspelling, hcommit, rfl⟩

theorem does_of_insertTags {edits : List (Edit × CaretTarget)} (hsome : edits ≠ [])
    (h : (insertTags edits).result s = .ok (outcome, after)) : s.Does command outcome after := by
  obtain ⟨count, hcommit, rfl⟩ := commit_of_insertTags h
  exact .edit (List.map_eq_nil_iff.not.mpr hsome) hcommit

theorem does_of_deleteSurroundingPair (hsome : s.selections ≠ [])
    (h : deleteSurroundingPair.result s = .ok (outcome, after)) :
    s.Does .deleteSurroundingPair outcome after := by
  rcases cases_of_deleteSurroundingPair h with ⟨missing, rfl, rfl⟩ | ⟨tag, count, -, hcommit, rfl⟩
  · exact .nothing
  · exact .edit (List.map_eq_nil_iff.not.mpr hsome) hcommit

theorem does_of_deleteSelectionWithPairs
    (h : deleteSelectionWithPairs.result s = .ok (outcome, after)) :
    s.Does .deleteSelectionWithPairs outcome after := by
  rw [result_deleteSelectionWithPairs] at h
  obtain ⟨count, hcommit, rfl⟩ := exists_of_map_commit h
  exact .edit (List.cons_ne_nil _ _) hcommit

theorem does_of_focusClass (hsome : s.selections ≠ [])
    (h : focusClass.result s = .ok (outcome, after)) :
    s.Does .focusClass outcome after := by
  rcases cases_of_focusClass h with ⟨missing, rfl, rfl⟩ | ⟨spelling, count, -, hcommit, rfl⟩
  · exact .nothing
  · have htargeted {f : Selection → CaretTarget} : s.selections.map f ≠ [] :=
      List.map_eq_nil_iff.not.mpr hsome
    split
    next hzero =>
      obtain rfl : count = 0 := hzero
      exact .place htargeted hcommit
    next => exact .edit htargeted hcommit

theorem does_of_execute (h : s.execute command = .ok (outcome, after)) :
    s.Does command outcome after := by
  by_cases hsome : s.selections = []
  · rw [execute_of_nil hsome] at h
    cases h
  · rw [execute_of_ne_nil hsome] at h
    cases command with
    | jumpToPartner => exact does_of_jumpToPartner h
    | surroundWithTag name =>
        exact does_of_insertTags (List.map_eq_nil_iff.not.mpr hsome)
          ((result_surroundWithTag name s).symm.trans h)
    | insertSelfClosingTag =>
        exact does_of_insertTags (List.map_eq_nil_iff.not.mpr hsome)
          ((result_insertSelfClosingTag s).symm.trans h)
    | deleteSurroundingPair => exact does_of_deleteSurroundingPair hsome h
    | deleteSelectionWithPairs => exact does_of_deleteSelectionWithPairs h
    | focusClass => exact does_of_focusClass hsome h

/-- What an attempt at a command leaves as it was, going by what came of it. -/
structure Keeps (s : Session) (result : Except CommandError Outcome) (after : Session) :
    Prop where
  of_error : ∀ e, result = .error e → after = s
  of_notFound : ∀ missing, result = .ok (.notFound missing) → after = s
  of_moved : result = .ok .moved → after.document = s.document
  settings_eq : after.settings = s.settings
  dialect_eq : after.dialect = s.dialect
  ending_eq : after.document.ending = s.document.ending

/-- A command that is not refused keeps the settings, the dialect and the line ending. -/
theorem Does.keeps (h : s.Does command outcome after) : s.Keeps (.ok outcome) after := by
  cases h with
  | nothing => exact ⟨nofun, fun _ _ => rfl, fun _ => rfl, rfl, rfl, rfl⟩
  | jump => exact ⟨nofun, nofun, fun _ => rfl, rfl, rfl, rfl⟩
  | edit targeted commit =>
      obtain ⟨splices, document, happly, rfl, rfl⟩ := commit_eq_ok_iff.mp commit
      exact ⟨nofun, nofun, nofun, rfl, rfl, (Document.keeps_of_apply happly).1⟩
  | place targeted commit =>
      obtain ⟨splices, document, happly, hcount, rfl⟩ := commit_eq_ok_iff.mp commit
      obtain ⟨hending, hdocument⟩ := Document.keeps_of_apply happly
      exact ⟨nofun, nofun, fun _ => hdocument (List.length_eq_zero_iff.mp hcount), rfl, rfl,
        hending⟩

theorem keeps_attempt (s : Session) (command : Command) :
    s.Keeps (s.attempt command).1 (s.attempt command).2 := by
  rcases hattempt : s.attempt command with ⟨e | outcome, after⟩
  · obtain rfl := isAtomic_perform command s e after hattempt
    exact ⟨fun _ _ => rfl, nofun, nofun, rfl, rfl, rfl⟩
  · exact (does_of_execute (execute_eq_ok_iff.mpr hattempt)).keeps

/-! ## Commands in a row -/

theorem executeAll_nil (s : Session) : s.executeAll [] = (.ok [], s) := rfl

theorem executeAll_cons_of_ok {mid : Session} (h : s.attempt command = (.ok outcome, mid))
    (rest : List Command) :
    s.executeAll (command :: rest) =
      ((mid.executeAll rest).1.map (outcome :: ·), (mid.executeAll rest).2) := by
  rw [attempt] at h
  simp only [executeAll, performAll, List.mapM_cons, Action.attempt_bind, h]
  rcases (rest.mapM perform).attempt mid with ⟨e | outcomes, after⟩ <;> rfl

theorem executeAll_cons_of_error {e : CommandError} (h : s.attempt command = (.error e, after))
    (rest : List Command) : s.executeAll (command :: rest) = (.error e, after) := by
  rw [attempt] at h
  simp only [executeAll, performAll, List.mapM_cons, Action.attempt_bind, h]

/-- Commands that are carried out one by one, none of them refused, with what comes of each. -/
inductive Runs : Session → List Command → List Outcome → Session → Prop where
  | nil (s : Session) : Runs s [] [] s
  | cons {s mid after : Session} {command : Command} {outcome : Outcome} {rest : List Command}
      {outcomes : List Outcome} (first : s.attempt command = (.ok outcome, mid))
      (later : Runs mid rest outcomes after) : Runs s (command :: rest) (outcome :: outcomes) after

/-- The commands of a list that are carried out one by one until one is refused, if any is. -/
structure RunsAsFar (s : Session) (commands done : List Command) (outcomes : List Outcome)
    (after : Session) : Prop where
  begins : done <+: commands
  runs : s.Runs done outcomes after
  longest : ∀ more, more <+: commands → (∃ outcomes after, s.Runs more outcomes after) →
    more <+: done

theorem exists_runsAsFar (s : Session) (commands : List Command) :
    ∃ done outcomes after, s.RunsAsFar commands done outcomes after ∧
      (done = commands ∧ s.executeAll commands = (.ok outcomes, after) ∨
        ∃ command e, done ++ [command] <+: commands ∧
          after.attempt command = (.error e, after) ∧
          s.executeAll commands = (.error e, after)) := by
  induction commands generalizing s with
  | nil =>
      exact ⟨[], [], s, ⟨List.prefix_rfl, .nil s, fun more hmore _ => hmore⟩,
        .inl ⟨rfl, s.executeAll_nil⟩⟩
  | cons command rest ih =>
      rcases hattempt : s.attempt command with ⟨e | outcome, mid⟩
      · obtain rfl := isAtomic_perform command s e mid hattempt
        refine ⟨[], [], mid, ⟨List.nil_prefix, .nil mid, ?_⟩,
          .inr ⟨command, e, List.prefix_append [command] rest, hattempt,
            executeAll_cons_of_error hattempt rest⟩⟩
        -- to get any further the refused command would have to be carried out
        rintro more hmore ⟨outcomes, after, hruns⟩
        cases hruns with
        | nil => exact List.prefix_rfl
        | cons first later =>
            obtain ⟨rfl, -⟩ := List.cons_prefix_cons.mp hmore
            rw [hattempt] at first
            cases first
      · obtain ⟨done, outcomes, after, ⟨hbegins, hruns, hlongest⟩, hresult⟩ := ih mid
        refine ⟨command :: done, outcome :: outcomes, after,
          ⟨List.cons_prefix_cons.mpr ⟨rfl, hbegins⟩, .cons hattempt hruns, ?_⟩, ?_⟩
        · rintro more hmore ⟨outcomes', after', hruns'⟩
          cases hruns' with
          | nil => exact List.nil_prefix
          | cons first later =>
              obtain ⟨rfl, hbegins'⟩ := List.cons_prefix_cons.mp hmore
              rw [hattempt] at first
              obtain ⟨-, rfl⟩ := Prod.mk.inj first
              exact List.cons_prefix_cons.mpr ⟨rfl, hlongest _ hbegins' ⟨_, _, later⟩⟩
        · rw [executeAll_cons_of_ok hattempt]
          rcases hresult with ⟨rfl, hall⟩ | ⟨refused, e, hnext, hrefused, hall⟩
          · refine .inl ⟨rfl, ?_⟩
            rw [hall]
            rfl
          · refine .inr ⟨refused, e, List.cons_prefix_cons.mpr ⟨rfl, hnext⟩, hrefused, ?_⟩
            rw [hall]
            rfl

/-- A command that is refused or finds nothing leaves the session as it was, one that only moves the
selections leaves the text, and none changes the settings, the dialect or the line ending. Commands
in a row are carried out one by one until one is refused: the session is left as the ones before
that make it, and what comes of it is what comes of each of them, or why that one is refused. -/
theorem attempt_keeps_executeAll_runs (s : Session) :
    (∀ command, s.Keeps (s.attempt command).1 (s.attempt command).2) ∧
    ∀ commands, ∃ done outcomes after, s.RunsAsFar commands done outcomes after ∧
      (done = commands ∧ s.executeAll commands = (.ok outcomes, after) ∨
        ∃ command e, done ++ [command] <+: commands ∧
          after.attempt command = (.error e, after) ∧
          s.executeAll commands = (.error e, after)) :=
  ⟨s.keeps_attempt, s.exists_runsAsFar⟩

end Session

end MarkupPairs
