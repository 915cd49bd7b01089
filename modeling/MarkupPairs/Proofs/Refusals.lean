import MarkupPairs.Session.Command

/-!
# What a refusal leaves

Nothing takes back what an action did before it was refused. Still a refused command leaves the
session as it was. Whatever it plans, the one step that can be refused is to resolve the plan, and
up to there neither the text nor the selections have changed.
-/

namespace MarkupPairs

namespace Action

variable {σ τ ε η α β : Type}

/-- Whether an action that is refused leaves the state as it was. -/
def IsAtomic (a : Action σ ε α) : Prop :=
  ∀ s e after, a.attempt s = (.error e, after) → after = s

/-- Whether an action is refused in no state. -/
def IsAccepting (a : Action σ ε α) : Prop := ∀ s, ∃ x after, a.attempt s = (.ok x, after)

variable {a : Action σ ε α} {f : α → Action σ ε β}

theorem isAccepting_pure (x : α) : (pure x : Action σ ε α).IsAccepting := fun s => ⟨x, s, rfl⟩

theorem isAccepting_get : (get : Action σ ε σ).IsAccepting := fun s => ⟨s, s, rfl⟩

theorem isAccepting_modify (g : σ → σ) : (modify g : Action σ ε PUnit).IsAccepting :=
  fun s => ⟨⟨⟩, g s, rfl⟩

theorem IsAccepting.bind (ha : a.IsAccepting) (hf : ∀ x, (f x).IsAccepting) :
    (a >>= f).IsAccepting := by
  intro s
  obtain ⟨x, mid, hx⟩ := ha s
  obtain ⟨y, after, hy⟩ := hf x mid
  refine ⟨y, after, ?_⟩
  rw [attempt_bind, hx]
  exact hy

theorem IsAccepting.isAtomic (h : a.IsAccepting) : a.IsAtomic := by
  intro s e after herror
  obtain ⟨x, last, hx⟩ := h s
  cases hx.symm.trans herror

theorem isAtomic_throw (e : ε) : (throw e : Action σ ε α).IsAtomic := by
  rintro s e' after h
  exact (Prod.mk.inj h).2.symm

theorem isAtomic_lift (x : Except ε α) : (liftM x : Action σ ε α).IsAtomic := by
  rintro s e after h
  exact (Prod.mk.inj h).2.symm

/-- An action may go on in any way that is not refused. -/
theorem IsAtomic.bind (ha : a.IsAtomic) (hf : ∀ x, (f x).IsAccepting) : (a >>= f).IsAtomic := by
  intro s e after h
  rw [attempt_bind] at h
  split at h
  next x mid hx =>
    obtain ⟨y, last, hy⟩ := hf x mid
    cases hy.symm.trans h
  next e' mid hrefused =>
    obtain ⟨-, rfl⟩ := Prod.mk.inj h
    exact ha s e' _ hrefused

/-- What has only read the state may still be refused. -/
theorem isAtomic_get_bind {f : σ → Action σ ε β} (hf : ∀ s, (f s).IsAtomic) :
    (get >>= f).IsAtomic := by
  intro s e after h
  rw [attempt_bind] at h
  exact hf s s e after h

theorem IsAtomic.onPart {part : τ → σ} {put : τ → σ → τ} {reason : ε → η} (ha : a.IsAtomic)
    (hput : ∀ t, put t (part t) = t) : (onPart part put reason a).IsAtomic := by
  intro t e after h
  rw [attempt_onPart] at h
  obtain ⟨hrefused, rfl⟩ := Prod.mk.inj h
  cases hx : (a.attempt (part t)).1 with
  | ok x =>
      rw [hx] at hrefused
      cases hrefused
  | error e' =>
      have hafter : (a.attempt (part t)).2 = part t := ha (part t) e' _ (Prod.ext hx rfl)
      exact (congrArg (put t) hafter).trans (hput t)

end Action

/-- The splices are made one by one, and none of them can be refused. -/
theorem EditPlan.isAtomic_carryOut (plan : EditPlan) : plan.carryOut.IsAtomic := by
  refine Action.isAtomic_get_bind fun d => ?_
  refine (Action.isAtomic_lift (plan.resolve d)).bind fun splices => ?_
  refine Action.IsAccepting.bind ?_ fun _ => Action.isAccepting_pure splices
  exact fun d => ⟨_, _, Action.attempt_forIn d _ _⟩

namespace Session

theorem isAtomic_edit (plan : EditPlan) : (edit plan).IsAtomic :=
  plan.isAtomic_carryOut.onPart fun _ => rfl

theorem isAtomic_commit (plan : EditPlan) (targets : List CaretTarget) :
    (commit plan targets).IsAtomic :=
  (isAtomic_edit plan).bind fun splices =>
    (Action.isAccepting_modify _).bind fun _ => Action.isAccepting_pure splices.length

/-- What is said about a plan that was carried out cannot be refused. -/
theorem isAtomic_commit_bind (plan : EditPlan) (targets : List CaretTarget) (f : Nat → Outcome) :
    (commit plan targets >>= fun count => pure (f count)).IsAtomic :=
  (isAtomic_commit plan targets).bind fun _ => Action.isAccepting_pure _

theorem isAtomic_jumpToPartner : jumpToPartner.IsAtomic := by
  refine Action.isAtomic_get_bind fun s => ?_
  split
  next => exact ((Action.isAccepting_modify _).bind fun _ => Action.isAccepting_pure _).isAtomic
  next => exact (Action.isAccepting_pure _).isAtomic

theorem isAtomic_insertTags (edits : List (Edit × CaretTarget)) : (insertTags edits).IsAtomic :=
  (isAtomic_commit _ _).bind fun _ =>
    Action.isAccepting_get.bind fun _ => Action.isAccepting_pure _

theorem isAtomic_deleteSurroundingPair : deleteSurroundingPair.IsAtomic := by
  refine Action.isAtomic_get_bind fun s => ?_
  dsimp only
  split
  next => exact (Action.isAccepting_pure _).isAtomic
  next =>
    split
    next => exact (Action.isAccepting_pure _).isAtomic
    next => exact isAtomic_commit_bind _ _ _

theorem isAtomic_deleteSelectionWithPairs : deleteSelectionWithPairs.IsAtomic :=
  Action.isAtomic_get_bind fun _ => isAtomic_commit_bind _ _ _

theorem isAtomic_focusClass : focusClass.IsAtomic := by
  refine Action.isAtomic_get_bind fun s => ?_
  dsimp only
  split
  next => exact Action.isAtomic_throw _
  next =>
    split
    next => exact (Action.isAccepting_pure _).isAtomic
    next => exact isAtomic_commit_bind _ _ _

/-- A command that is refused leaves the session as it was. -/
theorem isAtomic_perform (command : Command) : (perform command).IsAtomic := by
  refine Action.isAtomic_get_bind fun s => ?_
  split
  next => exact Action.isAtomic_throw _
  next =>
    cases command with
    | jumpToPartner => exact isAtomic_jumpToPartner
    | surroundWithTag asked => exact Action.isAtomic_get_bind fun _ => isAtomic_insertTags _
    | insertSelfClosingTag => exact Action.isAtomic_get_bind fun _ => isAtomic_insertTags _
    | deleteSurroundingPair => exact isAtomic_deleteSurroundingPair
    | deleteSelectionWithPairs => exact isAtomic_deleteSelectionWithPairs
    | focusClass => exact isAtomic_focusClass

end Session

end MarkupPairs
