/-!
# Actions

An action works on a state and comes to a result, or is refused. It leaves a state either way:
nothing takes back what was done before a refusal, so an action that is to leave no trace of one has
to see to that itself.
-/

namespace MarkupPairs

/-- What works on a state of type `σ` and comes to a result, or is refused for a reason. -/
abbrev Action (σ ε α : Type) : Type := ExceptT ε (StateM σ) α

namespace Action

variable {σ τ ε η α β : Type}

/-- What comes of an action, and the state that it leaves. -/
def attempt (a : Action σ ε α) (s : σ) : Except ε α × σ := a.run.run s

/-- What comes of an action with the state that it leaves, or else why it is refused. -/
def result (a : Action σ ε α) (s : σ) : Except ε (α × σ) :=
  match a.attempt s with
  | (.ok x, after) => .ok (x, after)
  | (.error e, _) => .error e

/-- An action on a part of a state as one on the whole of it. -/
def onPart (part : τ → σ) (put : τ → σ → τ) (reason : ε → η) (a : Action σ ε α) :
    Action τ η α :=
  ExceptT.mk fun s =>
    let (x, after) := a.attempt (part s)
    (x.mapError reason, put s after)

section

variable (a : Action σ ε α) (s : σ)

@[simp] theorem attempt_pure (x : α) : attempt (pure x : Action σ ε α) s = (.ok x, s) := rfl

@[simp] theorem attempt_get : attempt (get : Action σ ε σ) s = (.ok s, s) := rfl

/-- What is refused from the start does nothing. -/
@[simp] theorem attempt_lift (x : Except ε α) :
    attempt (liftM x : Action σ ε α) s = (x, s) := rfl

theorem attempt_onPart (part : τ → σ) (put : τ → σ → τ) (reason : ε → η) (t : τ) :
    attempt (onPart part put reason a) t =
      ((attempt a (part t)).1.mapError reason, put t (attempt a (part t)).2) := rfl

theorem attempt_bind (f : α → Action σ ε β) :
    attempt (a >>= f) s =
      match attempt a s with
      | (.ok x, after) => attempt (f x) after
      | (.error e, after) => (.error e, after) := by
  simp only [attempt, ExceptT.run_bind, StateT.run_bind]
  change (match StateT.run a.run s with | (x, after) => _) = _
  cases StateT.run a.run s with
  | mk x after => cases x <;> rfl

/-- What changes the state once for each item of a list is never refused. -/
theorem attempt_forIn (f : α → σ → σ) (xs : List α) :
    attempt (forIn xs PUnit.unit fun x _ => do
        (modify (f x) : Action σ ε PUnit)
        pure (.yield PUnit.unit)) s =
      (.ok ⟨⟩, xs.foldl (fun s x => f x s) s) := by
  induction xs generalizing s with
  | nil => rfl
  | cons x xs ih =>
    rw [List.forIn_cons, attempt_bind]
    exact ih (f x s)

end

section

variable {a : Action σ ε α} {s after : σ} {x : α}

theorem result_eq_ok_iff : a.result s = .ok (x, after) ↔ a.attempt s = (.ok x, after) := by
  rw [result]
  rcases a.attempt s with ⟨y | y, last⟩ <;> simp

@[simp] theorem result_pure : result (pure x : Action σ ε α) s = .ok (x, s) := rfl

theorem result_bind (a : Action σ ε α) (f : α → Action σ ε β) (s : σ) :
    result (a >>= f) s = a.result s >>= fun r => (f r.1).result r.2 := by
  rw [result, attempt_bind, result]
  rcases a.attempt s with ⟨y | y, last⟩ <;> rfl

/-- An action that ends with something to come to. -/
@[simp] theorem result_bind_pure (a : Action σ ε α) (f : α → β) (s : σ) :
    result (a >>= fun x => pure (f x)) s = (a.result s).map fun r => (f r.1, r.2) := by
  rw [result_bind]
  cases a.result s <;> rfl

/-- An action that begins with reading the state. -/
@[simp] theorem result_get_bind (f : σ → Action σ ε β) (s : σ) :
    result (get >>= f) s = (f s).result s := by
  rw [result_bind]
  rfl

end

end Action

end MarkupPairs
