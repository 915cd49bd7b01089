import MarkupPairs.Proofs.Angles
import MarkupPairs.Tag.Within

/-!
# The pass over the angles of a text

The pass reads a text once and knows no more of it than a stack of indices. What it says of a `<`
when it is through is nevertheless a fact about the text behind that one alone: the `>` that takes
it is the one up to which the angles in between are balanced. The stack carries this from character
to character: a `<` stands as deep on it as there are angles open behind it.
-/

namespace MarkupPairs

namespace Text

/-- Whether a `<` at an index is open at the end of a text, with `n` later ones open as well. -/
def OpensAt (t : Text) (n i : Nat) : Prop :=
  ∃ pre mid : Text, t = pre ++ '<' :: mid ∧ pre.length = i ∧ Bracket.angle.depth? 0 mid = some n

/-- Whether the `>` at an index takes the `<` at another one. -/
def TakesAt (t : Text) (i j : Nat) : Prop :=
  ∃ pre inner post : Text, t = pre ++ (inner.angled ++ post) ∧ pre.length = i ∧
    inner.IsBalanced ∧ j = i + 1 + inner.length

variable {t : Text} {c : Char} {n i j : Nat}

theorem OpensAt.lt_length (h : t.OpensAt n i) : i < t.length := by
  obtain ⟨pre, mid, rfl, rfl, -⟩ := h
  rw [List.length_append, List.length_cons]
  omega

theorem not_opensAt_nil : ¬OpensAt [] n i := fun h => Nat.not_lt_zero i h.lt_length

theorem not_takesAt_nil : ¬TakesAt [] i j := by
  rintro ⟨pre, inner, post, hnil, -⟩
  simp [angled] at hnil

/-- A character more is itself a `<` that opens, or counts for those that did. -/
theorem opensAt_concat :
    (t ++ [c]).OpensAt n i ↔
      c = '<' ∧ n = 0 ∧ i = t.length ∨
        ∃ m, t.OpensAt m i ∧ Bracket.angle.depth? m [c] = some n := by
  constructor
  · rintro ⟨pre, mid, ht, rfl, hmid⟩
    cases mid using List.reverseRecOn with
    | nil =>
        obtain ⟨rfl, hc⟩ := List.append_inj' ht rfl
        exact .inl ⟨(List.cons.inj hc).1, (Option.some.inj hmid).symm, rfl⟩
    | append_singleton mid x =>
        rw [← List.cons_append, ← List.append_assoc] at ht
        obtain ⟨rfl, hx⟩ := List.append_inj' ht rfl
        obtain rfl := (List.cons.inj hx).1
        rw [Bracket.depth?_append] at hmid
        obtain ⟨m, hm, hn⟩ := Option.bind_eq_some_iff.mp hmid
        exact .inr ⟨m, ⟨pre, mid, rfl, rfl, hm⟩, hn⟩
  · rintro (⟨rfl, rfl, rfl⟩ | ⟨m, ⟨pre, mid, rfl, rfl, hm⟩, hn⟩)
    · exact ⟨t, [], rfl, rfl, rfl⟩
    · refine ⟨pre, mid ++ [c], by simp, rfl, ?_⟩
      rw [Bracket.depth?_append, hm]
      exact hn

/-- No `>` takes a `<` that is open at the end of the text. -/
theorem OpensAt.not_takesAt (h : t.OpensAt n i) : ¬t.TakesAt i j := by
  obtain ⟨pre, mid, rfl, rfl, hmid⟩ := h
  rintro ⟨pre', inner, post, ht, hlength, hinner, -⟩
  rw [angled_append] at ht
  obtain ⟨-, hbehind⟩ := List.append_inj ht hlength.symm
  obtain rfl := (List.cons.inj hbehind).2
  rw [Bracket.depth?_append, hinner.depth?] at hmid
  cases hmid

/-- What takes a `<` takes it for good, and a `>` more takes the latest that is open. -/
theorem takesAt_concat :
    (t ++ [c]).TakesAt i j ↔ t.TakesAt i j ∨ c = '>' ∧ t.OpensAt 0 i ∧ j = t.length := by
  constructor
  · rintro ⟨pre, inner, post, ht, rfl, hinner, rfl⟩
    cases post using List.reverseRecOn with
    | nil =>
        rw [List.append_nil, angled, ← List.append_assoc] at ht
        obtain ⟨rfl, hc⟩ := List.append_inj' ht rfl
        refine .inr ⟨(List.cons.inj hc).1, ⟨pre, inner, rfl, rfl, hinner⟩, ?_⟩
        rw [List.length_append, List.length_cons]
        omega
    | append_singleton post x =>
        rw [← List.append_assoc, ← List.append_assoc] at ht
        obtain ⟨rfl, -⟩ := List.append_inj' ht rfl
        exact .inl ⟨pre, inner, post, List.append_assoc _ _ _, rfl, hinner, rfl⟩
  · rintro (⟨pre, inner, post, rfl, rfl, hinner, rfl⟩ | ⟨rfl, ⟨pre, inner, rfl, rfl, hinner⟩, rfl⟩)
    · exact ⟨pre, inner, post ++ [c], by simp, rfl, hinner, rfl⟩
    · refine ⟨pre, inner, [], by simp [angled], rfl, hinner, ?_⟩
      rw [List.length_append, List.length_cons]
      omega

theorem takesAt_concat_of_ne (hc : c ≠ '>') : (t ++ [c]).TakesAt i j ↔ t.TakesAt i j := by
  rw [takesAt_concat, or_iff_left fun h => hc h.1]

end Text

namespace AnglePass

/-- What a pass has at hand when it has read a text, of which there are `length` characters in
all. -/
structure HasRead (pass : AnglePass) (t : Text) (length : Nat) : Prop where
  read_eq : pass.read = t.length
  length_closes : pass.closes.length = length
  opened_iff : ∀ n i, pass.opened[n]? = some i ↔ t.OpensAt n i
  closes_iff : ∀ i j, pass.closes[i]? = some (some j) ↔ t.TakesAt i j

variable {pass : AnglePass} {t : Text} {c : Char} {length i j : Nat}

theorem hasRead_start (length : Nat) : (start length).HasRead [] length where
  read_eq := rfl
  length_closes := List.length_replicate
  opened_iff n i := by simp [start, Text.not_opensAt_nil]
  closes_iff i j := by simp [start, Text.not_takesAt_nil, List.getElem?_replicate]

theorem HasRead.push (h : pass.HasRead t length) : pass.push.HasRead (t ++ ['<']) length where
  read_eq := by rw [List.length_append, ← h.read_eq]; rfl
  length_closes := h.length_closes
  opened_iff n i := by
    rw [Text.opensAt_concat, AnglePass.push]
    cases n with
    | zero =>
        rw [List.getElem?_cons_zero, h.read_eq, Option.some.injEq]
        constructor
        · rintro rfl
          exact .inl ⟨rfl, rfl, rfl⟩
        · rintro (⟨-, -, rfl⟩ | ⟨m, -, hm⟩)
          · rfl
          · cases hm
    | succ n =>
        rw [List.getElem?_cons_succ, h.opened_iff]
        constructor
        · intro hopens
          exact .inr ⟨n, hopens, rfl⟩
        · rintro (⟨-, hzero, -⟩ | ⟨m, hopens, hm⟩)
          · cases hzero
          · obtain rfl := Nat.succ.inj (Option.some.inj hm)
            exact hopens
  closes_iff i j := by
    rw [Text.takesAt_concat_of_ne (by decide)]
    exact h.closes_iff i j

theorem HasRead.skip (h : pass.HasRead t length) (hopen : c ≠ '<') (hclose : c ≠ '>') :
    pass.skip.HasRead (t ++ [c]) length where
  read_eq := by rw [List.length_append, ← h.read_eq]; rfl
  length_closes := h.length_closes
  opened_iff n i := by
    rw [Text.opensAt_concat, AnglePass.skip, h.opened_iff]
    simp only [hopen, false_and, false_or, Bracket.depth?_other (b := .angle) hopen hclose]
    constructor
    · intro hopens
      exact ⟨n, hopens, rfl⟩
    · rintro ⟨m, hopens, hm⟩
      exact Option.some.inj hm ▸ hopens
  closes_iff i j := by
    rw [Text.takesAt_concat_of_ne hclose]
    exact h.closes_iff i j

theorem HasRead.pop (h : pass.HasRead t length) (hlength : t.length < length) :
    pass.pop.HasRead (t ++ ['>']) length where
  read_eq := by rw [List.length_append, ← h.read_eq]; rfl
  length_closes := by
    rw [AnglePass.pop, ← h.length_closes]
    dsimp only
    split
    next => exact List.length_set
    next => rfl
  opened_iff n i := by
    rw [Text.opensAt_concat, AnglePass.pop, List.getElem?_tail, h.opened_iff]
    constructor
    · intro hopens
      exact .inr ⟨n + 1, hopens, rfl⟩
    · rintro (⟨hopen, -⟩ | ⟨_ | m, hopens, hm⟩)
      · cases hopen
      · cases hm
      · exact Option.some.inj hm ▸ hopens
  closes_iff i j := by
    have htop (k : Nat) : pass.opened.head? = some k ↔ t.OpensAt 0 k := by
      rw [List.head?_eq_getElem?, h.opened_iff]
    rw [Text.takesAt_concat, ← h.closes_iff, ← htop, ← h.read_eq, AnglePass.pop]
    dsimp only
    split
    next k hk =>
      -- the latest `<` that is open was taken by none before
      have hfree : ¬t.TakesAt k j := ((htop k).mp hk).not_takesAt
      have hlt : k < pass.closes.length := by
        rw [h.length_closes]
        exact Nat.lt_trans ((htop k).mp hk).lt_length hlength
      rw [← h.closes_iff] at hfree
      by_cases hik : k = i
      · subst k
        rw [List.getElem?_set_self hlt, hk]
        simp [hfree, eq_comm]
      · rw [List.getElem?_set_ne hik, hk]
        simp [hik]
    next hnone =>
      rw [hnone]
      simp

theorem HasRead.step (h : pass.HasRead t length) (hlength : t.length < length) (c : Char) :
    (pass.step c).HasRead (t ++ [c]) length := by
  rw [AnglePass.step]
  split
  next hopen => exact hopen ▸ h.push
  next hopen =>
    split
    next hclose => exact hclose ▸ h.pop hlength
    next hclose => exact h.skip hopen hclose

theorem hasRead_foldl (hlength : t.length ≤ length) :
    (t.foldl AnglePass.step (start length)).HasRead t length := by
  induction t using List.reverseRecOn with
  | nil => exact hasRead_start length
  | append_singleton t c ih =>
      rw [List.length_append] at hlength
      rw [List.foldl_append]
      exact (ih (Nat.le_of_succ_le hlength)).step hlength c

/-- The pass over a text finds for each `<` the `>` that takes it. -/
theorem closes_run (t : Text) : (run t).closes[i]? = some (some j) ↔ t.TakesAt i j :=
  (hasRead_foldl (Nat.le_refl t.length)).closes_iff i j

end AnglePass

end MarkupPairs
