import Mathlib.Algebra.Ring.Int.Defs
import MarkupPairs.Proofs.Resolution

/-!
# Splices as one substitution

Splices are made one after the other, the last one first. What comes of that is the text in which
every stretch is replaced at once, all offsets being those of the text as it was: a splice changes
nothing in front of it, which is where the ones that are still to come are.
-/

namespace MarkupPairs

namespace Splice

/-- Whether splices come in order from offset `k` on, none before the one in front of it stops, and
stop no later than at offset `upto`. -/
def Apart (upto : Nat) : Nat → List Splice → Prop
  | k, [] => k ≤ upto
  | k, s :: rest => k ≤ s.start ∧ s.start ≤ s.stop ∧ Apart upto s.stop rest

/-- A text from offset `k` on with the stretches of splices replaced all at once: the text up to the
first one, what is put in its place, and the same from where it stops. -/
def interleave (t : Text) : Nat → List Splice → Text
  | k, [] => t.drop k
  | k, s :: rest => (t.take s.start).drop k ++ (s.text ++ interleave t s.stop rest)

/-- Whether a splice replaces characters from an offset on. -/
def replacesFrom (start : Nat) (s : Splice) : Bool := s.start == start && start < s.stop

variable {t : Text} {splices pre post : List Splice} {s : Splice} {k upto : Nat}

theorem replacesFrom_iff {start : Nat} :
    s.replacesFrom start ↔ s.start = start ∧ start < s.stop := by
  simp [replacesFrom]

theorem Apart.le (h : Apart upto k splices) : k ≤ upto := by
  induction splices generalizing k with
  | nil => exact h
  | cons s rest ih =>
      obtain ⟨hk, hle, hrest⟩ := h
      exact Nat.le_trans hk (Nat.le_trans hle (ih hrest))

theorem Apart.le_start (h : Apart upto k splices) : ∀ s ∈ splices, k ≤ s.start := by
  induction splices generalizing k with
  | nil => exact fun s hs => absurd hs List.not_mem_nil
  | cons s rest ih =>
      obtain ⟨hk, hle, hrest⟩ := h
      exact List.forall_mem_cons.mpr
        ⟨hk, fun x hx => Nat.le_trans hk (Nat.le_trans hle (ih hrest x hx))⟩

theorem Apart.stop_le (h : Apart upto k splices) :
    ∀ s ∈ splices, s.start ≤ s.stop ∧ s.stop ≤ upto := by
  induction splices generalizing k with
  | nil => exact fun s hs => absurd hs List.not_mem_nil
  | cons s rest ih =>
      obtain ⟨-, hle, hrest⟩ := h
      exact List.forall_mem_cons.mpr ⟨⟨hle, hrest.le⟩, ih hrest⟩

theorem apart_of_pairwise (hk : k ≤ upto)
    (hends : ∀ s ∈ splices, k ≤ s.start ∧ s.start ≤ s.stop ∧ s.stop ≤ upto)
    (hapart : splices.Pairwise fun a b => a.stop ≤ b.start) : Apart upto k splices := by
  induction splices generalizing k with
  | nil => exact hk
  | cons s rest ih =>
      obtain ⟨⟨hs, hle, hstop⟩, hrest⟩ := List.forall_mem_cons.mp hends
      obtain ⟨hbehind, hapart⟩ := List.pairwise_cons.mp hapart
      exact ⟨hs, hle, ih hstop (fun b hb => ⟨hbehind b hb, (hrest b hb).2⟩) hapart⟩

/-- The splices in front of one come before it starts, those behind it from where it stops. -/
theorem Apart.of_append (h : Apart upto k (pre ++ s :: post)) :
    Apart s.start k pre ∧ s.start ≤ s.stop ∧ Apart upto s.stop post := by
  induction pre generalizing k with
  | nil => exact h
  | cons a pre ih =>
      obtain ⟨hk, hle, hrest⟩ := h
      obtain ⟨hpre, hs, hpost⟩ := ih hrest
      exact ⟨⟨hk, hle, hpre⟩, hs, hpost⟩

/-- What is made of a text is what is made of the part in front of a splice, its replacement, and
what is made of the part behind it. -/
theorem interleave_append (h : Apart upto k (pre ++ s :: post)) :
    interleave t k (pre ++ s :: post) =
      interleave (t.take s.start) k pre ++ (s.text ++ interleave t s.stop post) := by
  induction pre generalizing k with
  | nil => rfl
  | cons a pre ih =>
      obtain ⟨-, hle, hrest⟩ := h
      have hstart : a.start ≤ s.start := Nat.le_trans hle hrest.of_append.1.le
      rw [List.cons_append, interleave, interleave, ih hrest, List.take_take,
        Nat.min_eq_left hstart, List.append_assoc, List.append_assoc]

/-- One splice after the other, the last one first, is all of them at once. What stands in front of
them stays as it is. -/
theorem applyAll_eq_interleave (h : Apart t.length k splices) :
    applyAll splices t = t.take k ++ interleave t k splices := by
  induction splices generalizing k with
  | nil => exact (List.take_append_drop k t).symm
  | cons s rest ih =>
      obtain ⟨hk, hle, hrest⟩ := h
      have hlength : (t.take s.stop).length = s.stop := List.length_take_of_le hrest.le
      have hlater : applyAll rest t = t.take s.stop ++ interleave t s.stop rest := ih hrest
      have hleft : (applyAll rest t).take s.start = t.take s.start := by
        rw [hlater, List.take_append_of_le_length (by omega), List.take_take,
          Nat.min_eq_left hle]
      have hright : (applyAll rest t).drop s.stop = interleave t s.stop rest := by
        rw [hlater, List.drop_left' hlength]
      have hfront : t.take s.start = t.take k ++ (t.take s.start).drop k := by
        have hparts := (List.take_append_drop k (t.take s.start)).symm
        rwa [List.take_take, Nat.min_eq_left hk] at hparts
      calc
        applyAll (s :: rest) t
        _ = (applyAll rest t).take s.start ++ s.text ++ (applyAll rest t).drop s.stop := rfl
        _ = t.take s.start ++ (s.text ++ interleave t s.stop rest) := by
            rw [hleft, hright, List.append_assoc]
        _ = t.take k ++ interleave t k (s :: rest) := by
            rw [hfront, List.append_assoc, interleave]

/-- The length changes by as much as each splice changes it. -/
theorem length_interleave (h : Apart t.length k splices) :
    (k + (interleave t k splices).length : Int) = t.length + (splices.map delta).sum := by
  induction splices generalizing k with
  | nil =>
      have hk : k ≤ t.length := h
      simp only [interleave, List.length_drop, List.map_nil, List.sum_nil]
      omega
  | cons s rest ih =>
      obtain ⟨hk, hle, hrest⟩ := h
      have hlater := ih hrest
      have hstop := hrest.le
      simp only [interleave, List.length_append, List.length_drop, List.length_take, List.map_cons,
        List.sum_cons, delta, insertedLength]
      omega

/-- Of splices that are apart those that start at one offset are insertions and then at most one
replacement. -/
theorem Apart.filter_start (h : Apart upto k splices) (n : Nat) :
    splices.filter (·.start = n) =
      splices.filter (·.spans n n) ++ splices.filter (·.replacesFrom n) ∧
    (splices.filter (·.replacesFrom n)).length ≤ 1 := by
  induction splices generalizing k with
  | nil => exact ⟨rfl, Nat.zero_le 1⟩
  | cons s rest ih =>
      obtain ⟨-, hle, hrest⟩ := h
      obtain ⟨hlater, hlength⟩ := ih hrest
      by_cases hstart : s.start = n
      · by_cases hstop : s.stop = n
        · have hspans : s.spans n n := spans_iff.mpr ⟨hstart, hstop⟩
          have hreplaces : ¬s.replacesFrom n := fun h => by
            rw [replacesFrom_iff] at h
            omega
          rw [List.filter_cons_of_neg hreplaces, List.filter_cons_of_pos hspans,
            List.filter_cons_of_pos (by simpa using hstart), hlater]
          exact ⟨rfl, hlength⟩
        · -- nothing behind a replacement starts where it does
          have hspans : ¬s.spans n n := fun h => hstop (spans_iff.mp h).2
          have hreplaces : s.replacesFrom n := replacesFrom_iff.mpr ⟨hstart, by omega⟩
          have hnone {q : Splice → Bool} (hq : ∀ x, q x → x.start = n) : rest.filter q = [] := by
            rw [List.filter_eq_nil_iff]
            intro x hx hqx
            have hbehind := hrest.le_start x hx
            have hfrom := hq x hqx
            omega
          rw [List.filter_cons_of_pos hreplaces, List.filter_cons_of_neg hspans,
            List.filter_cons_of_pos (by simpa using hstart), hnone (by simp),
            hnone fun x hx => (spans_iff.mp hx).1, hnone fun x hx => (replacesFrom_iff.mp hx).1]
          exact ⟨rfl, Nat.le_refl 1⟩
      · have hspans : ¬s.spans n n := fun h => hstart (spans_iff.mp h).1
        have hreplaces : ¬s.replacesFrom n := fun h => hstart (replacesFrom_iff.mp h).1
        rw [List.filter_cons_of_neg hreplaces, List.filter_cons_of_neg hspans,
          List.filter_cons_of_neg (by simpa using hstart)]
        exact ⟨hlater, hlength⟩

end Splice

namespace Document

variable {d : Document} {plan : EditPlan} {splices : List Splice}

/-- What a plan resolves to are splices of the text, in order and apart. -/
theorem apart_of_resolve (h : plan.resolve d = .ok splices) :
    Splice.Apart d.text.length 0 splices := by
  obtain ⟨hwithin, hapart, rfl⟩ := EditPlan.resolve_eq_ok_iff.mp h
  refine Splice.apart_of_pairwise (Nat.zero_le _) ?_ (List.pairwise_map.mpr hapart)
  intro s hs
  obtain ⟨x, hx, rfl⟩ := List.mem_map.mp hs
  refine ⟨Nat.zero_le _, EditPlan.start_le_stop_of_mem_placed hwithin x hx, ?_⟩
  obtain ⟨e, he, rfl⟩ := EditPlan.mem_placed.mp hx
  exact offsetAt_le_length (hwithin e he).2

/-- A plan that resolves does so to the splices of its edits. -/
theorem perm_of_resolve (h : plan.resolve d = .ok splices) :
    splices.Perm (plan.edits.map (EditPlan.spliceOf d)) := by
  obtain ⟨-, -, rfl⟩ := EditPlan.resolve_eq_ok_iff.mp h
  rw [← EditPlan.map_planned]
  exact (plan.perm_placed d).map _

theorem apply_of_resolve (h : plan.resolve d = .ok splices) :
    d.apply plan = .ok (splices, ⟨Splice.interleave d.text 0 splices, d.ending⟩) := by
  have hall := Splice.applyAll_eq_interleave (apart_of_resolve h)
  rw [List.take_zero, List.nil_append] at hall
  rw [apply_eq, h, ← hall]
  rfl

/-- The insertions a plan that resolves makes at an offset come as they were planned, and before
what it replaces from there on. -/
theorem filter_start_of_resolve (h : plan.resolve d = .ok splices) (k : Nat) :
    splices.filter (·.start = k) =
      (plan.edits.map (EditPlan.spliceOf d)).filter (·.spans k k) ++
        (plan.edits.map (EditPlan.spliceOf d)).filter (·.replacesFrom k) := by
  obtain ⟨hstart, hlength⟩ := (apart_of_resolve h).filter_start k
  have hperm := (perm_of_resolve h).filter (·.replacesFrom k)
  have hinsertions : splices.filter (·.spans k k) =
      (plan.edits.map (EditPlan.spliceOf d)).filter (·.spans k k) := by
    obtain ⟨-, -, rfl⟩ := EditPlan.resolve_eq_ok_iff.mp h
    have hplaced := congrArg (List.map (·.2)) (EditPlan.filter_spans_placed plan d k k)
    rw [← EditPlan.map_planned, List.filter_map, List.filter_map]
    exact hplaced
  have hreplaced : splices.filter (·.replacesFrom k) =
      (plan.edits.map (EditPlan.spliceOf d)).filter (·.replacesFrom k) := by
    cases hfound : splices.filter (·.replacesFrom k) with
    | nil => exact (hfound ▸ hperm).nil_eq
    | cons s rest =>
        obtain rfl : rest = [] := by
          rw [hfound, List.length_cons] at hlength
          exact List.eq_nil_of_length_eq_zero (by omega)
        exact List.singleton_perm.mp (hfound ▸ hperm)
  rw [hstart, hinsertions, hreplaced]

theorem resolve_of_apply {after : Document} (h : d.apply plan = .ok (splices, after)) :
    plan.resolve d = .ok splices := by
  rw [apply_eq] at h
  cases hresolve : plan.resolve d with
  | error e =>
      rw [hresolve] at h
      cases h
  | ok splices' =>
      rw [hresolve] at h
      exact congrArg Except.ok (Prod.mk.inj (Except.ok.inj h)).1

theorem after_of_apply {after : Document} (h : d.apply plan = .ok (splices, after)) :
    d.after plan = after := congrArg Prod.snd (Action.result_eq_ok_iff.mp h)

theorem apply_of_resolve_error {e : EditError} (h : plan.resolve d = .error e) :
    d.apply plan = .error e := by
  rw [apply_eq, h]
  rfl

theorem after_of_resolve_error {e : EditError} (h : plan.resolve d = .error e) :
    d.after plan = d := by
  rw [Document.after, plan.attempt_carryOut, h]

/-- A plan that resolves replaces all the stretches of its splices at once, in the text as it was,
where each splice is that of one edit. Insertions at one offset come as they were planned, before
what is replaced from there on. A plan that does not resolve changes nothing. -/
theorem apply_eq_interleave (d : Document) (plan : EditPlan) :
    (∀ splices, plan.resolve d = .ok splices →
      d.apply plan = .ok (splices, d.after plan) ∧
      (d.after plan).text = Splice.interleave d.text 0 splices ∧
      (d.after plan).ending = d.ending ∧
      ((d.after plan).text.length : Int) = d.text.length + (splices.map Splice.delta).sum ∧
      Splice.Apart d.text.length 0 splices ∧
      splices.Perm (plan.edits.map (EditPlan.spliceOf d)) ∧
      ∀ k, splices.filter (·.start = k) =
        (plan.edits.map (EditPlan.spliceOf d)).filter (·.spans k k) ++
          (plan.edits.map (EditPlan.spliceOf d)).filter (·.replacesFrom k)) ∧
    ∀ e, plan.resolve d = .error e → d.apply plan = .error e ∧ d.after plan = d := by
  constructor
  · intro splices hresolve
    have happly := apply_of_resolve hresolve
    have hafter := after_of_apply happly
    have hapart := apart_of_resolve hresolve
    have hlength := Splice.length_interleave hapart
    rw [Int.natCast_zero, Int.zero_add] at hlength
    rw [hafter]
    exact ⟨happly, rfl, rfl, hlength, hapart, perm_of_resolve hresolve,
      filter_start_of_resolve hresolve⟩
  · intro e hresolve
    exact ⟨apply_of_resolve_error hresolve, after_of_resolve_error hresolve⟩

/-- A character replaced and two texts inserted in front of it, planned in another order. -/
theorem apply_eq_interleave_insertions :
    let d : Document := ⟨['a', 'b', 'c'], .lf⟩
    let insert (c : Char) : Edit := ⟨.empty ⟨0, 1⟩, [c]⟩
    let replace : Edit := ⟨⟨⟨0, 1⟩, ⟨0, 2⟩, by decide⟩, ['x']⟩
    let plan : EditPlan := ⟨[insert 'y', replace, insert 'z'], by decide⟩
    let splices : List Splice := [⟨1, 1, ['y']⟩, ⟨1, 1, ['z']⟩, ⟨1, 2, ['x']⟩]
    plan.resolve d = .ok splices ∧ d.apply plan = .ok (splices, d.after plan) ∧
      (d.after plan).text = ['a', 'y', 'z', 'x', 'c'] ∧ (d.after plan).ending = .lf := by
  intro d insert replace plan splices
  have hresolve : plan.resolve d = .ok splices := by cbv
  obtain ⟨happly, htext, hending, -⟩ := (apply_eq_interleave d plan).1 splices hresolve
  exact ⟨hresolve, happly, htext, hending⟩

end Document

end MarkupPairs
