import MarkupPairs.Document

/-!
# Loading and saving

A text that is loaded loses the carriage return in front of each of its line feeds, and gets one in
front of every line feed when it is saved. So the text comes back if either none or all of its line
feeds had one. Only one carriage return goes at a time: where several stand in front of a line feed,
the others are still there once the text is loaded.
-/

namespace MarkupPairs

namespace LineEnding

variable {t rest : Text} {c : Char}

/-- Whether every line feed has a carriage return in front of it. -/
def IsUniform (t : Text) : Prop :=
  ∀ pre post, t = pre ++ '\n' :: post → pre.getLast? = some '\r'

theorem hasCrlf_iff : hasCrlf t ↔ ['\r', '\n'] <:+: t := by
  induction t with
  | nil => simp [hasCrlf]
  | cons c rest ih =>
      rw [hasCrlf, Bool.or_eq_true, ih, List.infix_cons_iff, List.cons_prefix_cons,
        Bool.and_eq_true, beq_iff_eq, beq_iff_eq, eq_comm (a := c)]
      refine or_congr_left (and_congr_right fun _ => ?_)
      cases rest with
      | nil => simp
      | cons x rest => simp [eq_comm]

/-! ## Uniform line endings -/

theorem isUniform_nil : IsUniform [] := by
  intro pre post h
  simp at h

/-- A line feed at the start of a text has nothing in front of it. -/
theorem not_isUniform_lineFeed : ¬IsUniform ('\n' :: rest) := fun h => by
  simpa using h [] rest rfl

theorem isUniform_crlf_iff : IsUniform ('\r' :: '\n' :: rest) ↔ IsUniform rest := by
  constructor
  · rintro h pre post rfl
    have hlast := h ('\r' :: '\n' :: pre) post rfl
    cases pre with
    | nil => simp at hlast
    | cons x pre => simpa using hlast
  · intro h pre post heq
    match pre with
    | [] => simp at heq
    | [x] =>
        obtain ⟨rfl, -⟩ : '\r' = x ∧ rest = post := by simpa using heq
        rfl
    | x :: y :: pre =>
        obtain ⟨rfl, rfl, rfl⟩ : '\r' = x ∧ '\n' = y ∧ rest = pre ++ '\n' :: post := by
          simpa using heq
        have hlast := h pre post rfl
        cases pre with
        | nil => simp at hlast
        | cons z pre => simpa using hlast

/-- A character that is no part of a line ending tells nothing about the others. -/
theorem isUniform_cons_iff (hc : c ≠ '\n') (hcrlf : ∀ r, c = '\r' → rest = '\n' :: r → False) :
    IsUniform (c :: rest) ↔ IsUniform rest := by
  constructor
  · rintro h pre post rfl
    have hlast := h (c :: pre) post rfl
    cases pre with
    | nil => exact absurd rfl (hcrlf post (by simpa using hlast))
    | cons x pre => simpa using hlast
  · intro h pre post heq
    cases pre with
    | nil => simp_all
    | cons x pre =>
        obtain ⟨rfl, rfl⟩ : c = x ∧ rest = pre ++ '\n' :: post := by simpa using heq
        have hlast := h pre post rfl
        cases pre with
        | nil => simp at hlast
        | cons y pre => simpa using hlast

/-! ## One line ending put back -/

@[simp] theorem restore_lf (t : Text) : lf.restore t = t := by
  induction t with
  | nil => rfl
  | cons c rest ih =>
      rw [restore] at ih ⊢
      rw [List.flatMap_cons, ih]
      split <;> simp_all [terminator]

theorem restore_crlf_lineFeed : crlf.restore ('\n' :: rest) = '\r' :: '\n' :: crlf.restore rest :=
  rfl

theorem restore_crlf_cons (hc : c ≠ '\n') : crlf.restore (c :: rest) = c :: crlf.restore rest := by
  rw [restore, List.flatMap_cons, if_neg hc]
  rfl

/-- What is restored starts with no line feed. -/
theorem restore_crlf_ne (t : Text) : crlf.restore t ≠ '\n' :: rest := by
  cases t with
  | nil => exact List.cons_ne_nil _ _ |>.symm
  | cons c t =>
      by_cases hc : c = '\n'
      · rw [hc, restore_crlf_lineFeed]
        simp
      · rw [restore_crlf_cons hc]
        simp [hc]

theorem toLf_cons (h : ∀ r, c = '\r' → rest = '\n' :: r → False) :
    toLf (c :: rest) = c :: toLf rest := by
  rw [toLf]
  exact h

theorem toLf_restore_crlf (t : Text) : toLf (crlf.restore t) = t := by
  induction t with
  | nil => rfl
  | cons c t ih =>
      by_cases hc : c = '\n'
      · rw [hc, restore_crlf_lineFeed, toLf, ih]
      · rw [restore_crlf_cons hc, toLf_cons fun r _ => restore_crlf_ne t, ih]

/-- A text stays as it is when none of its line feeds has a carriage return in front of it. -/
theorem toLf_eq_self_iff : toLf t = t ↔ ¬['\r', '\n'] <:+: t := by
  rw [← hasCrlf_iff]
  fun_induction toLf t with
  | case1 => simp [hasCrlf]
  | case2 rest ih => simp [hasCrlf]
  | case3 c rest h ih =>
      have hhead : (c == '\r' && rest.head? == some '\n') = false := by
        cases rest <;> simp_all
      rw [List.cons_inj_right, ih, hasCrlf, hhead, Bool.false_or]

/-- Carriage returns come back in front of every line feed. -/
theorem restore_crlf_toLf_eq_iff : crlf.restore (toLf t) = t ↔ IsUniform t := by
  fun_induction toLf t with
  | case1 => exact iff_of_true rfl isUniform_nil
  | case2 rest ih =>
      rw [restore_crlf_lineFeed, List.cons_inj_right, List.cons_inj_right, ih, isUniform_crlf_iff]
  | case3 c rest h ih =>
      by_cases hc : c = '\n'
      · rw [hc, restore_crlf_lineFeed]
        exact iff_of_false (by simp) not_isUniform_lineFeed
      · rw [restore_crlf_cons hc, List.cons_inj_right, ih, isUniform_cons_iff hc h]

/-! ## What loading leaves -/

theorem toLf_eq_lineFeed_iff :
    (∃ r, toLf t = '\n' :: r) ↔ (∃ r, t = '\n' :: r) ∨ ∃ r, t = '\r' :: '\n' :: r := by
  fun_induction toLf t with
  | case1 => simp
  | case2 rest ih => simp
  | case3 c rest h ih =>
      simp only [List.cons.injEq, exists_and_left, exists_eq', and_true]
      refine ⟨.inl, ?_⟩
      rintro (hc | ⟨hc, r, heq⟩)
      · exact hc
      · exact (h r hc heq).elim

theorem singleton_prefix_iff : [c] <+: t ↔ ∃ r, t = c :: r :=
  exists_congr fun _ => eq_comm

/-- Loading takes one carriage return away from in front of each line feed, so one is left where
there were two. -/
theorem infix_toLf_iff : ['\r', '\n'] <:+: toLf t ↔ ['\r', '\r', '\n'] <:+: t := by
  fun_induction toLf t with
  | case1 => simp
  | case2 rest ih =>
      simp only [List.infix_cons_iff (a := '\r'), List.infix_cons_iff (a := '\n'),
        List.cons_prefix_cons]
      simp [ih]
  | case3 c rest h ih =>
      rw [List.infix_cons_iff, List.infix_cons_iff, List.cons_prefix_cons,
        List.cons_prefix_cons, singleton_prefix_iff, toLf_eq_lineFeed_iff]
      refine or_congr (and_congr_right ?_) ih
      rintro rfl
      have hnot : ¬∃ r, rest = '\n' :: r := fun ⟨r, hr⟩ => h r rfl hr
      rw [or_iff_right hnot]
      constructor
      · rintro ⟨r, rfl⟩
        exact ⟨r, rfl⟩
      · rintro ⟨r, rfl⟩
        exact ⟨r, rfl⟩

end LineEnding

namespace Document

open LineEnding

/-- A text that is loaded is saved as it was just when none of its line feeds has a carriage return
in front of it or all of them have one. In turn, a text with a carriage return put in front of
every line feed is loaded as it was, and a text that is saved as it is just when it has no carriage
return in front of a line feed. -/
theorem savedText_ofText_eq_iff :
    (∀ t, (ofText t).savedText = t ↔ ¬['\r', '\n'] <:+: t ∨ IsUniform t) ∧
      ∀ t, (ofText (crlf.restore t)).text = t ∧
        ((ofText (lf.restore t)).text = t ↔ ¬['\r', '\n'] <:+: t) := by
  refine ⟨?_, ?_⟩
  · intro t
    change (detect t).restore (toLf t) = t ↔ _
    rw [← hasCrlf_iff, detect]
    split
    next hcrlf => rw [restore_crlf_toLf_eq_iff, or_iff_right (not_not_intro hcrlf)]
    next hcrlf =>
      refine iff_of_true ?_ (.inl hcrlf)
      rw [restore_lf, toLf_eq_self_iff, ← hasCrlf_iff]
      exact hcrlf
  · intro t
    refine ⟨toLf_restore_crlf t, ?_⟩
    rw [restore_lf]
    exact toLf_eq_self_iff

/-- A document has a carriage return in front of a line feed just when the text that it is loaded
from has two of them there, and these are the texts of which the document changes when it is loaded
again. -/
theorem infix_text_ofText_iff (t : Text) :
    (['\r', '\n'] <:+: (ofText t).text ↔ ['\r', '\r', '\n'] <:+: t) ∧
      ((ofText (ofText t).text).text = (ofText t).text ↔ ¬['\r', '\r', '\n'] <:+: t) :=
  ⟨infix_toLf_iff, toLf_eq_self_iff.trans (not_congr infix_toLf_iff)⟩

/-- Two carriage returns in front of a line feed: one is left, and is gone when what is left is
loaded again. -/
theorem infix_text_ofText_twice :
    let t : Text := ['\r', '\r', '\n']
    ['\r', '\n'] <:+: (ofText t).text ∧ (ofText (ofText t).text).text ≠ (ofText t).text := by
  decide

end Document

end MarkupPairs
