import MarkupPairs.Proofs.BracketBalance
import MarkupPairs.Proofs.ForestTags
import MarkupPairs.Proofs.Partner
import MarkupPairs.Proofs.SelectionOrder
import MarkupPairs.Session.Command

/-!
# Jumping there and back

A jump from a bracket lands on its partner, and a jump from the first character behind the `<` of a
named tag lands on the one behind the `<` of the partner tag. The next jump takes neither for
something else: it leads back to where the first one came from.
-/

namespace MarkupPairs

theorem Bracket.classify_of_isAlphanum {c : Char} (h : c.isAlphanum) : classify c = none := by
  apply Option.eq_none_iff_forall_not_mem.mpr
  rintro ⟨b, side⟩ hclass
  obtain rfl := classify_eq_some_iff.mp hclass
  revert h
  cases b <;> cases side <;> decide

namespace Session

variable {s : Session} {f : Forest} {p q : Position}

/-- Whether a jump takes a single caret from one place to another. -/
def JumpsTo (s : Session) (p q : Position) : Prop :=
  (s.select [.caret p]).execute .jumpToPartner = .ok (.moved, s.select [.caret q])

theorem jumpsTo_of_jumpTarget? (h : s.jumpTarget? (.caret p) = some q) : s.JumpsTo p q := by
  have hsome : (s.select [.caret p]).selections.any fun selection =>
      ((s.select [.caret p]).jumpTarget? selection).isSome := by
    refine List.any_eq_true.mpr ⟨_, List.mem_singleton_self _, ?_⟩
    exact Option.isSome_iff_exists.mpr ⟨q, h⟩
  rw [JumpsTo, execute_of_ne_nil (List.cons_ne_nil _ _), action, result_jumpToPartner,
    if_pos hsome]
  change Except.ok (_, s.select [((s.jumpTarget? (.caret p)).map _).getD (.caret p)]) = _
  rw [h, Option.map_some, Option.getD_some, Selection.moveTo_caret]

/-- A caret is no block of lines, so a jump looks for a bracket under it and then for a tag. -/
theorem jumpsTo_of_atCursor (h : (s.bracketJump p <|> s.tagJump p) = some q) : s.JumpsTo p q := by
  apply jumpsTo_of_jumpTarget?
  rw [jumpTarget?, Selection.shape_range_caret]
  change ((s.bracketJump p <|> s.tagJump p) <|> _) = some q
  rw [h]
  rfl

/-- Brackets that are each other's partner lead to each other. -/
theorem jumpsTo_of_mates {a b : BracketAt} (h : BracketAt.Mates s.document a b) :
    s.JumpsTo a.position b.position := by
  have hjump : s.bracketJump a.position = some b.position := by
    rw [bracketJump, h.left, Option.bind_eq_bind, Option.bind_some,
      BracketAt.classify_eq_some_iff.mpr ⟨rfl, rfl⟩]
    exact h.forth
  apply jumpsTo_of_atCursor
  rw [hjump]
  rfl

/-- The first character behind the `<` of a tag leads to the one of the partner tag, unless it is a
bracket itself. -/
theorem jumpsTo_of_partner? {t u : Tag} {c : Char} {pre inner post : Text}
    (htext : s.document.text = f.toText)
    (hlimits : s.document.lineCount < s.settings.limits.enclosing)
    (ht : t ∈ f.tags Position.origin)
    (hrange : t.range = Range.spanning p (Text.angled (c :: inner)))
    (hdiv : s.document.DividedAt p pre (Text.angled (c :: inner) ++ post))
    (hc : c ≠ '\n') (hbracket : Bracket.classify c = none)
    (hpartner : s.document.partner? s.settings.limits t = some u) :
    s.JumpsTo (t.range.start.right 1) (u.range.start.right 1) := by
  have hstart : t.range.start.right 1 = p.after '<' := by
    rw [hrange, Position.after_of_ne (by decide)]
    rfl
  have hnext : s.document.DividedAt (p.after '<') (pre ++ ['<']) (c :: (inner ++ ['>'] ++ post)) :=
    hdiv.next
  have hcovers : t.range.covers (p.after '<') := by
    rw [hrange, Range.covers_iff]
    exact ⟨Position.le_of_lt (Position.lt_after p '<'),
      Position.lt_afterText (List.cons_ne_nil _ _)⟩
  have htag : s.document.enclosingTag? s.settings.limits (p.after '<') = some t :=
    Document.enclosingTag?_of_tagAt?
      (Forest.tagAt?_of_mem_tags htext hlimits ht hnext.isValid hcovers)
  have hnone : s.bracketJump (p.after '<') = none := by
    rw [bracketJump, hnext.charAt_cons hc, Option.bind_eq_bind, Option.bind_some,
      BracketAt.classify, hbracket]
    rfl
  have hjump : s.tagJump (p.after '<') = some (u.range.start.right 1) := by
    rw [tagJump, htag, Option.bind_eq_bind, Option.bind_some, hpartner]
    rfl
  rw [hstart]
  apply jumpsTo_of_atCursor
  rw [hnone, hjump]
  rfl

/-- The two tags of an element lead to each other. -/
theorem jumpsTo_of_mem_pairs (htext : s.document.text = f.toText) (hf : f.IsUncommented)
    (henclosing : s.document.lineCount < s.settings.limits.enclosing)
    (hpaired : s.document.lineCount < s.settings.limits.paired) {x : Tag × Tag}
    (hx : x ∈ f.pairs Position.origin) (hnamed : x.1.name ≠ []) :
    s.JumpsTo (x.1.range.start.right 1) (x.2.range.start.right 1) ∧
      s.JumpsTo (x.2.range.start.right 1) (x.1.range.start.right 1) := by
  obtain ⟨hopening, hclosing⟩ := Forest.mem_tags_of_mem_pairs hx
  obtain ⟨hforth, hback⟩ := Forest.partner?_of_mem_pairs htext hf hpaired hx
  obtain ⟨pre, post, shell, content, hwhole, rfl, -⟩ := Forest.exists_of_mem_pairs hx
  cases shell with
  | fragment => exact absurd rfl hnamed
  | element name attributes blank =>
      have hdiv : s.document.DividedAt (Position.origin.afterText pre) pre _ :=
        ⟨htext.trans hwhole, rfl⟩
      have hletter : name.first.isAlphanum := name.isAlphanum List.mem_cons_self
      constructor
      · refine jumpsTo_of_partner? htext henclosing hopening rfl hdiv ?_ ?_ hforth
        · exact Unicode.ne_of_isAlphanum hletter rfl
        · exact Bracket.classify_of_isAlphanum hletter
      · refine jumpsTo_of_partner? htext henclosing hclosing rfl hdiv.append.append ?_ ?_ hback
        · decide
        · decide

/-- Jumping to the partner and jumping again leads back. That holds of a caret on the first
character of either tag of a named element, in a forest without comments, and of a caret on any
bracket that has a partner, in a text without quotes. -/
theorem jumpsTo_partner_and_back (s : Session) :
    (∀ f : Forest, s.document.text = f.toText → f.IsUncommented →
      s.document.lineCount < s.settings.limits.enclosing →
      s.document.lineCount < s.settings.limits.paired →
      ∀ x ∈ f.pairs Position.origin, x.1.name ≠ [] →
        s.JumpsTo (x.1.range.start.right 1) (x.2.range.start.right 1) ∧
          s.JumpsTo (x.2.range.start.right 1) (x.1.range.start.right 1)) ∧
      ((∀ c ∈ s.document.text, Bracket.isQuote c = false) →
        ∀ b q, b.StandsIn s.document → s.document.bracketPartner? b = some q →
          s.JumpsTo b.position q ∧ s.JumpsTo q b.position) := by
  constructor
  · intro f htext hf henclosing hpaired x hx hnamed
    exact jumpsTo_of_mem_pairs htext hf henclosing hpaired hx hnamed
  · intro hquotes b q hb hpartner
    obtain ⟨mate, rfl, hmates⟩ := hb.exists_mates_of_partner hquotes hpartner
    exact ⟨jumpsTo_of_mates hmates, jumpsTo_of_mates hmates.symm⟩

/-- The element of the sample, which runs over lines, and the square brackets in `(a[)`, `]`, which
cross the others and have a line break between them. -/
theorem jumpsTo_partner_and_back_sample :
    let s : Session := ⟨⟨Forest.sample.toText, .lf⟩, [.caret .origin], .default, .html⟩
    let crossed : Session :=
      ⟨⟨['(', 'a', '[', ')', '\n', ']'], .lf⟩, [.caret .origin], .default, .other⟩
    (Forest.sample.IsUncommented ∧
      s.document.lineCount < s.settings.limits.enclosing ∧
      s.document.lineCount < s.settings.limits.paired ∧
      s.JumpsTo ⟨0, 1⟩ ⟨1, 13⟩ ∧ s.JumpsTo ⟨1, 13⟩ ⟨0, 1⟩) ∧
      (∀ c ∈ crossed.document.text, Bracket.isQuote c = false) ∧
      (⟨.square, .opening, ⟨0, 2⟩⟩ : BracketAt).StandsIn crossed.document ∧
      crossed.document.bracketPartner? ⟨.square, .opening, ⟨0, 2⟩⟩ = some ⟨1, 0⟩ ∧
      crossed.JumpsTo ⟨0, 2⟩ ⟨1, 0⟩ ∧ crossed.JumpsTo ⟨1, 0⟩ ⟨0, 2⟩ := by
  intro s crossed
  have hun : Forest.sample.IsUncommented := ⟨⟨trivial, trivial⟩, trivial⟩
  have henclosing : s.document.lineCount < s.settings.limits.enclosing := by decide
  have hpaired : s.document.lineCount < s.settings.limits.paired := by decide
  have hquotes : ∀ c ∈ crossed.document.text, Bracket.isQuote c = false := by
    simp [crossed, Bracket.isQuote]
  have hstands : (⟨.square, .opening, ⟨0, 2⟩⟩ : BracketAt).StandsIn crossed.document := rfl
  have hpartner : crossed.document.bracketPartner? ⟨.square, .opening, ⟨0, 2⟩⟩ = some ⟨1, 0⟩ := by
    decide +kernel
  obtain ⟨htags, -⟩ := jumpsTo_partner_and_back s
  obtain ⟨-, hbrackets⟩ := jumpsTo_partner_and_back crossed
  have hpair := htags _ rfl hun henclosing hpaired _ List.mem_cons_self (by decide)
  exact ⟨⟨hun, henclosing, hpaired, hpair⟩, hquotes, hstands, hpartner,
    hbrackets hquotes ⟨.square, .opening, ⟨0, 2⟩⟩ ⟨1, 0⟩ hstands hpartner⟩

end Session

end MarkupPairs
