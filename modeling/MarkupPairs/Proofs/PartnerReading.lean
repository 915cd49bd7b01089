import MarkupPairs.Proofs.FoundTags
import MarkupPairs.Proofs.PartnerReturn

/-!
# What a partner reads as

The searches for a partner put their answer together from a head and a `>` that they come across,
and never read it as a whole. What they answer with is still what the text says there: reading the
characters of its range gives the same tag again. This hangs on the name, which the head and the
reading as a whole take up to the same character.
-/

namespace MarkupPairs.Document

variable {d : Document} {limits : ScanLimits} {t u : Tag}

/-- The answer of the search forward is a closing tag behind the place where the search starts. -/
theorem parse?_of_closingTag? {name : Text} {p : Position} (hname : Tag.IsName name)
    (h : d.closingTag? limits name p = some u) :
    Tag.parse? (d.slice u.range) u.range = some u ∧ u.name = name ∧ u.kind = .closing ∧
      p ≤ u.range.start := by
  obtain ⟨pre, x, post, tail, htext, hreads, rfl, hle⟩ := exists_of_closingTag? h
  refine ⟨?_, rfl, rfl, hle⟩
  rw [DividedAt.slice ⟨htext, rfl⟩, hreads.parse? hname]
  rfl

/-- The answer of the search backward is an opening tag in front of the place where the search
starts. -/
theorem parse?_of_openingTag? {name : Text} {p : Position} (hname : Tag.IsName name)
    (h : d.openingTag? limits name p = some u) :
    Tag.parse? (d.slice u.range) u.range = some u ∧ u.name = name ∧ u.kind = .opening ∧
      u.range.stop ≤ p := by
  obtain ⟨pre, x, post, htext, hx, hread, hslash, rfl, hle⟩ := exists_of_openingTag? h
  obtain ⟨tail, hsplit, -, hends, hnil⟩ := TagHead.exists_of_read? hx hread
  have hopening : ¬Tag.endsSelfClosed x.angled := Tag.endsSelfClosed_angled.not.mpr hslash
  refine ⟨?_, rfl, rfl, hle⟩
  rw [DividedAt.slice ⟨htext, rfl⟩, Tag.parse?_head hsplit hname hends hnil, if_neg hopening]
  rfl

/-- A tag that has a partner opens or closes an element, and the partner is what the text says at
its range: a tag of the same name and the opposite kind, entirely behind an opening tag and entirely
in front of a closing tag. -/
theorem parse?_of_partner? (h : d.Finds t) (hu : d.partner? limits t = some u) :
    t.kind ≠ .selfClosing ∧ Tag.parse? (d.slice u.range) u.range = some u ∧ u.name = t.name ∧
      (t.kind = .opening ∧ u.kind = .closing ∧ t.range.stop ≤ u.range.start ∨
        t.kind = .closing ∧ u.kind = .opening ∧ u.range.stop ≤ t.range.start) := by
  rw [partner?] at hu
  split at hu
  next hkind =>
    obtain ⟨hparse, hname, hclosing, hle⟩ := parse?_of_closingTag? h.isName hu
    exact ⟨by simp [hkind], hparse, hname, .inl ⟨hkind, hclosing, hle⟩⟩
  next hkind =>
    obtain ⟨hparse, hname, hopening, hle⟩ := parse?_of_openingTag? h.isName hu
    exact ⟨by simp [hkind], hparse, hname, .inr ⟨hkind, hopening, hle⟩⟩
  next => cases hu

/-- In `<a <!b></a>` the partner of the closing tag has another `<` inside. -/
theorem parse?_of_partner?_nested :
    let d : Document := ⟨['<', 'a', ' ', '<', '!', 'b', '>', '<', '/', 'a', '>'], .lf⟩
    let t : Tag := ⟨['a'], .closing, ⟨⟨0, 7⟩, ⟨0, 11⟩, by decide⟩⟩
    let u : Tag := ⟨['a'], .opening, ⟨⟨0, 0⟩, ⟨0, 7⟩, by decide⟩⟩
    d.Finds t ∧ d.partner? .default t = some u ∧ Tag.parse? (d.slice u.range) u.range = some u ∧
      u.range.stop ≤ t.range.start := by
  intro d t u
  have htag : d.enclosingTag? .default ⟨0, 8⟩ = some t := by decide
  have hu : d.partner? .default t = some u := by decide
  obtain ⟨-, hparse, -, hplace⟩ := parse?_of_partner? (.under htag) hu
  rcases hplace with ⟨hkind, -, -⟩ | ⟨-, -, hle⟩
  · cases hkind
  · exact ⟨.under htag, hu, hparse, hle⟩

end MarkupPairs.Document
