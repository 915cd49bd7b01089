import MarkupPairs.Proofs.BracketBalance
import MarkupPairs.Proofs.BracketStack

/-!
# Partners there and back

The walk backward from a closing bracket counts every bracket of its pair, and finds the opening one
that the text in between, literals included, balances behind. The walk forward passes over
literals, so the two are inverse to each other just where the literals in between do not matter. In
a text without quotes they always are, and the partners are the pairs that a pass with a stack
makes.
-/

namespace MarkupPairs

namespace Document

/-- Whether an opening bracket of a pair stands at `p`, before `q`, with a text strictly between the
two places in which the pair balances. -/
structure OpensFor (d : Document) (b : Bracket) (p q : Position) : Prop where
  stands : (⟨b, .opening, p⟩ : BracketAt).StandsIn d
  before : p < q
  balanced : b.IsBalanced (d.slice (Range.between (p.right 1) q))

variable {d : Document} {b : Bracket} {p q : Position} {pre inner post : Text}

theorem after_opener (b : Bracket) (p : Position) : p.after b.opener = p.right 1 :=
  Position.after_of_ne (b.char_ne_lineFeed .opening)

/-- The text strictly between a bracket and what stands behind it. -/
theorem slice_behind_opener (h : d.DividedAt p pre (b.opener :: (inner ++ post))) :
    d.slice (Range.between (p.right 1) ((p.after b.opener).afterText inner)) = inner := by
  rw [← after_opener b p, Range.between_afterText]
  exact h.next.slice

/-- A bracket that opens for a closing one has a text that nests between itself and that one. -/
theorem OpensFor.exists_nests (h : d.OpensFor b p q)
    (hcloser : (⟨b, .closing, q⟩ : BracketAt).StandsIn d) :
    ∃ pre inner post, d.DividedAt p pre (b.opener :: (inner ++ b.closer :: post)) ∧
      b.Nests inner ∧ q = (p.after b.opener).afterText inner := by
  obtain ⟨pre, rest, hopening⟩ := exists_dividedAt_of_opening h.stands
  obtain ⟨before, post, hclosing⟩ := exists_dividedAt_of_closing hcloser
  have hle : p.after b.opener ≤ q := by
    rw [after_opener]
    exact Position.right_one_le.mpr h.before
  obtain ⟨inner, rfl, rfl⟩ := hopening.next.exists_between hclosing hle
  have hq : q = (p.after b.opener).afterText inner := by
    rw [hclosing.position_eq, Position.afterText_append, ← hopening.next.position_eq]
  refine ⟨pre, inner, post, hopening, ?_, hq⟩
  have hbalanced := h.balanced
  rw [hq, slice_behind_opener hopening] at hbalanced
  exact hbalanced.nests

/-- The partner of a closing bracket is the opening one up to which the pair balances. -/
theorem bracketPartner?_closing_iff (hcloser : (⟨b, .closing, q⟩ : BracketAt).StandsIn d) :
    d.bracketPartner? ⟨b, .closing, q⟩ = some p ↔ d.OpensFor b p q := by
  constructor
  · intro h
    obtain ⟨front, inner, behind, hopening, hinner, rfl⟩ :=
      exists_dividedAt_of_openingPartner hcloser h
    refine ⟨hopening.charAt_cons (b.char_ne_lineFeed .opening), ?_, ?_⟩
    · exact Position.lt_of_lt_of_le (p.lt_after _) (Position.le_afterText _ _)
    · rw [slice_behind_opener hopening]
      exact hinner.isBalanced
  · intro h
    obtain ⟨pre, inner, post, hdiv, hinner, rfl⟩ := h.exists_nests hcloser
    exact bracketPartner?_closing hdiv hinner

theorem lt_of_bracketPartner?_opening (hopener : (⟨b, .opening, p⟩ : BracketAt).StandsIn d)
    (h : d.bracketPartner? ⟨b, .opening, p⟩ = some q) : p < q := by
  obtain ⟨pre, post, hdiv⟩ := exists_dividedAt_of_opening hopener
  rw [bracketPartner?_opening_eq_seek hdiv] at h
  obtain ⟨cell, hcell, rfl, -⟩ := Cell.exists_of_seek h
  exact Position.lt_of_lt_of_le (p.lt_after _)
    (Cell.le_position_of_mem_layOut ((QuoteState.code_sublist _ _).subset hcell))

/-- What the walk backward finds for a closing bracket is what a pass with a stack pairs it with. -/
theorem mem_bracketPairs_iff :
    ⟨p, q⟩ ∈ d.bracketPairs b ↔ (⟨b, .closing, q⟩ : BracketAt).StandsIn d ∧
      d.bracketPartner? ⟨b, .closing, q⟩ = some p := by
  have hwalk {pre post : Text} (hdiv : d.DividedAt q pre (b.closer :: post)) :
      d.bracketPartner? ⟨b, .closing, q⟩ =
        (b.openBehind [] (Cell.layOut Position.origin pre)).head? := by
    rw [bracketPartner?_closing_eq_seek hdiv, List.head?_eq_getElem?]
    exact b.seek_reverse_eq_openBehind 0 _
  rw [bracketPairs, Bracket.mem_pairs_iff]
  constructor
  · rintro ⟨before, behind, hcells, htop⟩
    obtain ⟨htext, hbefore, hrest⟩ := Cell.layOut_eq_append hcells
    have hdiv : d.DividedAt q (Cell.text before) (b.closer :: Cell.text behind) :=
      ⟨htext, congrArg Cell.position (List.cons.inj hrest).1⟩
    refine ⟨hdiv.charAt_cons (b.char_ne_lineFeed .closing), ?_⟩
    rw [hwalk hdiv, ← hbefore]
    exact htop
  · rintro ⟨hcloser, hpartner⟩
    obtain ⟨pre, post, hdiv⟩ := exists_dividedAt_of_closing hcloser
    refine ⟨Cell.layOut Position.origin pre, Cell.layOut (q.after b.closer) post, ?_, ?_⟩
    · rw [cells, hdiv.text_eq, Cell.layOut_append, ← hdiv.position_eq]
      rfl
    · rw [← hwalk hdiv]
      exact hpartner

/-- Without quotes the way back leads to where the way there began. -/
theorem bracketPartner?_bracketPartner? (hquotes : ∀ c ∈ d.text, Bracket.isQuote c = false)
    {a : BracketAt} (ha : a.StandsIn d) (h : d.bracketPartner? a = some q) :
    d.bracketPartner? ⟨a.bracket, a.side.other, q⟩ = some a.position := by
  obtain ⟨mate, rfl, hmates⟩ := ha.exists_mates_of_partner hquotes h
  rw [(BracketAt.standsIn_of_partner h).unique hmates.right rfl]
  exact hmates.back

/-- What becomes of a bracket whose partner's partner is looked up. Backward, the partner is the
opening bracket from which on the pair balances. After a way forward, the way back leads to the
start just if the pair balances in between, literals included. Without quotes the way back always
does so, and the partners are what a pass with a stack pairs. -/
theorem bracketPartner?_there_and_back (d : Document) :
    (∀ b p q, (⟨b, .closing, q⟩ : BracketAt).StandsIn d →
      (d.bracketPartner? ⟨b, .closing, q⟩ = some p ↔ d.OpensFor b p q)) ∧
    (∀ b p q, (⟨b, .opening, p⟩ : BracketAt).StandsIn d →
      d.bracketPartner? ⟨b, .opening, p⟩ = some q →
        (⟨b, .closing, q⟩ : BracketAt).StandsIn d ∧
          (d.bracketPartner? ⟨b, .closing, q⟩ = some p ↔
            b.IsBalanced (d.slice (Range.between (p.right 1) q)))) ∧
    ((∀ c ∈ d.text, Bracket.isQuote c = false) →
      (∀ a q, a.StandsIn d → d.bracketPartner? a = some q →
        d.bracketPartner? ⟨a.bracket, a.side.other, q⟩ = some a.position) ∧
      ∀ b p q,
        (⟨p, q⟩ ∈ d.bracketPairs b ↔ (⟨b, .opening, p⟩ : BracketAt).StandsIn d ∧
          d.bracketPartner? ⟨b, .opening, p⟩ = some q) ∧
        (⟨p, q⟩ ∈ d.bracketPairs b ↔ (⟨b, .closing, q⟩ : BracketAt).StandsIn d ∧
          d.bracketPartner? ⟨b, .closing, q⟩ = some p)) := by
  refine ⟨fun b p q hcloser => bracketPartner?_closing_iff hcloser, ?_, ?_⟩
  · intro b p q hopener hpartner
    have hcloser : (⟨b, .closing, q⟩ : BracketAt).StandsIn d :=
      BracketAt.standsIn_of_partner hpartner
    refine ⟨hcloser, (bracketPartner?_closing_iff hcloser).trans ?_⟩
    constructor
    · exact OpensFor.balanced
    · intro hbalanced
      exact ⟨hopener, lt_of_bracketPartner?_opening hopener hpartner, hbalanced⟩
  · intro hquotes
    refine ⟨fun a q => bracketPartner?_bracketPartner? hquotes, ?_⟩
    intro b p q
    refine ⟨?_, mem_bracketPairs_iff⟩
    rw [mem_bracketPairs_iff]
    constructor
    · rintro ⟨hcloser, hpartner⟩
      exact ⟨BracketAt.standsIn_of_partner hpartner,
        bracketPartner?_bracketPartner? hquotes hcloser hpartner⟩
    · rintro ⟨hopener, hpartner⟩
      exact ⟨BracketAt.standsIn_of_partner hpartner,
        bracketPartner?_bracketPartner? hquotes hopener hpartner⟩

/-- Behind the first parenthesis of `(")")` stands a literal with one that closes it for the walk
backward only; those of `)(()` pair as the stack does. -/
theorem bracketPartner?_there_and_back_literal :
    let literal : Document := ⟨['(', '\x22', ')', '\x22', ')'], .lf⟩
    let plain : Document := ⟨[')', '(', '(', ')'], .lf⟩
    (literal.bracketPartner? ⟨.paren, .opening, ⟨0, 0⟩⟩ = some ⟨0, 4⟩ ∧
      literal.bracketPartner? ⟨.paren, .closing, ⟨0, 4⟩⟩ ≠ some ⟨0, 0⟩ ∧
      literal.bracketPartner? ⟨.paren, .closing, ⟨0, 2⟩⟩ = some ⟨0, 0⟩) ∧
    plain.bracketPartner? ⟨.paren, .opening, ⟨0, 2⟩⟩ = some ⟨0, 3⟩ ∧
      plain.bracketPartner? ⟨.paren, .closing, ⟨0, 3⟩⟩ = some ⟨0, 2⟩ ∧
      plain.bracketPairs .paren = [⟨⟨0, 2⟩, ⟨0, 3⟩⟩] := by
  intro literal plain
  obtain ⟨hclosing, hopening, -⟩ := bracketPartner?_there_and_back literal
  obtain ⟨-, -, hplain⟩ := bracketPartner?_there_and_back plain
  have hforward : literal.bracketPartner? ⟨.paren, .opening, ⟨0, 0⟩⟩ = some ⟨0, 4⟩ := by
    decide +kernel
  obtain ⟨-, hback⟩ := hopening .paren ⟨0, 0⟩ ⟨0, 4⟩ rfl hforward
  obtain ⟨hinverse, -⟩ := hplain (by simp [plain, Bracket.isQuote])
  refine ⟨⟨hforward, ?_, ?_⟩, ?_, ?_, ?_⟩
  · rw [Ne, hback]
    decide
  · exact (hclosing .paren ⟨0, 0⟩ ⟨0, 2⟩ rfl).mpr ⟨rfl, by decide, by decide⟩
  · decide +kernel
  · exact hinverse ⟨.paren, .opening, ⟨0, 2⟩⟩ ⟨0, 3⟩ rfl (by decide +kernel)
  · decide

end Document

end MarkupPairs
