import MarkupPairs.Proofs.PairDeletion

/-!
# Brackets that balance

In a text without quotes the searches for the partner of a bracket only count its own pair. Where
that pair balances, each bracket has a partner, and is the partner of that one. A deletion that
takes brackets together with their partners leaves a text where the pair balances again.
-/

namespace MarkupPairs

namespace Bracket

/-- How a text is made in which a pair balances. -/
inductive Nests (b : Bracket) : Text → Prop where
  | nil : Nests b []
  | other {c : Char} {t : Text} (opener : c ≠ b.opener) (closer : c ≠ b.closer) (rest : Nests b t) :
      Nests b (c :: t)
  | pair {s t : Text} (inner : Nests b s) (rest : Nests b t) :
      Nests b (b.opener :: (s ++ b.closer :: t))

variable {b : Bracket} {side : Side} {c : Char} {n m : Nat} {p : Position} {s t : Text}

namespace Nests

theorem append (hs : b.Nests s) (ht : b.Nests t) : b.Nests (s ++ t) := by
  induction hs with
  | nil => exact ht
  | other opener closer _ ih => exact .other opener closer ih
  | pair inner _ _ ih =>
      rw [List.cons_append, List.append_assoc]
      exact .pair inner ih

theorem depth? (h : b.Nests s) (n : Nat) (t : Text) : b.depth? n (s ++ t) = b.depth? n t := by
  induction h generalizing n t with
  | nil => rfl
  | other opener closer _ ih =>
      rw [List.cons_append, depth?_other opener closer, ih]
  | pair _ _ ihInner ih =>
      rw [List.cons_append, depth?_opener, List.append_assoc, ihInner, List.cons_append,
        depth?_closer_succ, ih]

theorem depth?_eq (h : b.Nests t) (n : Nat) : b.depth? n t = some n := by
  have hdepth := h.depth? n []
  rwa [List.append_nil] at hdepth

theorem isBalanced (h : b.Nests t) : b.IsBalanced t := h.depth?_eq 0

end Nests

/-- What brings the depth down to nothing is made of a text that nests and, if brackets are open
before it, of the one that closes the last of them and what brings down the others. -/
theorem exists_nests (h : b.depth? n t = some 0) :
    ∃ s rest, t = s ++ rest ∧ b.Nests s ∧ (rest = [] ∧ n = 0 ∨
      ∃ m behind, rest = b.closer :: behind ∧ n = m + 1 ∧ b.depth? m behind = some 0) := by
  -- by induction on the length, since what is behind a closing bracket is taken apart in turn
  induction hlength : t.length using Nat.strongRecOn generalizing n t with
  | ind k ih =>
      cases t with
      | nil => exact ⟨[], [], rfl, .nil, .inl ⟨rfl, Option.some.inj h⟩⟩
      | cons c t =>
          have hlt : t.length < k := by
            rw [← hlength]
            exact Nat.lt_succ_self _
          by_cases hopener : c = b.opener
          · subst c
            rw [depth?_opener] at h
            obtain ⟨s, _, rfl, hs, ⟨-, hzero⟩ | ⟨m, behind, rfl, hm, hdepth⟩⟩ := ih _ hlt h rfl
            · cases hzero
            · obtain rfl := Nat.succ.inj hm
              have hshorter : behind.length < k := by
                rw [List.length_append, List.length_cons] at hlt
                omega
              obtain ⟨s', rest, rfl, hs', hrest⟩ := ih _ hshorter hdepth rfl
              refine ⟨b.opener :: (s ++ b.closer :: s'), rest, ?_, .pair hs hs', hrest⟩
              simp
          · by_cases hcloser : c = b.closer
            · subst c
              cases n with
              | zero =>
                  rw [depth?_closer_zero] at h
                  cases h
              | succ n =>
                  rw [depth?_closer_succ] at h
                  exact ⟨[], _, rfl, .nil, .inr ⟨n, t, rfl, rfl, h⟩⟩
            · rw [depth?_other hopener hcloser] at h
              obtain ⟨s, rest, rfl, hs, hrest⟩ := ih _ hlt h rfl
              exact ⟨c :: s, rest, rfl, .other hopener hcloser hs, hrest⟩

theorem IsBalanced.nests (h : b.IsBalanced t) : b.Nests t := by
  obtain ⟨s, rest, rfl, hs, ⟨rfl, -⟩ | ⟨m, behind, -, hm, -⟩⟩ := exists_nests h
  · rw [List.append_nil]
    exact hs
  · cases hm

namespace Nests

/-! ## The searches in a text that nests -/

theorem seek_layOut (h : b.Nests t) (n : Nat) (p : Position) (rest : List Cell) :
    Cell.seek b.opener b.closer n (Cell.layOut p t ++ rest) =
      Cell.seek b.opener b.closer n rest :=
  Bracket.seek_layOut (h.depth?_eq n) p rest

theorem seek_reverse_layOut (h : b.Nests t) (n : Nat) (p : Position) (before : List Cell) :
    Cell.seek b.closer b.opener n ((Cell.layOut p t).reverse ++ before) =
      Cell.seek b.closer b.opener n before :=
  Bracket.seek_reverse_layOut (h.depth?_eq n) p before

/-- Each bracket of the text is one of two with a text between them that nests. -/
theorem exists_of_mem_layOut (h : b.Nests t) {cell : Cell} (hcell : cell ∈ Cell.layOut p t)
    (hchar : cell.char = b.opener ∨ cell.char = b.closer) :
    ∃ pre inner post, t = pre ++ b.opener :: (inner ++ b.closer :: post) ∧ b.Nests inner ∧
      (cell = ⟨p.afterText pre, b.opener⟩ ∨
        cell = ⟨p.afterText (pre ++ b.opener :: inner), b.closer⟩) := by
  induction h generalizing p with
  | nil => cases hcell
  | @other c t opener closer _ ih =>
      rcases List.mem_cons.mp hcell with rfl | hcell
      · exact (hchar.elim opener closer).elim
      · obtain ⟨pre, inner, post, rfl, hinner, hplace⟩ := ih hcell
        exact ⟨c :: pre, inner, post, rfl, hinner, hplace⟩
  | @pair s t inner rest ihInner ih =>
      rw [Cell.layOut_cons, List.mem_cons, Cell.layOut_append, List.mem_append, Cell.layOut_cons,
        List.mem_cons] at hcell
      rcases hcell with rfl | hcell | rfl | hcell
      · exact ⟨[], s, t, rfl, inner, .inl rfl⟩
      · obtain ⟨pre, mid, post, rfl, hmid, hplace⟩ := ihInner hcell
        exact ⟨b.opener :: pre, mid, post ++ b.closer :: t, by simp, hmid, hplace⟩
      · exact ⟨[], s, t, rfl, inner, .inr rfl⟩
      · obtain ⟨pre, mid, post, rfl, hmid, hplace⟩ := ih hcell
        refine ⟨b.opener :: (s ++ b.closer :: pre), mid, post, by simp, hmid, ?_⟩
        simpa [Position.afterText_append] using hplace

/-- What goes in pairs leaves a text that nests. -/
theorem filter_layOut (h : b.Nests t) {gone : Position → Bool} (p : Position)
    (hgone : ∀ pre inner post, t = pre ++ b.opener :: (inner ++ b.closer :: post) → b.Nests inner →
      gone (p.afterText pre) = gone (p.afterText (pre ++ b.opener :: inner))) :
    b.Nests (Cell.text ((Cell.layOut p t).filter (!gone ·.position))) := by
  induction h generalizing p with
  | nil => exact .nil
  | @other c t opener closer _ ih =>
      have hrest := ih (p.after c) fun pre inner post ht => hgone (c :: pre) inner post (ht ▸ rfl)
      rw [Cell.layOut_cons, List.filter_cons]
      split
      next => exact .other opener closer hrest
      next => exact hrest
  | @pair s t inner rest ihInner ih =>
      have hpair : gone p = gone ((p.after b.opener).afterText s) := hgone [] s t rfl inner
      have hinner := ihInner (p.after b.opener) fun pre inner post hs =>
        hgone (b.opener :: pre) inner (post ++ b.closer :: t) (by rw [hs]; simp)
      have hrest := ih (((p.after b.opener).afterText s).after b.closer) fun pre inner post ht => by
        have hlater := hgone (b.opener :: (s ++ b.closer :: pre)) inner post (by rw [ht]; simp)
        simpa [Position.afterText_append] using hlater
      rw [Cell.layOut_cons, List.filter_cons, Cell.layOut_append, List.filter_append,
        Cell.layOut_cons, List.filter_cons, ← hpair]
      cases gone p with
      | true =>
          rw [if_neg (by decide), if_neg (by decide), Cell.text_append]
          exact hinner.append hrest
      | false =>
          rw [if_pos (by decide), if_pos (by decide)]
          have hnests := hinner.pair hrest
          rwa [Cell.text, List.map_cons, List.map_append, List.map_cons]

end Nests

end Bracket

/-- In a text without angles these nest. -/
theorem Text.IsPlain.nests {t : Text} (h : t.IsPlain) : Bracket.angle.Nests t := by
  induction t with
  | nil => exact .nil
  | cons c t ih =>
      obtain ⟨⟨hopen, hclose⟩, ht⟩ := List.forall_mem_cons.mp h
      exact .other hopen hclose (ih ht)

/-! ## Brackets of a document -/

theorem Bracket.classify_eq_some_iff {c : Char} {b : Bracket} {side : Side} :
    classify c = some (b, side) ↔ c = b.char side := by
  constructor
  · intro h
    obtain ⟨a, -, ha⟩ := List.exists_of_findSome?_eq_some h
    split at ha
    next hopener =>
      obtain ⟨rfl, rfl⟩ := Prod.mk.inj (Option.some.inj ha)
      exact hopener
    next =>
      split at ha
      next hcloser =>
        obtain ⟨rfl, rfl⟩ := Prod.mk.inj (Option.some.inj ha)
        exact hcloser
      next => cases ha
  · rintro rfl
    cases b <;> cases side <;> rfl

theorem BracketAt.classify_eq_some_iff {c : Char} {p : Position} {b : BracketAt} :
    classify c p = some b ↔ c = b.char ∧ b.position = p := by
  rw [classify, Option.map_eq_some_iff]
  constructor
  · rintro ⟨⟨bracket, side⟩, hclass, rfl⟩
    exact ⟨Bracket.classify_eq_some_iff.mp hclass, rfl⟩
  · rintro ⟨hchar, rfl⟩
    exact ⟨(b.bracket, b.side), Bracket.classify_eq_some_iff.mpr hchar, rfl⟩

theorem QuoteState.code_of_unquoted {cells : List Cell} {previous : Option Char}
    (h : ∀ cell ∈ cells, Bracket.isQuote cell.char = false) :
    code (.outside previous) cells = cells := by
  induction cells generalizing previous with
  | nil => rfl
  | cons cell cells ih =>
      obtain ⟨hcell, hcells⟩ := List.forall_mem_cons.mp h
      have hnext : (outside previous).next cell.char = .outside (some cell.char) := by
        rw [next, hcell]
        rfl
      rw [code, hnext]
      exact congrArg (cell :: ·) (ih hcells)

/-- Whether a document has the bracket at its place. -/
def BracketAt.StandsIn (b : BracketAt) (d : Document) : Prop := d.charAt b.position = some b.char

namespace Document

variable {d : Document} {b : Bracket} {p : Position} {pre inner post : Text}

theorem exists_dividedAt_of_opening (h : (⟨b, .opening, p⟩ : BracketAt).StandsIn d) :
    ∃ pre post, d.DividedAt p pre (b.opener :: post) := (exists_dividedAt_of_charAt h).2

theorem exists_dividedAt_of_closing (h : (⟨b, .closing, p⟩ : BracketAt).StandsIn d) :
    ∃ pre post, d.DividedAt p pre (b.closer :: post) := (exists_dividedAt_of_charAt h).2

/-- Without quotes the walk forward passes over nothing. -/
theorem bracketPartner?_opening_of_unquoted (hdiv : d.DividedAt p pre (b.opener :: post))
    (hquotes : ∀ c ∈ d.text, Bracket.isQuote c = false) :
    d.bracketPartner? ⟨b, .opening, p⟩ =
      Cell.seek b.opener b.closer 0 (Cell.layOut (p.after b.opener) post) := by
  rw [bracketPartner?_opening_eq_seek hdiv, QuoteState.code_of_unquoted]
  intro cell hcell
  apply hquotes
  have hchar := List.mem_map_of_mem (f := Cell.char) hcell
  rw [← Cell.text, Cell.text_layOut] at hchar
  rw [hdiv.text_eq]
  exact List.mem_append_right _ (List.mem_cons_of_mem _ hchar)

/-- The partner of an opening bracket is the closing one that what is between them nests up to. -/
theorem bracketPartner?_opening
    (hdiv : d.DividedAt p pre (b.opener :: (inner ++ b.closer :: post))) (hinner : b.Nests inner)
    (hquotes : ∀ c ∈ d.text, Bracket.isQuote c = false) :
    d.bracketPartner? ⟨b, .opening, p⟩ = some ((p.after b.opener).afterText inner) := by
  rw [bracketPartner?_opening_of_unquoted hdiv hquotes, Cell.layOut_append]
  refine (hinner.seek_layOut 0 _ _).trans ?_
  rw [Cell.layOut_cons, Cell.seek_cons, if_neg b.closer_ne_opener, if_pos rfl]

theorem bracketPartner?_closing
    (hdiv : d.DividedAt p pre (b.opener :: (inner ++ b.closer :: post))) (hinner : b.Nests inner) :
    d.bracketPartner? ⟨b, .closing, (p.after b.opener).afterText inner⟩ = some p := by
  have hcloser : d.DividedAt ((p.after b.opener).afterText inner) _ (b.closer :: post) :=
    hdiv.next.append
  rw [bracketPartner?_closing_eq_seek hcloser, List.append_assoc, List.singleton_append,
    Cell.layOut_append, ← hdiv.position_eq, List.reverse_append, Cell.layOut_cons,
    List.reverse_cons, List.append_assoc, List.singleton_append]
  refine (hinner.seek_reverse_layOut 0 _ _).trans ?_
  rw [Cell.seek_cons, if_neg b.closer_ne_opener.symm, if_pos rfl]

/-- The walk backward from a closing bracket stops where what is between nests. -/
theorem exists_dividedAt_of_openingPartner {q : Position}
    (hcloser : (⟨b, .closing, p⟩ : BracketAt).StandsIn d)
    (h : d.bracketPartner? ⟨b, .closing, p⟩ = some q) :
    ∃ front inner behind, d.DividedAt q front (b.opener :: (inner ++ b.closer :: behind)) ∧
      b.Nests inner ∧ p = (q.after b.opener).afterText inner := by
  obtain ⟨pre, post, hdiv⟩ := exists_dividedAt_of_closing hcloser
  rw [bracketPartner?_closing_eq_seek hdiv] at h
  obtain ⟨front, inner, rfl, hinner, rfl⟩ := Bracket.exists_of_seek_reverse_layOut h
  refine ⟨front, inner, post, ⟨hdiv.text_eq.trans (by simp), rfl⟩, ?_, ?_⟩
  · exact Bracket.IsBalanced.nests hinner
  · exact hdiv.position_eq.trans (Position.afterText_append _ front _)

end Document

namespace BracketAt

variable {d : Document} {a b : BracketAt}

/-- There is one bracket at a place only. -/
theorem StandsIn.unique (ha : a.StandsIn d) (hb : b.StandsIn d) (h : a.position = b.position) :
    a = b := by
  have hchar : a.char = b.char := by
    rw [StandsIn, h] at ha
    exact Option.some.inj (ha.symm.trans hb)
  have hclass := classify_eq_some_iff.mpr ⟨rfl, h⟩
  rw [hchar] at hclass
  exact Option.some.inj (hclass.symm.trans (classify_eq_some_iff.mpr ⟨rfl, rfl⟩))

/-- Where a bracket has its partner, the other one of the pair stands. -/
theorem standsIn_of_partner {q : Position} (h : d.bracketPartner? a = some q) :
    (⟨a.bracket, a.side.other, q⟩ : BracketAt).StandsIn d :=
  Document.charAt_of_bracketPartner? h

/-- The partner of a bracket is one of the same pair. -/
theorem bracket_eq_of_partner (ha : a.StandsIn d) (h : d.bracketPartner? b = some a.position) :
    b.bracket = a.bracket := by
  rw [← (standsIn_of_partner h).unique ha rfl]

/-- Two brackets of a document each of which is the partner of the other one. -/
structure Mates (d : Document) (a b : BracketAt) : Prop where
  left : a.StandsIn d
  right : b.StandsIn d
  forth : d.bracketPartner? a = some b.position
  back : d.bracketPartner? b = some a.position

theorem Mates.symm (h : Mates d a b) : Mates d b a := ⟨h.right, h.left, h.back, h.forth⟩

/-- The two brackets around a text that nests. -/
theorem mates_of_nests {b : Bracket} {p : Position} {pre inner post : Text}
    (hdiv : d.DividedAt p pre (b.opener :: (inner ++ b.closer :: post))) (hinner : b.Nests inner)
    (hquotes : ∀ c ∈ d.text, Bracket.isQuote c = false) :
    Mates d ⟨b, .opening, p⟩ ⟨b, .closing, (p.after b.opener).afterText inner⟩ where
  left := hdiv.charAt_cons (b.char_ne_lineFeed .opening)
  right := by
    have hcloser : d.DividedAt ((p.after b.opener).afterText inner) _ (b.closer :: post) :=
      hdiv.next.append
    exact hcloser.charAt_cons (b.char_ne_lineFeed .closing)
  forth := Document.bracketPartner?_opening hdiv hinner hquotes
  back := Document.bracketPartner?_closing hdiv hinner

theorem StandsIn.exists_mates (h : a.StandsIn d) (hbalanced : a.bracket.IsBalanced d.text)
    (hquotes : ∀ c ∈ d.text, Bracket.isQuote c = false) : ∃ b, Mates d a b := by
  have hcell : ⟨a.position, a.char⟩ ∈ d.cells := Document.mem_cells_of_charAt h
  have hside : a.char = a.bracket.opener ∨ a.char = a.bracket.closer := by
    rw [char]
    cases a.side with
    | opening => exact .inl rfl
    | closing => exact .inr rfl
  obtain ⟨pre, inner, post, htext, hinner, hplace⟩ :=
    hbalanced.nests.exists_of_mem_layOut hcell hside
  have hmates := mates_of_nests (d := d) ⟨htext, rfl⟩ hinner hquotes
  rcases hplace with hopening | hclosing
  · rw [← h.unique hmates.left (congrArg Cell.position hopening)] at hmates
    exact ⟨_, hmates⟩
  · have hposition : a.position =
        ((Position.origin.afterText pre).after a.bracket.opener).afterText inner :=
      (congrArg Cell.position hclosing).trans (Position.afterText_append _ pre _)
    rw [← h.unique hmates.right hposition] at hmates
    exact ⟨_, hmates.symm⟩

/-- Without quotes, the partner of a bracket has that bracket for its own partner. -/
theorem StandsIn.exists_mates_of_partner {q : Position} (h : a.StandsIn d)
    (hquotes : ∀ c ∈ d.text, Bracket.isQuote c = false) (hpartner : d.bracketPartner? a = some q) :
    ∃ b, b.position = q ∧ Mates d a b := by
  obtain ⟨bracket, side, p⟩ := a
  cases side with
  | opening =>
      obtain ⟨pre, post, hdiv⟩ := Document.exists_dividedAt_of_opening h
      rw [Document.bracketPartner?_opening_of_unquoted hdiv hquotes] at hpartner
      obtain ⟨inner, behind, rfl, hinner, rfl⟩ := Bracket.exists_of_seek_layOut hpartner
      exact ⟨_, rfl, mates_of_nests hdiv (Bracket.IsBalanced.nests hinner) hquotes⟩
  | closing =>
      obtain ⟨front, inner, behind, hopening, hinner, rfl⟩ :=
        Document.exists_dividedAt_of_openingPartner h hpartner
      exact ⟨_, rfl, (mates_of_nests hopening hinner hquotes).symm⟩

end BracketAt

/-! ## Brackets that are deleted -/

theorem Bracket.char_stays (b : Bracket) (side : Side) :
    Unicode.isWhite (b.char side) = false ∧ b.char side ≠ ';' := by
  cases b <;> cases side <;> decide

theorem Range.covers_between_right_one {p q : Position} :
    (between p (p.right 1)).covers q ↔ q = p := by
  have hle : p ≤ p.right 1 := Position.le_of_lt (Position.lt_right_one.mpr (Position.le_refl p))
  rw [between_of_le hle, covers_iff, Position.lt_right_one]
  constructor
  · rintro ⟨hpq, hqp⟩
    exact Position.le_antisymm hqp hpq
  · rintro rfl
    exact ⟨Position.le_refl _, Position.le_refl _⟩

namespace Session

variable {s : Session} {a b : BracketAt}

/-- In a text without angles there are no tags, so what is on a partner are the mates of the
brackets that are selected. -/
theorem onPartner_iff (hplain : s.document.text.IsPlain)
    (hquotes : ∀ c ∈ s.document.text, Bracket.isQuote c = false)
    (hbalanced : a.bracket.IsBalanced s.document.text) (h : BracketAt.Mates s.document a b) :
    s.OnPartner a.position ↔ s.IsSelected b.position := by
  constructor
  · rintro ⟨selection, hselection, r, hpartner, hcovers⟩
    refine ⟨selection, hselection, ?_⟩
    cases hpartner with
    | tag within partner =>
        obtain ⟨pre, inner, post, hwritten⟩ := Document.exists_writtenIn_of_mem_tagsIn within
        have hopen : '<' ∈ s.document.text := by
          rw [hwritten.divided.text_eq, Text.angled_append]
          simp
        exact absurd rfl (hplain '<' hopen).1
    | @bracket p q c e taken hchar hclass partner =>
        obtain ⟨rfl, rfl⟩ := BracketAt.classify_eq_some_iff.mp hclass
        obtain rfl := Range.covers_between_right_one.mp hcovers
        have hbracket : e.bracket = a.bracket := BracketAt.bracket_eq_of_partner h.left partner
        obtain ⟨m, hmates⟩ := BracketAt.StandsIn.exists_mates hchar (hbracket ▸ hbalanced) hquotes
        -- the mate of `e` stands where `a` does, so it is `a`, and `e` is the mate of `a`
        have hposition : m.position = a.position :=
          Option.some.inj (hmates.forth.symm.trans partner)
        obtain rfl := hmates.right.unique h.left hposition
        rwa [Option.some.inj (h.forth.symm.trans hmates.back)]
  · rintro ⟨selection, hselection, htaken⟩
    refine ⟨selection, hselection, _, .bracket htaken h.right ?_ h.back, ?_⟩
    · exact BracketAt.classify_eq_some_iff.mpr ⟨rfl, rfl⟩
    · exact Range.covers_between_right_one.mpr rfl

/-- A bracket goes if and only if its mate does. -/
theorem covers_removed_mates (hvalid : s.IsValid) (hplain : s.document.text.IsPlain)
    (hquotes : ∀ c ∈ s.document.text, Bracket.isQuote c = false)
    (ha : a.bracket.IsBalanced s.document.text) (hb : b.bracket.IsBalanced s.document.text)
    (h : BracketAt.Mates s.document a b) :
    s.removed.covers a.position = s.removed.covers b.position := by
  have hremoved {a b : BracketAt} (ha : a.bracket.IsBalanced s.document.text)
      (h : BracketAt.Mates s.document a b) :
      s.removed.covers a.position ↔ s.IsSelected a.position ∨ s.IsSelected b.position := by
    obtain ⟨hwhite, hsemicolon⟩ := a.bracket.char_stays a.side
    rw [covers_removed_iff hvalid (Document.mem_cells_of_charAt h.left) hwhite hsemicolon,
      onPartner_iff hplain hquotes ha h]
  rw [Bool.eq_iff_iff, hremoved ha h, hremoved hb h.symm, or_comm]

/-- Deleting selections together with partners keeps brackets balanced: in a text without quotes
and angles, every pair that balances before the deletion balances after it, whether or not the other
pairs do. -/
theorem execute_deleteSelectionWithPairs_isBalanced (s : Session) (hsome : s.selections ≠ [])
    (hvalid : s.IsValid) (hplain : s.document.text.IsPlain)
    (hquotes : ∀ c ∈ s.document.text, Bracket.isQuote c = false) :
    ∃ count after, s.execute .deleteSelectionWithPairs = .ok (.applied count false, after) ∧
      ∀ b : Bracket, b.IsBalanced s.document.text → b.IsBalanced after.document.text := by
  obtain ⟨count, after, hexecute, hafter⟩ := exists_execute_deleteSelectionWithPairs hsome hvalid
  refine ⟨count, after, hexecute, ?_⟩
  intro b hbalanced
  have htext : after.document.text =
      Cell.text (s.document.cells.filter (!s.removed.covers ·.position)) :=
    congrArg Document.text hafter
  rw [htext]
  apply Bracket.Nests.isBalanced
  apply hbalanced.nests.filter_layOut
  intro pre inner post htext hinner
  have hmates := BracketAt.mates_of_nests (d := s.document) ⟨htext, rfl⟩ hinner hquotes
  rw [Position.afterText_append]
  exact covers_removed_mates hvalid hplain hquotes hbalanced hbalanced hmates

/-- In `(a[b)c]` the parenthesis and the square bracket that are selected take theirs along. -/
theorem execute_deleteSelectionWithPairs_isBalanced_crossed :
    let s : Session := ⟨⟨['(', 'a', '[', 'b', ')', 'c', ']'], .lf⟩,
      [⟨⟨0, 1⟩, ⟨0, 3⟩⟩, .caret ⟨0, 4⟩], .default, .other⟩
    s.selections ≠ [] ∧ s.IsValid ∧ s.document.text.IsPlain ∧
      (∀ c ∈ s.document.text, Bracket.isQuote c = false) ∧
      (∀ b ∈ Bracket.all, b.IsBalanced s.document.text) ∧
      ∃ count after, s.execute .deleteSelectionWithPairs = .ok (.applied count false, after) ∧
        ∀ b ∈ Bracket.all, b.IsBalanced after.document.text := by
  intro s
  have hsome : s.selections ≠ [] := List.cons_ne_nil _ _
  have hvalid : s.IsValid := by decide
  have hplain : s.document.text.IsPlain := by decide
  have hquotes : ∀ c ∈ s.document.text, Bracket.isQuote c = false := by
    simp [s, Bracket.isQuote]
  have hbalanced : ∀ b ∈ Bracket.all, b.IsBalanced s.document.text := by decide
  refine ⟨hsome, hvalid, hplain, hquotes, hbalanced, ?_⟩
  obtain ⟨count, after, hexecute, hafter⟩ :=
    execute_deleteSelectionWithPairs_isBalanced s hsome hvalid hplain hquotes
  exact ⟨count, after, hexecute, fun b hb => hafter b (hbalanced b hb)⟩

end Session

end MarkupPairs
