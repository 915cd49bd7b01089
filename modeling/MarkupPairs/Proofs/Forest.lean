import Mathlib.Data.List.Infix
import MarkupPairs.Proofs.Angles
import MarkupPairs.Proofs.TagCharacters

/-!
# Markup forests

A forest is well-formed markup as a tree: text, elements by themselves, elements and fragments with
their content, and comments. It knows its text, and for a place at which that text starts, its tags,
the pairs that they make and its comments, with their ranges.
-/

namespace MarkupPairs

/-! ## The parts of a tag -/

/-- A name that is read alike everywhere: an ASCII letter, then ASCII letters and digits. -/
structure TagName where
  first : Char
  rest : Text
  first_isAlpha : first.isAlpha
  isAlphanum_rest : rest.all Char.isAlphanum

/-- What follows the name in a tag: nothing, or a blank and then anything but angles. -/
structure Attributes where
  text : Text
  isWhite_head : text.head?.all Unicode.isWhite
  isPlain : text.IsPlain

/-- The attributes of an opening tag. The last character that is not blank is no slash, for with
one the tag would be an element by itself. -/
structure OpeningAttributes extends Attributes where
  unslashed : text.trimEnd.getLast? ≠ some '/'

/-- Blanks, as they may stand before the `>` of a closing tag. -/
structure Blank where
  text : Text
  isWhite_text : text.all Unicode.isWhite

/-- What a comment says. Its angles balance, and it neither opens nor closes a comment. -/
structure CommentBody where
  text : Text
  isBalanced : text.IsBalanced
  not_opening : ¬['<', '!', '-', '-'] <:+: text
  not_closing : ¬['-', '-', '>'] <:+: text

/-- Text between tags. -/
structure PlainText where
  text : Text
  isPlain : text.IsPlain

/-- The two tags around the content of an element. Those of a fragment say nothing. -/
inductive Shell where
  | element (name : TagName) (attributes : OpeningAttributes) (blank : Blank)
  | fragment

namespace TagName

/-- The characters of the name. -/
def text (n : TagName) : Text := n.first :: n.rest

theorem isAlphanum (n : TagName) {c : Char} (h : c ∈ n.text) : c.isAlphanum := by
  rcases List.mem_cons.mp h with rfl | h
  · simp [Char.isAlphanum, n.first_isAlpha]
  · exact List.all_eq_true.mp n.isAlphanum_rest c h

theorem isPlain (n : TagName) : n.text.IsPlain := fun _ hc =>
  ⟨Unicode.ne_of_isAlphanum (n.isAlphanum hc) rfl, Unicode.ne_of_isAlphanum (n.isAlphanum hc) rfl⟩

end TagName

theorem Blank.isWhite (b : Blank) {c : Char} (h : c ∈ b.text) : Unicode.isWhite c :=
  List.all_eq_true.mp b.isWhite_text c h

theorem Blank.isPlain (b : Blank) : b.text.IsPlain := by
  intro c hc
  exact ⟨Unicode.ne_of_isWhite (b.isWhite hc) (by decide),
    Unicode.ne_of_isWhite (b.isWhite hc) (by decide)⟩

namespace Shell

/-- The name of the element. -/
def name : Shell → Text
  | element name _ _ => name.text
  | fragment => []

/-- What follows the name in the opening tag. -/
def attributes : Shell → Text
  | element _ attributes _ => attributes.text
  | fragment => []

/-- What follows the name in the closing tag. -/
def blank : Shell → Text
  | element _ _ blank => blank.text
  | fragment => []

/-- What the opening tag says. -/
def opening (s : Shell) : Text := s.name ++ s.attributes

/-- What the closing tag says. -/
def closing (s : Shell) : Text := '/' :: s.name ++ s.blank

/-- The opening tag, for a place where it starts. -/
def openingTag (s : Shell) (p : Position) : Tag :=
  ⟨s.name, .opening, Range.spanning p s.opening.angled⟩

/-- The closing tag, for a place where it starts. -/
def closingTag (s : Shell) (p : Position) : Tag :=
  ⟨s.name, .closing, Range.spanning p s.closing.angled⟩

theorem isPlain_opening (s : Shell) : s.opening.IsPlain := by
  cases s with
  | element name attributes blank =>
      exact Text.isPlain_append.mpr ⟨name.isPlain, attributes.isPlain⟩
  | fragment => exact Text.isPlain_nil

theorem isPlain_closing (s : Shell) : s.closing.IsPlain := by
  cases s with
  | element name attributes blank =>
      have htext : Text.IsPlain ['/'] := by decide
      exact Text.isPlain_append.mpr ⟨Text.isPlain_append.mpr ⟨htext, name.isPlain⟩, blank.isPlain⟩
  | fragment => decide

end Shell

/-! ## Forests -/

/-- Well-formed markup, as the first of its parts and the forest of the others. -/
inductive Forest where
  | nil
  | text (t : PlainText) (rest : Forest)
  | single (name : TagName) (attributes : Attributes) (rest : Forest)
  | node (shell : Shell) (content rest : Forest)
  | comment (body : CommentBody) (rest : Forest)

/-- What the tag of an element by itself says. -/
def TagName.single (n : TagName) (a : Attributes) : Text := n.text ++ (a.text ++ ['/'])

theorem TagName.isPlain_single (n : TagName) (a : Attributes) : (n.single a).IsPlain :=
  Text.isPlain_append.mpr ⟨n.isPlain, Text.isPlain_append.mpr ⟨a.isPlain, by decide⟩⟩

/-- The tag of an element by itself, for a place where it starts. -/
def TagName.singleTag (n : TagName) (a : Attributes) (p : Position) : Tag :=
  ⟨n.text, .selfClosing, Range.spanning p (n.single a).angled⟩

/-- A comment as it stands between angles. -/
def CommentBody.dashed (c : CommentBody) : Text := ['!', '-', '-'] ++ c.text ++ ['-', '-']

namespace Forest

/-- The text of a forest. -/
def toText : Forest → Text
  | nil => []
  | text t rest => t.text ++ rest.toText
  | single n a rest => (n.single a).angled ++ rest.toText
  | node s content rest => s.opening.angled ++ (content.toText ++ (s.closing.angled ++ rest.toText))
  | comment c rest => c.dashed.angled ++ rest.toText

/-- Where the content of a node starts when the node starts at `p`. -/
def contentStart (s : Shell) (p : Position) : Position := p.afterText s.opening.angled

/-- Where the content of a node stops when the node starts at `p`. -/
def contentStop (s : Shell) (content : Forest) (p : Position) : Position :=
  (contentStart s p).afterText content.toText

/-- Where a node stops when it starts at `p`. -/
def nodeStop (s : Shell) (content : Forest) (p : Position) : Position :=
  (contentStop s content p).afterText s.closing.angled

/-- All tags of a forest that starts at a place, in reading order. -/
def tags : Position → Forest → List Tag
  | _, nil => []
  | p, text t rest => rest.tags (p.afterText t.text)
  | p, single n a rest => n.singleTag a p :: rest.tags (p.afterText (n.single a).angled)
  | p, node s content rest =>
    s.openingTag p :: content.tags (contentStart s p) ++
      s.closingTag (contentStop s content p) :: rest.tags (nodeStop s content p)
  | p, comment c rest => rest.tags (p.afterText c.dashed.angled)

/-- The opening and the closing tag of each element and fragment, by the order of the opening
tags. -/
def pairs : Position → Forest → List (Tag × Tag)
  | _, nil => []
  | p, text t rest => rest.pairs (p.afterText t.text)
  | p, single n a rest => rest.pairs (p.afterText (n.single a).angled)
  | p, node s content rest =>
    (s.openingTag p, s.closingTag (contentStop s content p)) ::
      content.pairs (contentStart s p) ++ rest.pairs (nodeStop s content p)
  | p, comment c rest => rest.pairs (p.afterText c.dashed.angled)

/-- The ranges of the comments. -/
def comments : Position → Forest → List Range
  | _, nil => []
  | p, text t rest => rest.comments (p.afterText t.text)
  | p, single n a rest => rest.comments (p.afterText (n.single a).angled)
  | p, node s content rest =>
    content.comments (contentStart s p) ++ rest.comments (nodeStop s content p)
  | p, comment c rest =>
    Range.spanning p c.dashed.angled :: rest.comments (p.afterText c.dashed.angled)

/-- Whether a forest has no comments. -/
def IsUncommented : Forest → Prop
  | nil => True
  | text _ rest => rest.IsUncommented
  | single _ _ rest => rest.IsUncommented
  | node _ content rest => content.IsUncommented ∧ rest.IsUncommented
  | comment _ _ => False

/-- Whether no opening tag of a forest ends in two dashes, as a comment does. -/
def IsUndashed : Forest → Prop
  | nil => True
  | text _ rest => rest.IsUndashed
  | single _ _ rest => rest.IsUndashed
  | node s content rest => ¬['-', '-'] <:+ s.attributes ∧ content.IsUndashed ∧ rest.IsUndashed
  | comment _ rest => rest.IsUndashed

/-- Where a pair of tags stands in the text of the forest: around the text of the content, which is
a forest again. -/
theorem exists_of_mem_pairs {f : Forest} {p : Position} {x : Tag × Tag} (h : x ∈ f.pairs p) :
    ∃ (pre post : Text) (s : Shell) (content : Forest),
      f.toText = pre ++ (s.opening.angled ++ (content.toText ++ (s.closing.angled ++ post))) ∧
      x = (s.openingTag (p.afterText pre), s.closingTag (contentStop s content (p.afterText pre))) ∧
      (f.IsUncommented → content.IsUncommented) := by
  induction f generalizing p with
  | nil => cases h
  | text t rest ih =>
      obtain ⟨pre, post, s, content, htext, hx, hun⟩ := ih h
      exact ⟨t.text ++ pre, post, s, content, by rw [toText, htext, List.append_assoc],
        by rw [hx, Position.afterText_append], hun⟩
  | single n a rest ih =>
      obtain ⟨pre, post, s, content, htext, hx, hun⟩ := ih h
      exact ⟨(n.single a).angled ++ pre, post, s, content,
        by rw [toText, htext, List.append_assoc], by rw [hx, Position.afterText_append], hun⟩
  | node s content rest ihContent ih =>
      rw [pairs, List.cons_append, List.mem_cons, List.mem_append] at h
      rcases h with rfl | h | h
      · exact ⟨[], rest.toText, s, content, rfl, rfl, And.left⟩
      · obtain ⟨pre, post, s', content', htext, hx, hun⟩ := ihContent h
        refine ⟨s.opening.angled ++ pre, post ++ (s.closing.angled ++ rest.toText), s', content',
          ?_, ?_, fun hboth => hun hboth.1⟩
        · rw [toText, htext]
          simp only [List.append_assoc]
        · rw [hx, Position.afterText_append, contentStart]
      · obtain ⟨pre, post, s', content', htext, hx, hun⟩ := ih h
        refine ⟨s.opening.angled ++ (content.toText ++ (s.closing.angled ++ pre)), post, s',
          content', ?_, ?_, fun hboth => hun hboth.2⟩
        · rw [toText, htext]
          simp only [List.append_assoc]
        · simp only [hx, nodeStop, contentStop, contentStart, Position.afterText_append]
  | comment c rest ih =>
      obtain ⟨pre, post, s, content, htext, hx, -⟩ := ih h
      exact ⟨c.dashed.angled ++ pre, post, s, content, by rw [toText, htext, List.append_assoc],
        by rw [hx, Position.afterText_append], False.elim⟩

/-- An element that holds one by itself of its own name and a fragment. Its tags run over several
lines: `<a1 b`, `><a1/><>x</></a1` and `>`. -/
def sample : Forest :=
  node (.element ⟨'a', ['1'], by decide, by decide⟩
      ⟨⟨[' ', 'b', '\n'], by decide, by decide⟩, by decide⟩ ⟨['\n'], by decide⟩)
    (single ⟨'a', ['1'], by decide, by decide⟩ ⟨[], by decide, by decide⟩
      (node .fragment (text ⟨['x'], by decide⟩ nil) nil)) nil

/-- An element that holds a comment with a tag in it, an element by itself and a letter:
`<a><!--<b>--><c/>x</a>`. -/
def commented : Forest :=
  node (.element ⟨'a', [], by decide, by decide⟩ ⟨⟨[], by decide, by decide⟩, by decide⟩
      ⟨[], by decide⟩)
    (comment ⟨['<', 'b', '>'], by decide, by decide, by decide⟩
      (single ⟨'c', [], by decide, by decide⟩ ⟨[], by decide, by decide⟩
        (text ⟨['x'], by decide⟩ nil))) nil

end Forest

end MarkupPairs
