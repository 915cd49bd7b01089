import MarkupPairs.Document
import MarkupPairs.Tag.Basic

/-!
# The tags within a range

One pass over the text of a range finds the `>` that takes each of its `<`. A span between such
angles that is a tag is passed over as a whole; one that is none, such as a comment, is searched
inside.
-/

namespace MarkupPairs

/-- A pass over a text that pairs its angles, by their indices. -/
structure AnglePass where
  /-- How many characters are read. -/
  read : Nat
  /-- The `<` that are open, the latest first. -/
  opened : List Nat
  /-- At each index the `>` that takes the `<` there, as far as it is read. -/
  closes : List (Option Nat)
  opened_lt : ∀ i ∈ opened, i < read
  lt_of_closes : ∀ i j : Nat, closes[i]? = some (some j) → i < j

namespace AnglePass

/-- The pass that has read nothing of a text of so many characters. -/
def start (length : Nat) : AnglePass where
  read := 0
  opened := []
  closes := List.replicate length none
  opened_lt := by simp
  lt_of_closes := by simp [List.getElem?_replicate]

/-- Reads a `<`. -/
def push (pass : AnglePass) : AnglePass where
  read := pass.read + 1
  opened := pass.read :: pass.opened
  closes := pass.closes
  opened_lt := List.forall_mem_cons.mpr
    ⟨Nat.lt_succ_self _, fun i hi => Nat.lt_succ_of_lt (pass.opened_lt i hi)⟩
  lt_of_closes := pass.lt_of_closes

theorem lt_of_closes_set (pass : AnglePass) {k : Nat} (hk : k < pass.read) (i j : Nat)
    (h : (pass.closes.set k (some pass.read))[i]? = some (some j)) : i < j := by
  rw [List.getElem?_set] at h
  split at h
  next hi =>
    split at h
    next => exact hi ▸ Option.some.inj (Option.some.inj h) ▸ hk
    next => cases h
  next => exact pass.lt_of_closes i j h

/-- Reads a `>`, which takes the latest `<` that is open. -/
def pop (pass : AnglePass) : AnglePass where
  read := pass.read + 1
  opened := pass.opened.tail
  closes :=
    match pass.opened.head? with
    | some i => pass.closes.set i (some pass.read)
    | none => pass.closes
  opened_lt i hi := Nat.lt_succ_of_lt (pass.opened_lt i (List.mem_of_mem_tail hi))
  lt_of_closes i j h := by
    split at h
    next k hk => exact pass.lt_of_closes_set (pass.opened_lt k (List.mem_of_head? hk)) i j h
    next => exact pass.lt_of_closes i j h

/-- Reads a character that is no angle. -/
def skip (pass : AnglePass) : AnglePass where
  read := pass.read + 1
  opened := pass.opened
  closes := pass.closes
  opened_lt i hi := Nat.lt_succ_of_lt (pass.opened_lt i hi)
  lt_of_closes := pass.lt_of_closes

def step (pass : AnglePass) (c : Char) : AnglePass :=
  if c = '<' then pass.push else if c = '>' then pass.pop else pass.skip

/-- The pass that has read a text. -/
def run (t : Text) : AnglePass := t.foldl step (start t.length)

end AnglePass

/-- The tags of a text from the index `i` on. The text stands in the document at the offset `base`,
and `angles` is the pass that has read it. -/
def Document.tagsFrom (d : Document) (base : Nat) (t : Text) (angles : AnglePass) (i : Nat) :
    List Tag :=
  if i < t.length then
    match h : angles.closes[i]? with
    | some (some stop) =>
      let range := Range.between (d.positionAt (base + i)) (d.positionAt (base + stop + 1))
      match Tag.parse? ((t.take (stop + 1)).drop i) range with
      | some tag => tag :: d.tagsFrom base t angles (stop + 1)
      | none => d.tagsFrom base t angles (i + 1)
    | _ => d.tagsFrom base t angles (i + 1)
  else []
termination_by t.length - i
decreasing_by
  · have := angles.lt_of_closes i stop h
    omega
  all_goals omega

/-- The tags that lie completely within a range, in reading order. -/
def Document.tagsIn (d : Document) (r : Range) : List Tag :=
  let t := d.slice r
  d.tagsFrom (d.offsetAt r.start) t (.run t) 0

end MarkupPairs
