import MarkupPairs.Count
import MarkupPairs.Json.Value
import MarkupPairs.Tag.Basic
import MarkupPairs.Wrap

/-!
# Settings

The settings of the commands come as a text in JSON. Fields that it leaves out have their defaults,
fields that are unknown are passed over. What is read must make sense: tags have names, spaces
indent by one at least, and searches look at one line at least.
-/

namespace MarkupPairs

structure Settings where
  inlineTag : Text
  blockTag : Text
  selfClosingTag : Text
  /-- Whether the host shall rename a tag that was put in. -/
  autoRename : Bool
  /-- One level of indentation in a block. -/
  indent : IndentUnit
  /-- How far the searches for tags go. -/
  limits : ScanLimits
deriving DecidableEq

inductive SettingsError where
  | malformed
  | emptyTagName (field : String)
  | emptyIndent
  /-- A search that looks at no line. -/
  | emptyWindow (field : String)
deriving DecidableEq

namespace SettingsError

/-- The wording of the error. A malformed text has none of its own. -/
def message? : SettingsError → Option String
  | malformed => none
  | emptyTagName field => some ("tag name for '" ++ field ++ "' must not be empty")
  | emptyIndent => some "indentation must be at least one space, got 0"
  | emptyWindow field => some ("scan window '" ++ field ++ "' must cover at least one line")

end SettingsError

/-- The count of lines or spaces that a value spells. -/
def Json.asCount? (j : Json) : Option Nat := j.asNat?.filter (· ≤ maxCount)

def IndentUnit.ofJson? : Json → Option IndentUnit
  | .string text? => if text? = some "tab".toList then some .tab else none
  | .object [(key, value)] =>
    if key = some "spaces".toList then value.asCount?.map .spaces
    else if key = some "tab".toList then
      match value with
      | .null => some .tab
      | _ => none
    else none
  | _ => none

/-- A field as it is read, or its default when it is left out. -/
def Json.fieldOr {α : Type} (default : α) (read : Json → Option α) : Option Json → Option α
  | none => some default
  | some j => read j

namespace ScanLimits

def fieldNames : List Text :=
  ["enclosingLines", "pairedLines", "surroundingLines"].map String.toList

def ofJson? (j : Json) : Option ScanLimits := do
  match ← j.asRecord? fieldNames with
  | [enclosing, paired, surrounding] =>
    some
      { enclosing := ← Json.fieldOr default.enclosing Json.asCount? enclosing
        paired := ← Json.fieldOr default.paired Json.asCount? paired
        surrounding := ← Json.fieldOr default.surrounding Json.asCount? surrounding }
  | _ => none

/-- The first limit under which a search looks at no line. -/
def firstEmpty? (limits : ScanLimits) : Option String :=
  if limits.enclosing = 0 then some "enclosingLines"
  else if limits.paired = 0 then some "pairedLines"
  else if limits.surrounding = 0 then some "surroundingLines"
  else none

end ScanLimits

namespace Settings

def default : Settings where
  inlineTag := "span".toList
  blockTag := "div".toList
  selfClosingTag := "div".toList
  autoRename := false
  indent := .spaces 2
  limits := .default

def fieldNames : List Text :=
  ["defaultInlineTag", "defaultBlockTag", "defaultSelfClosingTag", "autoRename", "indent",
    "limits"].map String.toList

def ofJson? (j : Json) : Option Settings := do
  match ← j.asRecord? fieldNames with
  | [inlineTag, blockTag, selfClosingTag, autoRename, indent, limits] =>
    some
      { inlineTag := ← Json.fieldOr default.inlineTag Json.asText? inlineTag
        blockTag := ← Json.fieldOr default.blockTag Json.asText? blockTag
        selfClosingTag := ← Json.fieldOr default.selfClosingTag Json.asText? selfClosingTag
        autoRename := ← Json.fieldOr default.autoRename Json.asBool? autoRename
        indent := ← Json.fieldOr default.indent IndentUnit.ofJson? indent
        limits := ← Json.fieldOr default.limits ScanLimits.ofJson? limits }
  | _ => none

/-- The first thing about the settings that makes no sense. -/
def firstError? (s : Settings) : Option SettingsError :=
  if s.inlineTag.isBlank then some (.emptyTagName "defaultInlineTag")
  else if s.blockTag.isBlank then some (.emptyTagName "defaultBlockTag")
  else if s.selfClosingTag.isBlank then some (.emptyTagName "defaultSelfClosingTag")
  else if s.indent = .spaces 0 then some .emptyIndent
  else s.limits.firstEmpty?.map .emptyWindow

/-- The settings that a text in JSON says, if they make sense. -/
def parse (t : Text) : Except SettingsError Settings :=
  match Json.parse? t >>= ofJson? with
  | none => .error .malformed
  | some settings =>
    match settings.firstError? with
    | some e => .error e
    | none => .ok settings

end Settings

end MarkupPairs
