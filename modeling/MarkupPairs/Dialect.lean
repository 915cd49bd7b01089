import MarkupPairs.Text

/-!
# Markup dialects

Which dialect a file is written in shows in the extension of its name, and decides how an element
says its classes.
-/

namespace MarkupPairs

inductive Dialect where
  | html
  | jsx
  /-- Any other text: tags are found in it, but it has no class attribute. -/
  | other
deriving DecidableEq

namespace Dialect

/-- The dialect that an extension without its dot stands for, in capitals or not. -/
def ofExtension (extension : Text) : Dialect :=
  let lower := String.ofList (extension.map Char.toLower)
  if lower = "html" ∨ lower = "htm" then html
  else if lower = "jsx" ∨ lower = "tsx" then jsx
  else other

/-- A path read backward, without the slashes it ends with and the steps that stay in place. -/
def dropTrailing : Text → Text
  | '/' :: rest => dropTrailing rest
  | '.' :: '/' :: rest => dropTrailing ('/' :: rest)
  | rest => rest
termination_by path => path.length

/-- The name of the file at a path, read backward. -/
def reversedFileName (path : Text) : Text := (dropTrailing path.reverse).takeWhile (· != '/')

/-- The extension of the file at a path: what follows the last dot of its name, unless nothing is in
front of that dot. The step to a parent directory has none. -/
def extension? (path : Text) : Option Text :=
  let name := reversedFileName path
  if name = ['.', '.'] then none
  else
    match name.dropWhile (· != '.') with
    | '.' :: _ :: _ => some (name.takeWhile (· != '.')).reverse
    | _ => none

def ofPath (path : Text) : Dialect := ((extension? path).map ofExtension).getD other

/-- The attribute that holds the classes of an element. -/
def classAttribute : Dialect → Option Text
  | html => some "class".toList
  | jsx => some "className".toList
  | other => none

/-- A class attribute without classes, as it is put after the name of a tag. -/
def emptyClassAttribute (d : Dialect) : Option Text :=
  d.classAttribute.map fun name => ' ' :: (name ++ ['=', '\x22', '\x22'])

def supportsClasses (d : Dialect) : Bool := d.classAttribute.isSome

end Dialect

end MarkupPairs
