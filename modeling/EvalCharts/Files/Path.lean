/-
Module: EvalCharts.Files.Path
Purpose: Paths as texts: the names they consist of, the extension of a file name, and the path of a
  file in a directory.
Main exports: Path.names, Path.fileName?, Path.extension?, Path.join
-/
import EvalCharts.Text

namespace EvalCharts.Path

/-- The names between the slashes of a path. Some of them may be empty. -/
def names (path : String) : List String :=
  (Text.cut '/' path.toList).map String.ofList

/-- A name that stands for the directory in which it is looked up. -/
def isBlank (name : String) : Bool :=
  name == "" || name == "."

/-- The last name of a path, unless it leads upwards. -/
def fileName? (path : String) : Option String :=
  match ((names path).filter fun name => !isBlank name).getLast? with
  | some ".." => none
  | name? => name?

/-- What follows the last dot of a name. A dot at the beginning of a name separates nothing. -/
def extensionOf? (name : List Char) : Option (List Char) :=
  let reversed := name.reverse
  match reversed.dropWhile (· ≠ '.') with
  | [] => none
  | _ :: [] => none
  | _ :: _ => some (reversed.takeWhile (· ≠ '.')).reverse

/-- The extension of the file that a path leads to. -/
def extension? (path : String) : Option String :=
  (fileName? path).bind fun name => (extensionOf? name.toList).map String.ofList

/-- The path of a file in a directory. -/
def join (directory name : String) : String :=
  if directory = "" ∨ directory.toList.getLast? = some '/' then directory ++ name
  else directory ++ "/" ++ name

end EvalCharts.Path
