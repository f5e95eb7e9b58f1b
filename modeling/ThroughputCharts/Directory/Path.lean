import ThroughputCharts.Text.Split

/-!
# Paths

A path is a text taken apart at its slashes.  Following it and shortening it are different things:
every name counts when a path is followed, single dots included, while the path above it is found by
dropping single dots and empty names from its end.
-/

namespace ThroughputCharts

/-- The parts of a path between its slashes, behind the slash that an absolute path starts with. -/
structure Path where
  absolute : Bool
  parts : List String
  deriving DecidableEq

namespace Path

def ofText (text : String) : Path :=
  match Text.pieces '/' text.toList with
  | [] :: piece :: others => ⟨true, (piece :: others).map String.ofList⟩
  | pieces => ⟨false, pieces.map String.ofList⟩

def text (path : Path) : String :=
  (if path.absolute then "/" else "") ++ "/".intercalate path.parts

/-- Whether a path is the empty text, which names nothing. -/
def isEmpty (path : Path) : Bool :=
  !path.absolute && path.parts.all (· == "")

def names (path : Path) : List String :=
  path.parts.filter (· ≠ "")

/-- Whether a slash stands behind the last name. -/
def endsInSlash (path : Path) : Bool :=
  path.parts.getLast? == some ""

/-- Whether a part at the end of a path is passed over when the path is shortened. -/
def isIdle (part : String) : Bool :=
  part == "" || part == "."

/-- Parts without the idle ones at their end. -/
def dropIdle (parts : List String) : List String :=
  (parts.reverse.dropWhile isIdle).reverse

/-- The parts of a path without the idle ones at its end; the first part of a relative path is never
idle. -/
def settled (path : Path) : List String :=
  match path.absolute, path.parts with
  | false, first :: rest => if first = "" then [] else first :: dropIdle rest
  | _, parts => dropIdle parts

/-- The path without its last part, unless it has none. -/
def parent? (path : Path) : Option Path :=
  if path.settled = [] then
    none
  else
    some { path with parts := settled { path with parts := path.settled.dropLast } }

/-- The directory that a file is in, unless that is where relative paths start. -/
def folderOf? (file : String) : Option String :=
  ((ofText file).parent?.map text).filter (· ≠ "")

/-- The text of a path to a file in a directory. -/
def join (directory file : String) : String :=
  if directory = "" ∨ directory.toList.getLast? = some '/' then
    directory ++ file
  else
    directory ++ "/" ++ file

end Path

end ThroughputCharts
