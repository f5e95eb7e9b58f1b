import ThroughputCharts.Directory.Path
import ThroughputCharts.Drawing

/-!
# Directories

A directory tree holds what a run can read and what it leaves behind.  Places are told by the names
on the way from the working directory; those above it exist, but nothing in them is known except the
null file.
-/

namespace ThroughputCharts

inductive Content
  | bytes (bytes : List UInt8)
  | drawing (drawing : Drawing)

/-- The names on the way from the working directory to a place. -/
abbrev Place := List String

/-- The working directory with everything below it. -/
structure Directory where
  folders : List Place
  files : List (Place × Content)

namespace Directory

inductive Fault
  | notFound
  | alreadyExists
  | notDirectory
  | isDirectory
  | nameTooLong
  | zeroCharacter
  deriving DecidableEq

def Fault.message : Fault → String
  | .notFound => "No such file or directory (os error 2)"
  | .alreadyExists => "File exists (os error 17)"
  | .notDirectory => "Not a directory (os error 20)"
  | .isDirectory => "Is a directory (os error 21)"
  | .nameTooLong => "File name too long (os error 36)"
  | .zeroCharacter => "file name contained an unexpected NUL byte"

inductive Entry
  | folder
  | file (content : Content)

/-- The greatest length of a name in bytes. -/
def maxNameLength : Nat := 255

/-- The greatest length of a path in bytes. -/
def maxPathLength : Nat := 4095

/-- The top of the tree, where absolute paths start. -/
def root : Place := ["/"]

/-- Whether a place is on the way from the working directory upward. -/
def isAbove (place : Place) : Bool :=
  place.all (· == "..") || place == root

def entry? (directory : Directory) (place : Place) : Option Entry :=
  if isAbove place || directory.folders.contains place then
    some .folder
  else
    (directory.files.lookup place).map .file

def up (place : Place) : Place :=
  if place = root then root
  else if isAbove place then place ++ [".."]
  else place.dropLast

def find (directory : Directory) (folder : Place) (name : String) : Except Fault (Option Entry) :=
  if maxNameLength < name.utf8ByteSize then
    .error .nameTooLong
  else
    .ok (directory.entry? (folder ++ [name]))

/-- The directory that a name leads to from another one. -/
def enter (directory : Directory) (folder : Place) (name : String) : Except Fault Place :=
  if name = "." then
    .ok folder
  else if name = ".." then
    .ok (up folder)
  else
    match directory.find folder name with
    | .ok (some .folder) => .ok (folder ++ [name])
    | .ok (some (.file _)) => .error .notDirectory
    | .ok none => .error .notFound
    | .error fault => .error fault

/-- The directory that the first names of a path lead to.  No path is followed whose text is empty, too
long or holds a zero character. -/
def walk (directory : Directory) (path : Path) (names : List String) : Except Fault Place :=
  let text := path.text
  if text.toList.contains '\x00' then .error .zeroCharacter
  else if path.isEmpty then .error .notFound
  else if maxPathLength < text.utf8ByteSize then .error .nameTooLong
  else names.foldlM (enter directory) (if path.absolute then root else [])

/-- What the last name of a path stands for: a directory that is already there, or a name in one. -/
inductive Target
  | folder (place : Place)
  | member (folder : Place) (name : String)

def locate (directory : Directory) (path : Path) : Except Fault Target :=
  (directory.walk path path.names.dropLast).map fun folder =>
    match path.names.getLast? with
    | none | some "." => .folder folder
    | some ".." => .folder (up folder)
    | some name => .member folder name

def read (directory : Directory) (text : String) : Except Fault Content := do
  let path := Path.ofText text
  match ← directory.locate path with
  | .folder _ => throw .isDirectory
  | .member folder name =>
    match ← directory.find folder name with
    | none => throw .notFound
    | some .folder => throw .isDirectory
    | some (.file content) =>
      if path.endsInSlash then throw .notDirectory else return content

/-- The directory after the content of a file was set, whether the file existed or not. -/
def put (directory : Directory) (place : Place) (content : Content) : Directory :=
  { directory with
    files := (place, content) :: directory.files.filter fun file => file.1 != place }

/-- Sets the content of a file; a path that ends in a slash can only name a directory. -/
def write (directory : Directory) (text : String) (content : Content) :
    Except Fault Directory := do
  let path := Path.ofText text
  match ← directory.locate path with
  | .folder _ => throw .isDirectory
  | .member folder name =>
    if path.endsInSlash then
      throw .isDirectory
    match ← directory.find folder name with
    | some .folder => throw .isDirectory
    | _ => return directory.put (folder ++ [name]) content

/-- Creates one directory, where nothing may stand yet. -/
def createOne (directory : Directory) (path : Path) : Except Fault Directory := do
  match ← directory.locate path with
  | .folder _ => throw .alreadyExists
  | .member folder name =>
    match ← directory.find folder name with
    | some _ => throw .alreadyExists
    | none => return { directory with folders := (folder ++ [name]) :: directory.folders }

def isFolder (directory : Directory) (path : Path) : Bool :=
  (directory.walk path path.names).isOk

def ensureOne (directory : Directory) (path : Path) : Directory × Option Fault :=
  match directory.createOne path with
  | .ok created => (created, none)
  | .error fault => (directory, if directory.isFolder path then none else some fault)

/-- Creates the directory of a path and those above it that are missing; `depth` bounds how many
those are. -/
def ensure (directory : Directory) (path : Path) : (depth : Nat) → Directory × Option Fault
  | 0 => directory.ensureOne path
  | depth + 1 =>
    if path.isEmpty then
      (directory, none)
    else
      match directory.createOne path, path.parent? with
      | .error .notFound, some parent =>
        match directory.ensure parent depth with
        | (above, none) => above.ensureOne path
        | (above, some fault) => (above, some fault)
      | _, _ => directory.ensureOne path

/-- Creates the directory that a text names, with all directories above it.  Directories that were
created before a failure stay. -/
def createAll (directory : Directory) (text : String) : Directory × Option Fault :=
  let path := Path.ofText text
  directory.ensure path (path.parts.length + 1)

/-- The files below the working directory, each with its path. -/
def contents (directory : Directory) : List (String × Content) :=
  (directory.files.filter fun (place, _) =>
      !(place.head? == some ".." || place.head? == root.head?)).map
    fun (place, content) => ("/".intercalate place, content)

def placeOf (text : String) : Place :=
  (Path.ofText text).names.filter (· ≠ ".")

/-- The places on the way to a place. -/
def onTheWay (place : Place) : List Place :=
  (List.range place.length).map place.take

/-- The file at the top of the tree that is always empty to a run, whatever is written to it. -/
def nullFile : Place := root ++ ["dev", "null"]

/-- A working directory with nothing but the given files and the directories they are in. -/
def ofFiles (files : List (String × Content)) : Directory where
  folders := (files.flatMap fun (name, _) => onTheWay (placeOf name)) ++ onTheWay nullFile
  files := (files.map fun (name, content) => (placeOf name, content)) ++ [(nullFile, .bytes [])]

end Directory

end ThroughputCharts
