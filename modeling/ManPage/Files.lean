import ManPage.Text.Utf8

/-! A tree of files and the current directory in it. A path names a place in the tree: from the
root if it begins with a slash, and from the current directory otherwise. Names and paths have a
greatest length, and neither holds the null character. -/

namespace ManPage

/-- A place in the tree: the names that lead to it from the root. -/
abbrev Place := List Text

/-- What stands at a place. -/
inductive Node
  | file (content : List UInt8)
  | directory
  deriving DecidableEq, Repr

/-- What stands at the places of the tree, and the place of the current directory. A directory
stands at each place above the current directory or above something else. -/
structure Files where
  current : Place := []
  nodes : List (Place × Node) := []
  deriving DecidableEq, Repr

namespace Files

def node? (files : Files) (place : Place) : Option Node :=
  (files.nodes.lookup place).or
    (if place.isPrefixOf files.current || files.nodes.any (fun (other, _) => place.isPrefixOf other)
      then some .directory
      else none)

def isDirectory (files : Files) (place : Place) : Bool :=
  files.node? place == some .directory

def nameLimit : Nat :=
  255

def pathLimit : Nat :=
  4095

/-- A text that can be a path. -/
def isPath (path : Text) : Bool :=
  !path.isEmpty && !path.contains '\x00' && path.toUtf8.length ≤ pathLimit

/-- Goes on from a place, where a directory must stand, by the names of a path. -/
def follow? (files : Files) : Place → List Text → Option Place
  | place, [] => some place
  | place, name :: names =>
    if !files.isDirectory place then none
    else if name = [] ∨ name = ['.'] then files.follow? place names
    else if name = ['.', '.'] then files.follow? place.dropLast names
    else if nameLimit < name.toUtf8.length then none
    else files.follow? (place ++ [name]) names

/-- The place that a path names, whether or not something stands there. -/
def locate? (files : Files) (path : Text) : Option Place :=
  if isPath path then
    files.follow? (if path.head? = some '/' then [] else files.current) (path.splitOn '/')
  else none

/-- What stands where a path leads. -/
def read? (files : Files) (path : Text) : Option Node :=
  (files.locate? path).bind files.node?

def write (files : Files) (place : Place) (content : List UInt8) : Files :=
  { files with
    nodes := (place, .file content) :: files.nodes.filter fun (other, _) => other != place }

/-- Starts an empty file where a path leads, unless a directory stands there. -/
def create? (files : Files) (path : Text) : Option (Place × Files) :=
  (files.locate? path).bind fun place =>
    if files.isDirectory place then none else some (place, files.write place [])

end Files

end ManPage
