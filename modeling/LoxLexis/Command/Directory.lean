/-!
# Reading by path

Why a text cannot be read, and a directory tree held in memory, from which the command can read: a
path is followed name by name, and the first name that cannot be followed decides the error. A file
is put into the tree by a path too, and the directories on its way are made if they are missing,
those that the path leaves again through `..` among them.
-/

namespace LoxLexis

inductive ReadError where
  | missing
  | notADirectory
  | isADirectory
  | nameTooLong
  | notUtf8
  /-- Anything else, in the system's words. -/
  | other (words : String)
deriving DecidableEq, Repr

/-- The wording for users, with the number the system gives the error. -/
def ReadError.message : ReadError → String
  | missing => "No such file or directory (os error 2)"
  | notADirectory => "Not a directory (os error 20)"
  | isADirectory => "Is a directory (os error 21)"
  | nameTooLong => "File name too long (os error 36)"
  | notUtf8 => "stream did not contain valid UTF-8"
  | other words => words

/-! ## Paths -/

/-- Puts a character in front of the first name, or starts a new one if it is a slash. -/
def consName (c : Char) (names : List (List Char)) : List (List Char) :=
  if c = '/' then [] :: names
  else
    match names with
    | [] => [[c]]
    | name :: rest => (c :: name) :: rest

/-- The names in a path, those between slashes. An empty one stands for the place itself. -/
def pathNames (path : String) : List String :=
  (path.toList.foldr consName [[]]).map String.ofList

example : pathNames "/a//b/" = ["", "a", "", "b", ""] := by decide

/-! ## Places -/

/-- A place in a tree: the names of the directories down to it, and its own. Above the tree, `..`
stands for each step up, and the top of the whole file system is `/`; neither is a name of anything
in the tree. -/
abbrev Place := List String

namespace Place

/-- Where a path starts: a slash in front leads to the top of the file system. -/
def ofPath (path : String) : Place :=
  if path.toList.head? = some '/' then ["/"] else []

/-- The directory that a directory is in. The top is in itself. -/
def above (place : Place) : Place :=
  if place = ["/"] then place
  else if place.all (· == "..") then place ++ [".."]
  else place.dropLast

/-- The place that a name leads to from a directory. -/
def step (place : Place) (name : String) : Place :=
  if name = "" ∨ name = "." then place
  else if name = ".." then place.above
  else place ++ [name]

end Place

/-! ## Trees -/

inductive Entry where
  | directory
  | file (contents : List UInt8)

/-- A tree: what is at each place. The first entry for a place counts. -/
structure Directory where
  entries : List (Place × Entry)

namespace Directory

def empty : Directory := ⟨[]⟩

/-- Makes the directory that a name leads to, and goes there. -/
def make (d : Directory × Place) (name : String) : Directory × Place :=
  let place := d.2.step name
  (⟨(place, .directory) :: d.1.entries⟩, place)

/-- Adds a file, or gives an existing one new contents. -/
def add (d : Directory) (path : String) (contents : List UInt8) : Directory :=
  let names := pathNames path
  let (tree, above) := names.dropLast.foldl make (d, .ofPath path)
  ⟨(above.step (names.getLastD ""), .file contents) :: tree.entries⟩

/-! ## Reading -/

/-- The longest a name may be, in bytes. -/
def longestName : Nat := 255

/-- The longest a path may be, in bytes. -/
def longestPath : Nat := 4095

/-- Follows one name from a place where something is found. Steps up and steps on the spot lead from
a directory to a directory; any other name has to be looked up. -/
def follow (d : Directory) (found : Place × Entry) (name : String) :
    Except ReadError (Place × Entry) :=
  match found with
  | (_, .file _) => .error .notADirectory
  | (place, .directory) =>
      let next := place.step name
      if name = "" ∨ name = "." ∨ name = ".." then .ok (next, .directory)
      else if longestName < name.utf8ByteSize then .error .nameTooLong
      else
        match d.entries.lookup next with
        | some entry => .ok (next, entry)
        | none => .error .missing

/-- The contents of the file that a path leads to. -/
def read (d : Directory) (path : String) : Except ReadError (List UInt8) :=
  if path = "" then .error .missing
  else if longestPath < path.utf8ByteSize then .error .nameTooLong
  else
    match (pathNames path).foldlM d.follow (Place.ofPath path, .directory) with
    | .ok (_, .file contents) => .ok contents
    | .ok (_, .directory) => .error .isADirectory
    | .error e => .error e

end Directory

end LoxLexis
