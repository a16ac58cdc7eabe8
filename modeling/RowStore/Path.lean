import RowStore.Crc32c
import RowStore.Error

/-!
# Paths of table files

Opening a table by its path creates the file if it is missing and names the table after the file's canonical path, so
that the same file has the same table id however its path is spelled. Paths are resolved in a known tree of
directories and files; there are no links. A path that starts with a slash is followed from the root, any other path
from the working directory.
-/

namespace RowStore

/-- Directories and plain files by the names that lead to them from the root. -/
structure FileTree where
  directories : List (List String)
  files : List (List String)
  /-- Where a path without a slash in front starts. -/
  workingDirectory : List String

namespace FileTree

inductive Node where
  | directory
  | file

/-- What lies at a place. The working directory and all above it, the root among them, are always directories. -/
def node? (tree : FileTree) (place : List String) : Option Node :=
  if place.isPrefixOf tree.workingDirectory || tree.directories.contains place then some .directory
  else if tree.files.contains place then some .file
  else none

/-- A name of more than 255 bytes is refused wherever it is looked up. -/
def longestName : Nat := 255

/-- A path of this many bytes is refused as a whole. -/
def pathLimit : Nat := 4096

def child (place : List String) (name : String) : List String :=
  if name = "" ∨ name = "." then place
  else if name = ".." then place.dropLast
  else place ++ [name]

def walk (tree : FileTree) : List String → List String → Except IoFailure (List String)
  | place, [] => .ok place
  | place, name :: rest =>
    if longestName < name.utf8ByteSize then .error .nameTooLong
    else
      match tree.node? (child place name) with
      | some .directory => walk tree (child place name) rest
      | some .file => .error .notADirectory
      | none => .error .noSuchFile

/-- The place of the file that is opened, or created if it is missing, by a list of names from a directory. A last name
that is a directory's, or that is followed by a slash, does not name a file. -/
def openPlace (tree : FileTree) (start names : List String) : Except IoFailure (List String) :=
  match names.reverse.dropWhile (· = "") with
  | [] => .error .isADirectory
  | last :: before =>
    match walk tree start before.reverse with
    | .error failure => .error failure
    | .ok place =>
      if names.getLast? = some "" ∨ last = "." ∨ last = ".." then .error .isADirectory
      else if longestName < last.utf8ByteSize then .error .nameTooLong
      else
        match tree.node? (place ++ [last]) with
        | some .directory => .error .isADirectory
        | some .file | none => .ok (place ++ [last])

/-- The names between the slashes of a path, empty where two slashes meet. -/
def names (path : List Char) : List String :=
  (path.splitOnP (· = '/')).map String.ofList

def start (tree : FileTree) (path : List Char) : List String :=
  if path.head? = some '/' then [] else tree.workingDirectory

/-- Opens a file by its path, creating it if it is missing, and gives its canonical path. -/
def openFile (tree : FileTree) (path : String) : Except IoFailure String :=
  if path.toList.contains '\x00' then .error .nulInPath
  else if path = "" then .error .noSuchFile
  else if pathLimit ≤ path.utf8ByteSize then .error .nameTooLong
  else (tree.openPlace (tree.start path.toList) (names path.toList)).map fun place => "/" ++ "/".intercalate place

end FileTree

def TableId.ofPath (path : String) : TableId := ⟨(Crc32c.checksum (Text.utf8 path)).toNat⟩

end RowStore
