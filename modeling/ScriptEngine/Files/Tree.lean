import ScriptEngine.Files.Path
/-! The files that scripts can import. -/
namespace ScriptEngine

/-- Why a file cannot be read. -/
inductive ReadFault where
  | notFound
  | isDirectory
  | notDirectory
  /-- An empty path, or one with a null character. -/
  | invalidPath
  | nameTooLong
  deriving DecidableEq, Repr

/-- Files and directories by the names that lead to them from the root. -/
structure FileTree where
  workingDirectory : String
  files : List (List String × ByteArray)
  directories : List (List String)
  deriving Inhabited

namespace FileTree

def empty : FileTree := ⟨"/", [], []⟩

/-- The contents of a file. -/
def file? (t : FileTree) (place : List String) : Option ByteArray :=
  (t.files.find? fun f => f.1 = place).map (·.2)

/-- The root, the directories, and whatever a file or directory lies in. -/
def isDirectory (t : FileTree) (place : List String) : Bool :=
  place.isEmpty || t.directories.any place.isPrefixOf ||
    Path.names t.workingDirectory = place ||
    t.files.any fun f => place.isPrefixOf f.1 && f.1 ≠ place

/-- Follows the pieces of a path from a directory, given by its names. -/
def walk (t : FileTree) : (place : List String) → List String → Except ReadFault (List String)
  | place, [] => .ok place
  | place, piece :: rest =>
    if (t.file? place).isSome then .error .notDirectory
    else if !t.isDirectory place then .error .notFound
    else if Path.isIdle piece then walk t place rest
    else if piece = ".." then walk t place.dropLast rest
    else if 255 < piece.utf8ByteSize then .error .nameTooLong
    else walk t (place ++ [piece]) rest

/-- The contents of the file at a path. -/
def read (t : FileTree) (path : String) : Except ReadFault ByteArray := do
  if path = "" then throw .notFound
  if path.toList.contains '\x00' then throw .invalidPath
  if Path.maxSize ≤ path.utf8ByteSize then throw .nameTooLong
  let start := if Path.isAbsolute path then [] else Path.names t.workingDirectory
  let place ← t.walk start (Path.pieces path)
  match t.file? place with
  | some contents => return contents
  | none => throw (if t.isDirectory place then .isDirectory else .notFound)

end FileTree

end ScriptEngine
