/-!
File paths as text. Pieces between slashes that are empty or a single dot name nothing; they stay
in the text of a path all the same.
-/
namespace ScriptEngine.Path

/-- The size that the path of a file has to stay below, in bytes. -/
def maxSize : Nat := 4096

/-- There are no more paths than this that are not too long. -/
def readable : Nat := Nat.pow 0x110001 maxSize

/-- The pieces of a path between its slashes, at least one. -/
def splitSlashes : List Char → List (List Char)
  | [] => [[]]
  | c :: rest =>
    match splitSlashes rest with
    | [] => [[c]]
    | piece :: pieces => if c = '/' then [] :: piece :: pieces else (c :: piece) :: pieces

def pieces (path : String) : List String := (splitSlashes path.toList).map String.ofList

def ofPieces (pieces : List String) : String := "/".intercalate pieces

def isAbsolute (path : String) : Bool := path.toList.head? = some '/'

/-- A piece that names nothing. -/
def isIdle (piece : String) : Bool := piece = "" || piece = "."

/-- The names along a path. -/
def names (path : String) : List String := (pieces path).filter (!isIdle ·)

/-- The pieces with the idle ones at the end left out, the last first; the piece that makes a path
absolute, or a leading dot, stays. -/
def reversedBody (path : String) : List String :=
  match pieces path with
  | [] => []
  | first :: rest =>
    match rest.reverse.dropWhile isIdle with
    | [] => if first = "" && rest.isEmpty then [] else [first]
    | body => body ++ [first]

/-- The last name of a path, unless it leads up. -/
def fileName? (path : String) : Option String :=
  match reversedBody path with
  | [] => none
  | last :: _ => if isIdle last || last = ".." then none else some last

/-- The text behind the last dot of a file name, if a dot stands behind its first character. -/
def extension? (path : String) : Option String := do
  let name ← fileName? path
  let reversed := name.toList.reverse
  let front := reversed.dropWhile (· ≠ '.')
  if front.length ≤ 1 then none
  else some (String.ofList (reversed.takeWhile (· ≠ '.')).reverse)

/-- The path with an extension put behind its file name, if it has one; idle pieces behind the name
are lost. -/
def addExtension (path extension : String) : String :=
  match fileName? path with
  | none => path
  | some _ => ofPieces (reversedBody path).reverse ++ "." ++ extension

/-- The path of the directory that holds the file. -/
def parent (path : String) : String :=
  match (reversedBody path).drop 1 with
  | [] => ""
  | body =>
    let first := body.getLastD ""
    let body := (body.dropLast.dropWhile isIdle).reverse
    if body.isEmpty && first = "" then "/" else ofPieces (first :: body)

/-- A path seen from a directory; an absolute path stays. -/
def join (directory path : String) : String :=
  if isAbsolute path then path
  else if directory = "" || directory.toList.getLast? = some '/' then directory ++ path
  else directory ++ "/" ++ path

/-- The path as seen from the root, with idle pieces left out except for a slash at its end. -/
def absolute (workingDirectory path : String) : String :=
  let start := if isAbsolute path then [] else names workingDirectory
  let steps := start ++ names path
  let text := "/" ++ ofPieces steps
  if path.toList.getLast? = some '/' && !steps.isEmpty then text ++ "/" else text

end ScriptEngine.Path
