import ScriptEngine.Token.Lexeme
/-!
Places looked up by their offsets. The starts of all lines are listed once; a search among them finds
the line of an offset, and the characters from there on are its column.
-/
namespace ScriptEngine

/-- How many of the entries from `low` up to `high`, and of those before them, meet a condition;
those that do stand first. -/
def partitionPoint (meets : Nat → Bool) (entries : Array Nat) (low high : Nat) : Nat :=
  if low < high then
    let middle := low + (high - low) / 2
    if meets (entries.getD middle 0) then partitionPoint meets entries (middle + 1) high
    else partitionPoint meets entries low middle
  else low
termination_by high - low

/-- The text behind so many bytes, if a character starts there. -/
def dropBytes : (bytes : Nat) → List Char → Option (List Char)
  | 0, cs => some cs
  | _ + 1, [] => none
  | bytes + 1, c :: rest =>
    if c.utf8Size ≤ bytes + 1 then dropBytes (bytes + 1 - c.utf8Size) rest else none

/-- The text up to so many bytes, if a character starts there. -/
def takeBytes : (bytes : Nat) → List Char → Option (List Char)
  | 0, _ => some []
  | _ + 1, [] => none
  | bytes + 1, c :: rest =>
    if c.utf8Size ≤ bytes + 1 then (takeBytes (bytes + 1 - c.utf8Size) rest).map (c :: ·) else none

/-- The offsets of the lines that start behind a text of `offset` bytes. -/
def lineStartsFrom : (offset : Nat) → List Char → List Nat
  | _, [] => []
  | offset, c :: rest =>
    let next := offset + c.utf8Size
    if c = '\n' then next :: lineStartsFrom next rest else lineStartsFrom next rest

/-- A text with the offsets at which its lines start. -/
structure LineIndex where
  source : List Char
  lineStarts : Array Nat

namespace LineIndex

def ofText (source : List Char) : LineIndex := ⟨source, (0 :: lineStartsFrom 0 source).toArray⟩

/-- The place at an offset. Inside a character the column counts bytes. -/
def pos (index : LineIndex) (offset : Nat) : Pos :=
  let line := partitionPoint (· ≤ offset) index.lineStarts 0 index.lineStarts.size
  let start := index.lineStarts.getD (line - 1) 0
  let text := (dropBytes start index.source).bind (takeBytes (offset - start))
  ⟨offset, line, (text.map List.length).getD (offset - start) + 1⟩

end LineIndex

end ScriptEngine
