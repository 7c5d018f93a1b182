/-! Places in a source text. -/
namespace ScriptEngine

/-- A place between two characters: bytes before it, and line and column counted from one.
Columns count characters, and only a line feed ends a line. -/
structure Pos where
  offset : Nat
  line : Nat
  column : Nat
  deriving DecidableEq, Repr, Inhabited

namespace Pos

def start : Pos := ⟨0, 1, 1⟩

/-- The place behind one more character. -/
def advance (p : Pos) (c : Char) : Pos :=
  if c = '\n' then ⟨p.offset + 1, p.line + 1, 1⟩
  else ⟨p.offset + c.utf8Size, p.line, p.column + 1⟩

/-- The place behind a text. -/
def after (p : Pos) (cs : List Char) : Pos := cs.foldl advance p

def text (p : Pos) : String := s!"{p.line}:{p.column}"

end Pos

end ScriptEngine
