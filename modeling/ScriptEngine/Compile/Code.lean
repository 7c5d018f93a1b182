import ScriptEngine.Bytecode.Instruction
import ScriptEngine.Bytecode.Routine
/-!
Code under construction: instructions with the source positions they come from. The jumps of
`break` and `continue` stay open until their loop has been laid out.
-/
namespace ScriptEngine

inductive Item where
  | plain (i : Instruction) (pos : Option Pos)
  /-- A jump behind the innermost loop. -/
  | breakJump (pos : Pos)
  /-- A jump to the innermost loop's last part. -/
  | continueJump (pos : Pos)
  deriving DecidableEq, Repr

namespace Item

/-- The instruction; a jump still open leads to the start of the code. -/
def instruction : Item → Instruction
  | plain i _ => i
  | breakJump _ | continueJump _ => ⟨.jump, 0, 0⟩

def pos : Item → Option Pos
  | plain _ pos => pos
  | breakJump pos | continueJump pos => some pos

def size (i : Item) : Nat := i.instruction.size

/-- Closes the jumps of a loop whose end and last part are known. -/
def close (loopEnd lastPart : Nat) : Item → Item
  | plain i pos => plain i pos
  | breakJump pos => plain ⟨.jump, loopEnd, 0⟩ (some pos)
  | continueJump pos => plain ⟨.jump, lastPart, 0⟩ (some pos)

end Item

/-- A piece of code. -/
abbrev Code := Array Item

namespace Code

def close (loopEnd lastPart : Nat) (c : Code) : Code := c.map (Item.close loopEnd lastPart)

/-- Bytes of a piece of code. -/
def size (c : Code) : Nat := c.foldl (fun n i => n + i.size) 0

/-- The bytes of a piece of code that starts a function. -/
def bytes (c : Code) : Array UInt8 :=
  c.foldl (fun out i => i.instruction.bytes.foldl Array.push out) #[]

/-- Records the position of the item at an offset, if it has one other than the last recorded. -/
def record (map : Array (Nat × Pos)) (offset : Nat) (i : Item) : Array (Nat × Pos) :=
  match i.pos with
  | none => map
  | some pos => if map.back?.map (·.2) = some pos then map else map.push (offset, pos)

def sourceMap (c : Code) : Array (Nat × Pos) :=
  (c.foldl (fun (map, offset) i => (record map offset i, offset + i.size)) (#[], 0)).1

/-- The routine that code and frame make up. -/
def toRoutine (c : Code) (locals params : Nat) : Routine :=
  ⟨c.bytes, locals, params, c.sourceMap⟩

end Code

end ScriptEngine
