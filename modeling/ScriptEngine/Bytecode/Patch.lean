import ScriptEngine.Bytecode.Instruction
/-!
Operands changed in bytes that are there already. Nothing is written past the end: where the bytes
do not suffice there is no result.
-/
namespace ScriptEngine

/-- Puts bytes in place of as many others. -/
def overwrite? (code : Array UInt8) (place : Nat) (bytes : List UInt8) : Option (Array UInt8) :=
  if place + bytes.length ≤ code.size then
    some (code.extract 0 place ++ bytes.toArray ++ code.extract (place + bytes.length))
  else none

/-- Gives the instruction at a place another first operand. A byte that no operation has stays. -/
def changeOperand? (code : Array UInt8) (place n : Nat) : Option (Array UInt8) := do
  let b ← code[place]?
  match Opcode.ofByte? b with
  | none => some code
  | some op => overwrite? code place (op.encode [n])

end ScriptEngine
