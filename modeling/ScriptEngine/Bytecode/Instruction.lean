import ScriptEngine.Bytecode.Opcode
import ScriptEngine.Text.Digits
/-!
Instructions as bytes: the code byte, then each operand with its high byte first. An operand too
wide for its place loses its high bytes; operand bytes past the end of the code count as zero.
-/
namespace ScriptEngine

/-- An operation with its two operands; one that the operation lacks is zero. -/
structure Instruction where
  op : Opcode
  a : Nat
  b : Nat
  deriving DecidableEq, Repr

/-- The lowest `width` bytes of a number, the highest first. -/
def operandBytes : (width : Nat) → Nat → List UInt8
  | 0, _ => []
  | width + 1, n => UInt8.ofNat (n / Nat.pow 256 width) :: operandBytes width n

/-- The code byte and as many operands as are given and have a place. -/
def Opcode.encode (op : Opcode) (operands : List Nat) : List UInt8 :=
  op.byte :: (op.widths.zip operands).flatMap fun (width, n) => operandBytes width n

theorem length_operandBytes (width n : Nat) : (operandBytes width n).length = width := by
  induction width with
  | zero => rfl
  | succ width ih => simp [operandBytes, ih]

/-- The number that `width` bytes at a place spell. -/
def operandAt (code : Array UInt8) : (width place : Nat) → Nat
  | 0, _ => 0
  | width + 1, place => (code.getD place 0).toNat * Nat.pow 256 width +
    operandAt code width (place + 1)

/-- The operands of an operation whose code byte stands before `place`. -/
def Opcode.operandsAt (op : Opcode) (code : Array UInt8) (place : Nat) : Nat × Nat :=
  match op.widths with
  | [] => (0, 0)
  | [width] => (operandAt code width place, 0)
  | width :: width' :: _ => (operandAt code width place, operandAt code width' (place + width))

namespace Instruction

def size (i : Instruction) : Nat := i.op.size

def bytes (i : Instruction) : List UInt8 := i.op.encode [i.a, i.b]

theorem length_bytes (i : Instruction) : i.bytes.length = i.size := by
  obtain ⟨op, a, b⟩ := i
  cases op <;>
    simp [bytes, size, Opcode.encode, Opcode.size, Opcode.widths, length_operandBytes]

/-- Each operand can be written without loss. -/
def Fits (i : Instruction) : Prop :=
  i.a < Nat.pow 256 (i.op.widths.getD 0 0) ∧ i.b < Nat.pow 256 (i.op.widths.getD 1 0)

instance (i : Instruction) : Decidable i.Fits := inferInstanceAs (Decidable (_ ∧ _))

/-- The instruction that starts at a place, if an operation has the byte there. -/
def at? (code : Array UInt8) (ip : Nat) : Option Instruction := do
  let b ← code[ip]?
  let op ← Opcode.ofByte? b
  let (a, b) := op.operandsAt code (ip + 1)
  return ⟨op, a, b⟩

end Instruction

/-- A place in code reached by reading it from the front: an instruction, or a byte that starts
none. -/
structure Slot where
  offset : Nat
  instruction? : Option Instruction
  deriving DecidableEq, Repr

/-- Bytes of a slot. -/
def Slot.size (s : Slot) : Nat := (s.instruction?.map (·.size)).getD 1

/-- Reads the code from `place` on; `found` holds the slots before, last first. Every slot takes a
byte at least, so `fuel` need not exceed the bytes left. -/
def slotsFrom (code : Array UInt8) : (fuel place : Nat) → List Slot → List Slot
  | 0, _, found => found.reverse
  | fuel + 1, place, found =>
    if place < code.size then
      let slot : Slot := ⟨place, Instruction.at? code place⟩
      slotsFrom code fuel (place + slot.size) (slot :: found)
    else found.reverse

/-- The code read from the front. A byte that starts no instruction is passed alone. -/
def slots (code : Array UInt8) : List Slot := slotsFrom code code.size 0 []

/-- The line for a slot of code that starts at `start`. -/
def Slot.line (code : Array UInt8) (start : Nat) (s : Slot) : String :=
  let label := Text.padStart 4 '0' (toString (start + s.offset))
  match s.instruction? with
  | none =>
    let digits := String.ofList (Text.hexDigits (code.getD s.offset 0).toNat)
    label ++ " <invalid 0x" ++ Text.padStart 2 '0' digits ++ ">"
  | some ⟨op, a, b⟩ =>
    match op.widths with
    | [] => label ++ " " ++ op.name
    | [_] => label ++ " " ++ Text.padEnd 8 op.name ++ " " ++ toString a
    | _ => label ++ " " ++ Text.padEnd 8 op.name ++ " " ++ Text.padEnd 5 (toString a) ++ " " ++
      toString b

/-- One line per slot of code that starts at `start`. -/
def listCode (code : Array UInt8) (start : Nat) : List String :=
  (slots code).map (Slot.line code start)

end ScriptEngine
