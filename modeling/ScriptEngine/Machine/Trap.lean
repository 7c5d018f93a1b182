import ScriptEngine.Pos
import ScriptEngine.Value.Call
/-! Why a run fails, and where. -/
namespace ScriptEngine

inductive Trap where
  /-- The run was told to stop. -/
  | aborted
  | allocationLimit
  | stackOverflow
  | unaryTypes (symbol operand : String)
  | binaryTypes (left symbol right : String)
  /-- Texts and characters have an order but not this operation. -/
  | unsupported (operation : String)
  | divisionByZero
  | notCallable (type : String)
  | wrongArgCount (want got : Nat)
  | indexOutOfBounds (index : Int64) (length : Nat)
  | invalidIndex (container index : String)
  | notIndexable (type : String)
  /-- A builtin or host function refused its arguments. -/
  | call (e : CallError)
  /-- The code at an offset is no instruction, or its operands name nothing. -/
  | invalidInstruction (offset : Nat)
  deriving DecidableEq, Repr

def Trap.message : Trap → String
  | aborted => "execution aborted"
  | allocationLimit => "allocation limit exceeded"
  | stackOverflow => "stack overflow"
  | unaryTypes symbol operand => "invalid operation: " ++ symbol ++ operand
  | binaryTypes left symbol right =>
    "invalid operation: " ++ left ++ " " ++ symbol ++ " " ++ right
  | unsupported operation =>
    "invalid operation: operator " ++ operation ++ " not supported here"
  | divisionByZero => "division by zero"
  | notCallable type => "not callable: " ++ type
  | wrongArgCount want got => (CallError.wrongArgCount want got).text
  | indexOutOfBounds index length =>
    "index out of bounds: " ++ toString index.toInt ++ " (length " ++ toString length ++ ")"
  | invalidIndex container index => "invalid index type " ++ index ++ " for " ++ container
  | notIndexable type => "not indexable: " ++ type
  | call e => e.text
  | invalidInstruction offset => "invalid instruction at offset " ++ toString offset

/-- A trap with the file of the program and the place of the failing instruction, if one is
recorded. -/
structure RuntimeError where
  trap : Trap
  file : String
  pos : Option Pos
  deriving DecidableEq, Repr

def RuntimeError.message (e : RuntimeError) : String :=
  match e.pos with
  | some pos => e.file ++ ":" ++ pos.text ++ ": " ++ e.trap.message
  | none => e.trap.message

end ScriptEngine
