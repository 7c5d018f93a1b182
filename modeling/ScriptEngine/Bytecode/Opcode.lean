import ScriptEngine.Operator
/-! The operations of the stack machine and their code bytes. -/
namespace ScriptEngine

inductive Opcode where
  /-- Push a constant of the pool. -/
  | constant
  | undefined | pushTrue | pushFalse
  | pop
  | arith (op : ArithOp)
  | equal | notEqual
  | order (c : Comparison)
  | negate | not
  | jump
  /-- Pop the condition and jump if it is falsy. -/
  | jumpFalsy
  /-- Jump and keep the operand if it is falsy, pop it otherwise. -/
  | andJump
  /-- Jump and keep the operand if it is truthy, pop it otherwise. -/
  | orJump
  | getGlobal | setGlobal
  | getLocal | setLocal
  | getBuiltin
  /-- Push a captured value. -/
  | getFree
  /-- Collect the topmost values into an array. -/
  | array
  /-- Collect the topmost pairs of key and value into a map. -/
  | map
  | index
  /-- Pop container, index and value; push a copy with that element replaced. -/
  | setIndex
  | call
  /-- Return; operand one stands for a value on the stack. -/
  | ret
  /-- Pop captured values and push a closure over a function of the pool. -/
  | closure
  /-- End of the main routine. -/
  | suspend
  deriving DecidableEq, Repr

namespace Opcode

/-- The operations in the order of their code bytes. -/
def table : Array Opcode := #[
  constant, undefined, pushTrue, pushFalse, pop,
  arith .add, arith .sub, arith .mul, arith .div, arith .rem,
  equal, notEqual, order .less, order .lessEq, order .greater, order .greaterEq,
  negate, not, jump, jumpFalsy, andJump, orJump,
  getGlobal, setGlobal, getLocal, setLocal, getBuiltin, getFree,
  array, map, index, setIndex, call, ret, closure, suspend]

def ofByte? (b : UInt8) : Option Opcode := table[b.toNat]?

def byte : Opcode → UInt8
  | constant => 0
  | undefined => 1
  | pushTrue => 2
  | pushFalse => 3
  | pop => 4
  | arith .add => 5
  | arith .sub => 6
  | arith .mul => 7
  | arith .div => 8
  | arith .rem => 9
  | equal => 10
  | notEqual => 11
  | order .less => 12
  | order .lessEq => 13
  | order .greater => 14
  | order .greaterEq => 15
  | negate => 16
  | not => 17
  | jump => 18
  | jumpFalsy => 19
  | andJump => 20
  | orJump => 21
  | getGlobal => 22
  | setGlobal => 23
  | getLocal => 24
  | setLocal => 25
  | getBuiltin => 26
  | getFree => 27
  | array => 28
  | map => 29
  | index => 30
  | setIndex => 31
  | call => 32
  | ret => 33
  | closure => 34
  | suspend => 35

theorem ofByte?_byte (op : Opcode) : ofByte? op.byte = some op := by
  cases op <;> (try rfl) <;> (rename_i x; cases x <;> rfl)

/-- Bytes of each operand. -/
def widths : Opcode → List Nat
  | constant | jump | jumpFalsy | andJump | orJump | getGlobal | setGlobal | array | map => [2]
  | getLocal | setLocal | getBuiltin | getFree | call | ret => [1]
  | closure => [2, 1]
  | _ => []

/-- Bytes of an instruction. -/
def size (op : Opcode) : Nat := op.widths.foldl (· + ·) 1

def name : Opcode → String
  | constant => "CONST"
  | undefined => "UNDEF"
  | pushTrue => "TRUE"
  | pushFalse => "FALSE"
  | pop => "POP"
  | arith .add => "ADD"
  | arith .sub => "SUB"
  | arith .mul => "MUL"
  | arith .div => "DIV"
  | arith .rem => "REM"
  | equal => "EQL"
  | notEqual => "NEQ"
  | order .less => "LT"
  | order .lessEq => "LTE"
  | order .greater => "GT"
  | order .greaterEq => "GTE"
  | negate => "NEG"
  | not => "NOT"
  | jump => "JMP"
  | jumpFalsy => "JMPF"
  | andJump => "ANDJMP"
  | orJump => "ORJMP"
  | getGlobal => "GETG"
  | setGlobal => "SETG"
  | getLocal => "GETL"
  | setLocal => "SETL"
  | getBuiltin => "BUILTIN"
  | getFree => "GETF"
  | array => "ARR"
  | map => "MAP"
  | index => "INDEX"
  | setIndex => "SETINDEX"
  | call => "CALL"
  | ret => "RET"
  | closure => "CLOSURE"
  | suspend => "SUSPEND"

end Opcode

end ScriptEngine
