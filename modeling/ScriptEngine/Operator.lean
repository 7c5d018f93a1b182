/-! The operators of the script language. -/
namespace ScriptEngine

/-- Arithmetic; `+` also joins texts and arrays. -/
inductive ArithOp where
  | add | sub | mul | div | rem
  deriving DecidableEq, Repr

def ArithOp.symbol : ArithOp → String
  | add => "+"
  | sub => "-"
  | mul => "*"
  | div => "/"
  | rem => "%"

inductive Comparison where
  | less | lessEq | greater | greaterEq
  deriving DecidableEq, Repr

def Comparison.symbol : Comparison → String
  | less => "<"
  | lessEq => "<="
  | greater => ">"
  | greaterEq => ">="

inductive UnaryOp where
  | neg | not
  deriving DecidableEq, Repr

def UnaryOp.symbol : UnaryOp → String
  | neg => "-"
  | not => "!"

inductive BinaryOp where
  | or
  | and
  | equal
  | notEqual
  | order (c : Comparison)
  | arith (op : ArithOp)
  deriving DecidableEq, Repr

namespace BinaryOp

/-- How tightly an operator binds; all of them associate to the left. -/
def precedence : BinaryOp → Nat
  | or => 1
  | and => 2
  | equal | notEqual => 3
  | order _ => 4
  | arith .add | arith .sub => 5
  | arith .mul | arith .div | arith .rem => 6

def symbol : BinaryOp → String
  | or => "||"
  | and => "&&"
  | equal => "=="
  | notEqual => "!="
  | order c => c.symbol
  | arith op => op.symbol

end BinaryOp

end ScriptEngine
