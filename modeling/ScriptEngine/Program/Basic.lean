import ScriptEngine.Operator
import ScriptEngine.Pos
/-! Scripts as trees of statements and expressions. -/
namespace ScriptEngine

/-- A value written out in a script. -/
inductive Literal where
  | undefined
  | bool (b : Bool)
  | int (n : Int64)
  | float (x : Float)
  | char (c : Char)
  | string (s : String)
  deriving Repr

mutual

/-- An expression. A binary operation, call, index or field access is placed at its sign. -/
inductive Expr where
  | lit (pos : Pos) (value : Literal)
  | name (pos : Pos) (text : String)
  | array (pos : Pos) (items : List Expr)
  /-- Entries stay in the order they are written, with repeated keys. -/
  | map (pos : Pos) (entries : List (String × Expr))
  | unary (pos : Pos) (op : UnaryOp) (operand : Expr)
  | binary (pos : Pos) (op : BinaryOp) (left right : Expr)
  | call (pos : Pos) (callee : Expr) (args : List Expr)
  | index (pos : Pos) (target index : Expr)
  | field (pos : Pos) (target : Expr) (name : String)
  | func (pos : Pos) (params : List String) (body : Block)
  | load (pos : Pos) (module : String)

/-- A statement. -/
inductive Stmt where
  | expr (value : Expr)
  | define (pos : Pos) (name : String) (value : Expr)
  /-- `op` is applied to the old and the new value first. -/
  | assign (pos : Pos) (op : Option ArithOp) (target value : Expr)
  /-- `orElse` is a block or another branch. -/
  | branch (pos : Pos) (cond : Expr) (body : Block) (orElse : Option Stmt)
  | loop (pos : Pos) (init : Option Stmt) (cond : Option Expr) (post : Option Stmt) (body : Block)
  | breakLoop (pos : Pos)
  | continueLoop (pos : Pos)
  | returnValue (pos : Pos) (value : Option Expr)
  | exportValue (pos : Pos) (value : Expr)
  | block (body : Block)

/-- Statements between braces, placed at the opening one. -/
inductive Block where
  | mk (pos : Pos) (stmts : List Stmt)

end

namespace Expr

def pos : Expr → Pos
  | lit pos _ | name pos _ | array pos _ | map pos _ | unary pos _ _ | binary pos _ _ _
  | call pos _ _ | index pos _ _ | field pos _ _ | func pos _ _ | load pos _ => pos

/-- Only names, elements and fields can be assigned to. -/
def isTarget : Expr → Bool
  | name .. | index .. | field .. => true
  | _ => false

def isFunc : Expr → Bool
  | func .. => true
  | _ => false

end Expr

namespace Block

def pos : Block → Pos
  | mk pos _ => pos

def stmts : Block → List Stmt
  | mk _ stmts => stmts

end Block

namespace Stmt

def pos : Stmt → Pos
  | expr e => e.pos
  | block b => b.pos
  | define pos _ _ | assign pos _ _ _ | branch pos _ _ _ | loop pos _ _ _ _ | breakLoop pos
  | continueLoop pos | returnValue pos _ | exportValue pos _ => pos

def isReturn : Stmt → Bool
  | returnValue .. => true
  | _ => false

def isExport : Stmt → Bool
  | exportValue .. => true
  | _ => false

end Stmt

end ScriptEngine
