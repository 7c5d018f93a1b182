import ScriptEngine.Program.Basic
import ScriptEngine.Token.Lexeme
/-! Trees and tokens that stand at other places of a text. -/
namespace ScriptEngine

section Trees

variable (σ : Pos → Pos)

mutual

/-- The expression with each of its places moved. -/
def Expr.moved : Expr → Expr
  | .lit pos value => .lit (σ pos) value
  | .name pos x => .name (σ pos) x
  | .array pos items => .array (σ pos) (Expr.allMoved items)
  | .map pos entries => .map (σ pos) (Expr.entriesMoved entries)
  | .unary pos op e => .unary (σ pos) op e.moved
  | .binary pos op left right => .binary (σ pos) op left.moved right.moved
  | .call pos callee args => .call (σ pos) callee.moved (Expr.allMoved args)
  | .index pos target index => .index (σ pos) target.moved index.moved
  | .field pos target x => .field (σ pos) target.moved x
  | .func pos params body => .func (σ pos) params body.moved
  | .load pos module => .load (σ pos) module

def Expr.allMoved : List Expr → List Expr
  | [] => []
  | e :: rest => e.moved :: Expr.allMoved rest

def Expr.entriesMoved : List (String × Expr) → List (String × Expr)
  | [] => []
  | (key, e) :: rest => (key, e.moved) :: Expr.entriesMoved rest

def Expr.partMoved : Option Expr → Option Expr
  | none => none
  | some e => some e.moved

/-- The statement with each of its places moved. -/
def Stmt.moved : Stmt → Stmt
  | .expr e => .expr e.moved
  | .define pos x value => .define (σ pos) x value.moved
  | .assign pos op target value => .assign (σ pos) op target.moved value.moved
  | .branch pos cond body orElse =>
    .branch (σ pos) cond.moved body.moved (Stmt.partMoved orElse)
  | .loop pos init cond post body => .loop (σ pos) (Stmt.partMoved init) (Expr.partMoved cond)
    (Stmt.partMoved post) body.moved
  | .breakLoop pos => .breakLoop (σ pos)
  | .continueLoop pos => .continueLoop (σ pos)
  | .returnValue pos value => .returnValue (σ pos) (Expr.partMoved value)
  | .exportValue pos value => .exportValue (σ pos) value.moved
  | .block body => .block body.moved

def Stmt.partMoved : Option Stmt → Option Stmt
  | none => none
  | some s => some s.moved

def Block.moved : Block → Block
  | .mk pos body => .mk (σ pos) (Stmt.allMoved body)

def Stmt.allMoved : List Stmt → List Stmt
  | [] => []
  | s :: rest => s.moved :: Stmt.allMoved rest

end

theorem Expr.allMoved_eq (items : List Expr) : Expr.allMoved σ items = items.map (Expr.moved σ) := by
  induction items with
  | nil => rfl
  | cons e rest ih => rw [Expr.allMoved, ih, List.map_cons]

theorem Expr.entriesMoved_eq (entries : List (String × Expr)) :
    Expr.entriesMoved σ entries = entries.map fun entry => (entry.1, entry.2.moved σ) := by
  induction entries with
  | nil => rfl
  | cons entry rest ih => rw [Expr.entriesMoved, ih, List.map_cons]

theorem Expr.partMoved_eq (part : Option Expr) : Expr.partMoved σ part = part.map (Expr.moved σ) := by
  cases part <;> rfl

theorem Stmt.partMoved_eq (part : Option Stmt) : Stmt.partMoved σ part = part.map (Stmt.moved σ) := by
  cases part <;> rfl

theorem Stmt.allMoved_eq (body : List Stmt) : Stmt.allMoved σ body = body.map (Stmt.moved σ) := by
  induction body with
  | nil => rfl
  | cons s rest ih => rw [Stmt.allMoved, ih, List.map_cons]

theorem Expr.pos_moved (e : Expr) : (e.moved σ).pos = σ e.pos := by
  cases e <;> rfl

theorem Expr.isTarget_moved (e : Expr) : (e.moved σ).isTarget = e.isTarget := by
  cases e <;> rfl

end Trees

section Identity

mutual

theorem Expr.moved_id : (e : Expr) → e.moved id = e
  | .lit .. | .name .. | .load .. => rfl
  | .array _ items => by rw [Expr.moved, Expr.allMoved_id items, id]
  | .map _ entries => by rw [Expr.moved, Expr.entriesMoved_id entries, id]
  | .unary _ _ e => by rw [Expr.moved, e.moved_id, id]
  | .binary _ _ left right => by rw [Expr.moved, left.moved_id, right.moved_id, id]
  | .call _ callee args => by rw [Expr.moved, callee.moved_id, Expr.allMoved_id args, id]
  | .index _ target index => by rw [Expr.moved, target.moved_id, index.moved_id, id]
  | .field _ target _ => by rw [Expr.moved, target.moved_id, id]
  | .func _ _ body => by rw [Expr.moved, body.moved_id, id]

theorem Expr.allMoved_id : (items : List Expr) → Expr.allMoved id items = items
  | [] => rfl
  | e :: rest => by rw [Expr.allMoved, e.moved_id, Expr.allMoved_id rest]

theorem Expr.entriesMoved_id : (entries : List (String × Expr)) →
    Expr.entriesMoved id entries = entries
  | [] => rfl
  | (_, e) :: rest => by rw [Expr.entriesMoved, e.moved_id, Expr.entriesMoved_id rest]

theorem Expr.partMoved_id : (part : Option Expr) → Expr.partMoved id part = part
  | none => rfl
  | some e => by rw [Expr.partMoved, e.moved_id]

theorem Stmt.moved_id : (s : Stmt) → s.moved id = s
  | .breakLoop _ | .continueLoop _ => rfl
  | .expr e => by rw [Stmt.moved, e.moved_id]
  | .define _ _ value => by rw [Stmt.moved, value.moved_id, id]
  | .assign _ _ target value => by rw [Stmt.moved, target.moved_id, value.moved_id, id]
  | .branch _ cond body orElse => by
    rw [Stmt.moved, cond.moved_id, body.moved_id, Stmt.partMoved_id orElse, id]
  | .loop _ init cond post body => by
    rw [Stmt.moved, Stmt.partMoved_id init, Expr.partMoved_id cond, Stmt.partMoved_id post,
      body.moved_id, id]
  | .returnValue _ value => by rw [Stmt.moved, Expr.partMoved_id value, id]
  | .exportValue _ value => by rw [Stmt.moved, value.moved_id, id]
  | .block body => by rw [Stmt.moved, body.moved_id]

theorem Stmt.partMoved_id : (part : Option Stmt) → Stmt.partMoved id part = part
  | none => rfl
  | some s => by rw [Stmt.partMoved, s.moved_id]

theorem Block.moved_id : (body : Block) → body.moved id = body
  | .mk _ body => by rw [Block.moved, Stmt.allMoved_id body, id]

theorem Stmt.allMoved_id : (body : List Stmt) → Stmt.allMoved id body = body
  | [] => rfl
  | s :: rest => by rw [Stmt.allMoved, s.moved_id, Stmt.allMoved_id rest]

end

end Identity

/-- The token at another place, so many bytes further on. -/
def Lexeme.moved (σ : Pos → Pos) (bytes : Nat) (l : Lexeme) : Lexeme :=
  { l with pos := σ l.pos, stop := l.stop + bytes }

/-- The place so many bytes and lines further on, in the same column. -/
def Pos.shift (bytes lines : Nat) (p : Pos) : Pos := ⟨p.offset + bytes, p.line + lines, p.column⟩

end ScriptEngine
