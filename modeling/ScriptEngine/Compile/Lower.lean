import ScriptEngine.Compile.State
import ScriptEngine.Program.Basic
/-!
Statements and expressions as code. An expression leaves its value on the stack and a statement
leaves the stack as it was. How a module is loaded is a parameter.
-/
namespace ScriptEngine

def UnaryOp.opcode : UnaryOp → Opcode
  | neg => .negate
  | not => .not

/-- The operation on two values; `and` and `or` jump over their second operand. -/
def BinaryOp.opcode : BinaryOp → Opcode
  | or => .orJump
  | and => .andJump
  | equal => .equal
  | notEqual => .notEqual
  | order c => .order c
  | arith op => .arith op

def BinaryOp.shortCircuits : BinaryOp → Bool
  | or | and => true
  | _ => false

def Literal.label : Literal → String
  | undefined => "Undefined"
  | bool _ => "Bool"
  | int _ => "Int"
  | float _ => "Float"
  | char _ => "Char"
  | string _ => "String"

/-- The name of a node in the trace. -/
def Expr.label : Expr → String
  | lit _ l => l.label
  | name .. => "Ident"
  | array .. => "Array"
  | map .. => "Map"
  | unary .. => "Unary"
  | binary .. => "Binary"
  | call .. => "Call"
  | index .. => "Index"
  | field .. => "Selector"
  | func .. => "Func"
  | load .. => "Import"

/-- The name of a node in the trace. -/
def Stmt.label : Stmt → String
  | expr _ => "ExprStmt"
  | define .. => "Define"
  | assign .. => "Assign"
  | branch .. => "If"
  | loop .. => "For"
  | breakLoop _ => "Break"
  | continueLoop _ => "Continue"
  | returnValue .. => "Return"
  | exportValue .. => "Export"
  | block _ => "Block"

namespace CompileContext

/-- One node further in. -/
def inner (ctx : CompileContext) : CompileContext := { ctx with depth := ctx.depth + 1 }

def looping (ctx : CompileContext) : CompileContext := { ctx with inLoop := true }

/-- In the body of a function literal. -/
def function (ctx : CompileContext) : CompileContext :=
  { ctx with inFunction := true, inLoop := false }

end CompileContext

namespace Compile

/-- Truth values and undefined have instructions of their own; all else goes through the pool. -/
def emitLiteral (ctx : CompileContext) (pos : Pos) : Literal → CompileM Code
  | .undefined => emit pos .undefined 0 0
  | .bool true => emit pos .pushTrue 0 0
  | .bool false => emit pos .pushFalse 0 0
  | .int n => emitConstant ctx pos (.int n)
  | .float x => emitConstant ctx pos (.float x)
  | .char c => emitConstant ctx pos (.char c)
  | .string s => emitConstant ctx pos (.string s)

/-- Defines the parameters of a function in the order of their slots. -/
def defineParams (ctx : CompileContext) (pos : Pos) : List String → CompileM Unit
  | [] => pure ()
  | name :: rest => do
    let _ ← define ctx pos name
    defineParams ctx pos rest

/-- The slot that an assignment to a name fills. -/
def assignable (ctx : CompileContext) (pos : Pos) (name : String) : CompileM Symbol := do
  let s ← resolve ctx pos name
  match s.storage with
  | .builtin => fail ctx pos (.assignBuiltin name)
  | .free => fail ctx pos (.assignCaptured name)
  | .global | .frame => pure s

/-- Loads for the values that a function captures. -/
def emitLoads (pos : Pos) : List Symbol → Code → CompileM Code
  | [], code => pure code
  | s :: rest, code => do
    let load ← emitLoad pos s
    emitLoads pos rest (code ++ load)

/-- Loads a finished function: a constant, or a closure if it captures values. -/
def emitFunction (ctx : CompileContext) (pos : Pos) (r : Routine) (free : List Symbol) :
    CompileM Code := do
  let f ← makeFunction r
  if free.isEmpty then emitConstant ctx pos f
  else
    limit ctx pos free.length maxArgs .capturedVariables
    let loads ← emitLoads pos free #[]
    let index ← addConstant ctx pos f
    let close ← emit pos .closure index free.length
    pure (loads ++ close)

variable (load : CompileContext → Pos → String → CompileM Code)

mutual

def expr (ctx : CompileContext) (e : Expr) : CompileM Code := do
  note ctx (e.label ++ " @ " ++ e.pos.text)
  let ctx := ctx.inner
  match e with
  | .lit pos l => emitLiteral ctx pos l
  | .name pos text =>
    let s ← resolve ctx pos text
    emitLoad pos s
  | .array pos items =>
    limit ctx pos items.length maxElements .arrayLength
    let code ← exprs ctx items #[]
    let collect ← emit pos .array items.length 0
    pure (code ++ collect)
  | .map pos entries =>
    limit ctx pos entries.length maxElements .mapSize
    let code ← mapEntries ctx pos entries #[]
    let collect ← emit pos .map entries.length 0
    pure (code ++ collect)
  | .unary pos op operand =>
    let code ← expr ctx operand
    let apply ← emit pos op.opcode 0 0
    pure (code ++ apply)
  | .binary pos op left right =>
    let first ← expr ctx left
    if op.shortCircuits then
      lay op.opcode
      let second ← expr ctx right
      let behind ← target ctx pos
      pure ((first.push (.plain ⟨op.opcode, behind, 0⟩ (some pos))) ++ second)
    else
      let second ← expr ctx right
      let apply ← emit pos op.opcode 0 0
      pure (first ++ second ++ apply)
  | .call pos callee args =>
    limit ctx pos args.length maxArgs .argumentCount
    let code ← expr ctx callee
    let code ← exprs ctx args code
    let call ← emit pos .call args.length 0
    pure (code ++ call)
  | .index pos container index =>
    let code ← expr ctx container
    let second ← expr ctx index
    let take ← emit pos .index 0 0
    pure (code ++ second ++ take)
  | .field pos container name =>
    let code ← expr ctx container
    let key ← emitConstant ctx pos (.string name)
    let take ← emit pos .index 0 0
    pure (code ++ key ++ take)
  | .func pos params body =>
    limit ctx pos params.length maxArgs .parameterCount
    let outside ← here
    withSymbols fun t => ((), t.enterFunction)
    modify fun s => { s with here := 0 }
    defineParams ctx pos params
    let code ← funcBody ctx.function pos body
    let (locals, free) ← withSymbols (·.leaveFunction)
    modify fun s => { s with here := outside }
    emitFunction ctx pos (code.toRoutine locals params.length) free
  | .load pos name => load ctx pos name

/-- Appends the code of expressions. -/
def exprs (ctx : CompileContext) : List Expr → Code → CompileM Code
  | [], code => pure code
  | e :: rest, code => do
    let more ← expr ctx e
    exprs ctx rest (code ++ more)

/-- Appends the code of keys and values. -/
def mapEntries (ctx : CompileContext) (pos : Pos) : List (String × Expr) → Code → CompileM Code
  | [], code => pure code
  | (key, e) :: rest, code => do
    let load ← emitConstant ctx pos (.string key)
    let more ← expr ctx e
    mapEntries ctx pos rest (code ++ load ++ more)

/-- The body of a function, with a return behind it if its last statement is none. -/
def funcBody (ctx : CompileContext) (pos : Pos) : Block → CompileM Code
  | .mk _ body => do
    let code ← stmts ctx body #[]
    if (body.getLast?.map Stmt.isReturn).getD false then pure code
    else
      let back ← emit pos .ret 0 0
      pure (code ++ back)

/-- Stores what `value` leaves on the stack in an assignment's target. An element is stored by
storing a copy of its container with the element replaced. -/
def store (ctx : CompileContext) (pos : Pos) (value : CompileM Code) : Expr → CompileM Code
  | .name place text => do
    let s ← assignable ctx place text
    let code ← value
    let fill ← emitStore pos s
    pure (code ++ fill)
  | .index _ container index =>
    store ctx pos (do
      let code ← expr ctx container
      let second ← expr ctx index
      let third ← value
      let replace ← emit pos .setIndex 0 0
      pure (code ++ second ++ third ++ replace)) container
  | .field place container name =>
    store ctx pos (do
      let code ← expr ctx container
      let key ← emitConstant ctx place (.string name)
      let third ← value
      let replace ← emit pos .setIndex 0 0
      pure (code ++ key ++ third ++ replace)) container
  | other => fail ctx other.pos .assignExpression

def stmt (ctx : CompileContext) (s : Stmt) : CompileM Code := do
  note ctx (s.label ++ " @ " ++ s.pos.text)
  let ctx := ctx.inner
  match s with
  | .expr e =>
    let code ← expr ctx e
    let drop ← emit e.pos .pop 0 0
    pure (code ++ drop)
  | .define pos name e =>
    if (← get).symbols.definedInBlock name then fail ctx pos (.redeclared name)
    else if e.isFunc then
      let s ← define ctx pos name
      let empty ← match s.storage with
        | .frame => do
          let push ← emit pos .undefined 0 0
          let fill ← emitStore pos s
          pure (push ++ fill)
        | _ => pure #[]
      let code ← expr ctx e
      let fill ← emitStore pos s
      pure (empty ++ code ++ fill)
    else
      let code ← expr ctx e
      let s ← define ctx pos name
      let fill ← emitStore pos s
      pure (code ++ fill)
  | .assign pos none place e => store ctx pos (expr ctx e) place
  | .assign pos (some op) place e =>
    store ctx pos (do
      let first ← expr ctx place
      let second ← expr ctx e
      let apply ← emit pos (.arith op) 0 0
      pure (first ++ second ++ apply)) place
  | .branch pos cond body none =>
    let test ← expr ctx cond
    lay .jumpFalsy
    let code ← block ctx body
    let behind ← target ctx pos
    pure ((test.push (.plain ⟨.jumpFalsy, behind, 0⟩ (some pos))) ++ code)
  | .branch pos cond body (some orElse) =>
    let test ← expr ctx cond
    lay .jumpFalsy
    let code ← block ctx body
    lay .jump
    let second ← target ctx pos
    let other ← stmt ctx orElse
    let behind ← target ctx pos
    let first := (test.push (.plain ⟨.jumpFalsy, second, 0⟩ (some pos))) ++ code
    pure ((first.push (.plain ⟨.jump, behind, 0⟩ (some pos))) ++ other)
  | .loop pos init cond post body =>
    enterBlock
    let start ← match init with
      | none => pure #[]
      | some s => stmt ctx s
    let loopStart ← here
    let test ← match cond with
      | none => pure #[]
      | some e => do
        let test ← expr ctx e
        lay .jumpFalsy
        pure test
    let code ← block ctx.looping body
    let lastPart ← here
    let last ← match post with
      | none => pure #[]
      | some s => stmt ctx s
    let back ← emit pos .jump loopStart 0
    let behind ← target ctx pos
    leaveBlock
    let exit : Code := match cond with
      | none => #[]
      | some _ => #[.plain ⟨.jumpFalsy, behind, 0⟩ (some pos)]
    pure (start ++ test ++ exit ++ Code.close behind lastPart code ++ last ++ back)
  | .breakLoop pos =>
    if ctx.inLoop then
      lay .jump
      pure #[.breakJump pos]
    else fail ctx pos .breakOutsideLoop
  | .continueLoop pos =>
    if ctx.inLoop then
      lay .jump
      pure #[.continueJump pos]
    else fail ctx pos .continueOutsideLoop
  | .returnValue pos value =>
    if ctx.inFunction || ctx.inModule then
      match value with
      | none => emit pos .ret 0 0
      | some e =>
        let code ← expr ctx e
        let back ← emit pos .ret 1 0
        pure (code ++ back)
    else fail ctx pos .returnOutsideFunction
  | .exportValue pos e =>
    if ctx.inModule && !ctx.inFunction then
      let code ← expr ctx e
      let back ← emit pos .ret 1 0
      pure (code ++ back)
    else fail ctx pos .exportOutsideModule
  | .block body => block ctx body

/-- Statements in a block of their own. -/
def block (ctx : CompileContext) : Block → CompileM Code
  | .mk _ body => do
    enterBlock
    let code ← stmts ctx body #[]
    leaveBlock
    pure code

/-- Appends the code of statements. -/
def stmts (ctx : CompileContext) : List Stmt → Code → CompileM Code
  | [], code => pure code
  | s :: rest, code => do
    let more ← stmt ctx s
    stmts ctx rest (code ++ more)

end

end Compile

end ScriptEngine
