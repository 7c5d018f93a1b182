import ScriptEngine.Compile.Code
import ScriptEngine.Compile.Error
import ScriptEngine.Scope.Table
import ScriptEngine.Value.Basic
/-!
What the compiler carries along: where it is in the source, and the names, constants and modules it
has met.
-/
namespace ScriptEngine

/-- Where in the source the compiler is. -/
structure CompileContext where
  file : String
  /-- Where files that are imported here lie. -/
  importDir : String
  /-- The body of a module is being compiled, not the main program. -/
  inModule : Bool
  inFunction : Bool
  /-- A loop of the same function is open. -/
  inLoop : Bool
  /-- The keys of the modules being compiled, innermost first. -/
  chain : List String
  /-- Nodes around this one, for the trace. -/
  depth : Nat
  /-- Whether a trace is kept. -/
  traced : Bool

structure CompileState where
  symbols : SymbolTable
  pool : Array Value
  /-- Bytes of code in the current function so far. -/
  here : Nat
  /-- Functions of the modules compiled so far, by key. -/
  cache : List (String × Value)
  trace : Array String
  /-- Whose function objects the compiler makes, and how many it has made. -/
  maker : Nat
  made : Nat

abbrev CompileM := EStateM CompileError CompileState

namespace Compile

variable {α : Type}

/-- The largest jump target, and the largest size of a function that jumps. -/
def maxCodeSize : Nat := 65536

def maxConstants : Nat := 65536

def maxGlobals : Nat := 65536

def maxLocals : Nat := 256

/-- Arguments of a call, parameters and captured values of a function. -/
def maxArgs : Nat := 255

/-- Items of an array and entries of a map that are written out. -/
def maxElements : Nat := 65535

def fail (ctx : CompileContext) (pos : Pos) (cause : CompileCause) : CompileM α :=
  throw ⟨ctx.file, pos, cause⟩

/-- Refuses what does not fit an operand. -/
def limit (ctx : CompileContext) (pos : Pos) (n max : Nat) (what : Measured) : CompileM Unit :=
  if max < n then fail ctx pos (.overflow what) else pure ()

def here : CompileM Nat := return (← get).here

/-- Counts the bytes of an instruction that is laid out now. -/
def lay (op : Opcode) : CompileM Unit :=
  modify fun s => { s with here := s.here + op.size }

def emit (pos : Pos) (op : Opcode) (a b : Nat) : CompileM Code := do
  lay op
  pure #[.plain ⟨op, a, b⟩ (some pos)]

/-- The place reached, as the target of a jump. -/
def target (ctx : CompileContext) (pos : Pos) : CompileM Nat := do
  let place ← here
  limit ctx pos place maxCodeSize .functionSize
  pure place

/-- Adds a constant to the pool; yields its index. -/
def addConstant (ctx : CompileContext) (pos : Pos) (v : Value) : CompileM Nat := do
  let index := (← get).pool.size
  if maxConstants ≤ index then fail ctx pos .tooManyConstants
  else
    modify fun s => { s with pool := s.pool.push v }
    pure index

def emitConstant (ctx : CompileContext) (pos : Pos) (v : Value) : CompileM Code := do
  let index ← addConstant ctx pos v
  emit pos .constant index 0

def emitLoad (pos : Pos) (s : Symbol) : CompileM Code :=
  match s.storage with
  | .global => emit pos .getGlobal s.index 0
  | .frame => emit pos .getLocal s.index 0
  | .builtin => emit pos .getBuiltin s.index 0
  | .free => emit pos .getFree s.index 0

def emitStore (pos : Pos) (s : Symbol) : CompileM Code :=
  match s.storage with
  | .frame => emit pos .setLocal s.index 0
  | _ => emit pos .setGlobal s.index 0

/-- Changes the names in force. -/
def withSymbols (f : SymbolTable → α × SymbolTable) : CompileM α :=
  modifyGet fun s =>
    let (a, symbols) := f s.symbols
    (a, { s with symbols })

def enterBlock : CompileM Unit := withSymbols fun t => ((), t.enterBlock)

def leaveBlock : CompileM Unit := withSymbols fun t => ((), t.leaveBlock)

/-- Defines a name in the innermost block, if a slot is left. -/
def define (ctx : CompileContext) (pos : Pos) (name : String) : CompileM Symbol := do
  let s ← withSymbols (·.define name)
  match s.storage with
  | .frame => if maxLocals ≤ s.index then fail ctx pos .tooManyLocals else pure s
  | .global => if maxGlobals ≤ s.index then fail ctx pos .tooManyGlobals else pure s
  | _ => pure s

/-- What a name means here. -/
def resolve (ctx : CompileContext) (pos : Pos) (name : String) : CompileM Symbol := do
  match ← withSymbols (·.resolve name) with
  | some s => pure s
  | none => fail ctx pos (.unresolved name)

/-- The function object for a finished routine. -/
def makeFunction (r : Routine) : CompileM Value :=
  modifyGet fun s => (.function ⟨s.maker, s.made⟩ r, { s with made := s.made + 1 })

/-- Adds a line to the trace, indented by the nodes around it. -/
def note (ctx : CompileContext) (text : String) : CompileM Unit :=
  if ctx.traced then
    modify fun s => { s with
      trace := s.trace.push (String.ofList (List.replicate (2 * ctx.depth) ' ') ++ text) }
  else pure ()

end Compile

end ScriptEngine
