import ScriptEngine.Bytecode.Basic
import ScriptEngine.Compile.Import
/-! Whole programs as bytecode. -/
namespace ScriptEngine

structure CompileOptions extends ImportOptions where
  /-- Where the files that the main program imports lie. -/
  importDir : String
  /-- The names in force at the start. -/
  symbols : SymbolTable
  /-- The constants at the start. -/
  pool : Array Value
  traced : Bool
  /-- Whose function objects the compiler makes. -/
  maker : Nat

structure Compilation where
  bytecode : Bytecode
  symbols : SymbolTable
  /-- How many function objects the compiler made. -/
  made : Nat

namespace Compile

/-- The main routine. Its last instruction, which comes from no place in the source, ends the run.
-/
def mainRoutine (o : CompileOptions) (file : String) (body : List Stmt) : CompileM Routine := do
  let ctx : CompileContext := {
    file, importDir := o.importDir, inModule := false, inFunction := false, inLoop := false
    chain := [], depth := 0, traced := o.traced }
  note ctx ("File " ++ file)
  let code ← stmts (importModule o.toImportOptions o.maxDepth) ctx body #[]
  lay .suspend
  let locals := (← get).symbols.current.slots
  pure (Code.toRoutine (code.push (.plain ⟨.suspend, 0, 0⟩ none)) locals 0)

end Compile

/-- Compiles a program. The lines of the trace are there whether it succeeds or not. -/
def compile (o : CompileOptions) (file : String) (body : List Stmt) :
    Except CompileError Compilation × Array String :=
  let start : CompileState :=
    { symbols := o.symbols, pool := o.pool, here := 0, cache := [], trace := #[], maker := o.maker,
      made := 0 }
  match (Compile.mainRoutine o file body).run start with
  | .ok main s => (.ok ⟨⟨file, main, s.pool⟩, s.symbols, s.made⟩, s.trace)
  | .error e s => (.error e, s.trace)

end ScriptEngine
