import ScriptEngine.Bytecode.Instruction
import ScriptEngine.Value.Basic
/-! A compiled program: the main routine and the constants that all its code refers to. -/
namespace ScriptEngine

structure Bytecode where
  file : String
  main : Routine
  pool : Array Value
  deriving Inhabited

/-- Objects in the pool, those inside constants included. -/
def Bytecode.countObjects (b : Bytecode) : Nat :=
  b.pool.foldl (fun n v => n + v.countObjects) 0

end ScriptEngine
