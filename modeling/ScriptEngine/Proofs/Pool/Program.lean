import ScriptEngine.Proofs.Pool.Held
/-! What a function of the pool does when it is called, before merging and after. -/
namespace ScriptEngine

open Encoding

/-- A routine of some instructions without local variables. -/
def Routine.ofRow (is : List Instruction) : Routine := ⟨(encode is).toArray, 0, 0, #[]⟩

/-- Code that calls what lies below some arguments, and stops. -/
def callerRoutine (args : Nat) : Routine := .ofRow [⟨.call, args, 0⟩, ⟨.suspend, 0, 0⟩]

/-- A machine about to call a function. -/
def Machine.calling (f : Value) (args : List Value) (g : Globals) (budget : Option Nat) : Machine :=
  { Machine.idle g budget with
    stack := (f :: args).toArray
    frame := ⟨callerRoutine args.length, [], 0, 0⟩ }

variable {b : Bytecode} {outside : FunctionId → Bool} {good : Nat → Prop} {moved : Array Nat}
  {f v : Value} {args : List Value} {g : Globals} {budget : Option Nat}

namespace Machine

end Machine

end ScriptEngine
