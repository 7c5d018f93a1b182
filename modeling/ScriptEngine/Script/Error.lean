import ScriptEngine.Compile.Error
import ScriptEngine.Interchange.Shape
import ScriptEngine.Machine.Run
import ScriptEngine.Script.Cancellation
/-! Everything that can go wrong between a host and its scripts. -/
namespace ScriptEngine

inductive ScriptError where
  /-- A path that names nothing. -/
  | invalidPath
  | parse (e : SyntaxError)
  | compile (e : CompileError)
  | constantLimit (count limit : Nat)
  | runtime (e : RuntimeError)
  /-- A host function crashed during a cancellable run. -/
  | fault (p : Panic)
  /-- A host function crashed, and the crash passes through to the host. -/
  | crashed (p : Panic)
  | cancelled (cause : CancelCause)
  | undefinedVariable (name : String)
  | conversion (e : ConversionError)
  /-- The run did not end in the steps it was given. -/
  | unfinished

def Panic.describe : Panic → String
  | message text | structured text => text
  | unknown => "unknown panic payload"

namespace ScriptError

def message : ScriptError → String
  | invalidPath => "read error: empty path"
  | parse e => e.message
  | compile e => e.message
  | constantLimit count limit =>
    "constant objects limit exceeded: " ++ toString count ++ " > " ++ toString limit
  | runtime e => e.message
  | fault p => "unexpected fault: " ++ p.describe
  | crashed p => p.describe
  | cancelled cause => cause.message
  | undefinedVariable name => "'" ++ name ++ "' is not defined"
  | conversion e => "value conversion: " ++ e.message
  | unfinished => "run not finished"

/-- Whether a run stopped because its budget of allocations was used up. -/
def isAllocationLimit : ScriptError → Bool
  | runtime e => e.trap = .allocationLimit
  | _ => false

end ScriptError

end ScriptEngine
