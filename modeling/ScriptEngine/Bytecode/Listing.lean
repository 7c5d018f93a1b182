import ScriptEngine.Bytecode.Basic
import ScriptEngine.Value.Display
/-! Programs as text. -/
namespace ScriptEngine

/-- The lines for the constant at an index; a function is followed by its code. -/
def listConstant (index : Nat) (v : Value) : List String :=
  let label := "[" ++ Text.padStart 3 ' ' (toString index) ++ "] "
  match v with
  | .function _ r =>
    (label ++ "(function) locals=" ++ toString r.locals ++ " params=" ++ toString r.params) ::
      (listCode r.code 0).map ("     " ++ ·)
  | other => [label ++ "(" ++ other.typeName ++ ") " ++ other.display]

namespace Bytecode

/-- The constants, in order. -/
def listPool (b : Bytecode) : List String :=
  (b.pool.toList.zipIdx.map fun (v, i) => listConstant i v).flatten

/-- The main routine, one line per instruction. -/
def listMain (b : Bytecode) : List String := listCode b.main.code 0

/-- Both parts under headings. -/
def listAll (b : Bytecode) : List String :=
  ("Bytecode " ++ b.file) :: "Constants:" :: b.listPool.map ("  " ++ ·) ++
    "Instructions:" :: b.listMain.map ("  " ++ ·)

end Bytecode

end ScriptEngine
