import Std.Data.TreeMap.Basic
import ScriptEngine.Value.Basic
/-! Modules that scripts can import by name. -/
namespace ScriptEngine

inductive ModuleSource where
  /-- Attributes set by the host. -/
  | attrs (entries : List (String × Value))
  /-- A script that exports the module's value. -/
  | script (text : String)
  deriving Inhabited

abbrev Registry := Std.TreeMap String ModuleSource

end ScriptEngine
