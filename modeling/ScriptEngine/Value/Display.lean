import ScriptEngine.Decimal.Notation
import ScriptEngine.Text.Quoted
import ScriptEngine.Value.Basic
/-! Values as text. Inside arrays and maps, strings and characters are quoted. -/
namespace ScriptEngine.Value

mutual

/-- A value as scripts print it. -/
def display : Value → String
  | undefined => "<undefined>"
  | bool b => if b then "true" else "false"
  | int n => toString n.toInt
  | float x => Decimal.floatText x
  | char c => c.toString
  | string s => s
  | array items => "[" ++ ", ".intercalate (displayItems items) ++ "]"
  | map entries => "\x7b" ++ ", ".intercalate (displayEntries entries) ++ "\x7d"
  | module name _ => "<module " ++ name ++ ">"
  | function .. | closure .. => "<function>"
  | builtin b => "<builtin " ++ b.name ++ ">"
  | native _ name => "<native " ++ name ++ ">"

def displayItems : List Value → List String
  | [] => []
  | string s :: rest => Text.quoteString s :: displayItems rest
  | char c :: rest => Text.quoteChar c :: displayItems rest
  | v :: rest => v.display :: displayItems rest

def displayEntries : List (String × Value) → List String
  | [] => []
  | (key, string s) :: rest => (key ++ ": " ++ Text.quoteString s) :: displayEntries rest
  | (key, char c) :: rest => (key ++ ": " ++ Text.quoteChar c) :: displayEntries rest
  | (key, v) :: rest => (key ++ ": " ++ v.display) :: displayEntries rest

end

end ScriptEngine.Value
