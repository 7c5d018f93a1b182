import ScriptEngine.Bytecode.Routine
import ScriptEngine.Value.Entries
/-! The values that scripts compute with. -/
namespace ScriptEngine

/-- Which function object a value refers to: `serial` counts the ones that `maker` made. -/
structure FunctionId where
  maker : Nat
  serial : Nat
  deriving DecidableEq, Repr, Inhabited

/-- The functions that every script can call, in the order of their indices. -/
inductive Builtin where
  | len | append | typeName | string | int | float | isUndefined | keys
  deriving DecidableEq, Repr

namespace Builtin

def all : Array Builtin := #[len, append, typeName, string, int, float, isUndefined, keys]

def name : Builtin → String
  | len => "len"
  | append => "append"
  | typeName => "type_name"
  | string => "string"
  | int => "int"
  | float => "float"
  | isUndefined => "is_undefined"
  | keys => "keys"

def ofName? (name : String) : Option Builtin := all.find? (·.name = name)

end Builtin

/-- A value. Functions carry an identity, since two functions are equal only if they are the same
object. The entries of maps and modules have ascending keys. -/
inductive Value where
  | undefined
  | bool (b : Bool)
  | int (n : Int64)
  | float (x : Float)
  | char (c : Char)
  | string (s : String)
  | array (items : List Value)
  | map (entries : List (String × Value))
  /-- The attributes of an imported host module. -/
  | module (name : String) (attrs : List (String × Value))
  | function (id : FunctionId) (routine : Routine)
  /-- A function with the values it captured when it was made. -/
  | closure (id : FunctionId) (routine : Routine) (free : List Value)
  | builtin (b : Builtin)
  /-- A function of the host. -/
  | native (id : FunctionId) (name : String)
  deriving Inhabited

namespace Value

/-- The type of a value as scripts see it. -/
def typeName : Value → String
  | undefined => "undefined"
  | bool _ => "bool"
  | int _ => "int"
  | float _ => "float"
  | char _ => "char"
  | string _ => "string"
  | array _ => "array"
  | map _ => "map"
  | module .. => "module"
  | function .. | closure .. => "function"
  | builtin _ | native .. => "native-function"

def isUndefined : Value → Bool
  | undefined => true
  | _ => false

def isCallable : Value → Bool
  | function .. | closure .. | builtin _ | native .. => true
  | _ => false

/-- How conditions see a value. -/
def isTruthy : Value → Bool
  | undefined => false
  | bool b => b
  | int n => n != 0
  | float x => x != 0.0 && !x.isNaN
  | char c => c != '\x00'
  | string s => !s.isEmpty
  | array items => !items.isEmpty
  | map entries => !entries.isEmpty
  | module .. | function .. | closure .. | builtin _ | native .. => true

/-- The entries of a map, or the attributes of a module. -/
def entries? : Value → Option (List (String × Value))
  | map entries | module _ entries => some entries
  | _ => none

mutual

/-- Objects in a value: itself and all that it holds. -/
def countObjects : Value → Nat
  | array items => countItems items + 1
  | map entries => countEntries entries + 1
  | module _ attrs => countEntries attrs + 1
  | closure _ _ free => countItems free + 1
  | _ => 1

def countItems : List Value → Nat
  | [] => 0
  | v :: rest => v.countObjects + countItems rest

def countEntries : List (String × Value) → Nat
  | [] => 0
  | (_, v) :: rest => v.countObjects + countEntries rest

end

mutual

/-- The functions and closures in a value, those that closures captured included. -/
def functions : Value → List Value
  | array items => functionsOf items
  | map entries | module _ entries => functionsIn entries
  | function id r => [function id r]
  | closure id r free => closure id r free :: functionsOf free
  | _ => []

def functionsOf : List Value → List Value
  | [] => []
  | v :: rest => v.functions ++ functionsOf rest

def functionsIn : List (String × Value) → List Value
  | [] => []
  | (_, v) :: rest => v.functions ++ functionsIn rest

end

end Value

end ScriptEngine
