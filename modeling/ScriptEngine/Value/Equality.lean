import ScriptEngine.Value.Basic
/-!
When scripts take two values as equal: data by its contents, floats as numbers, functions only if
they are the same object.
-/
namespace ScriptEngine.Value

mutual

def same : Value → Value → Bool
  | undefined, undefined => true
  | bool a, bool b => a == b
  | int a, int b => a == b
  | float a, float b => a == b
  | char a, char b => a == b
  | string a, string b => a == b
  | array a, array b => sameItems a b
  | map a, map b => sameEntries a b
  | module name a, module name' b => name == name' && sameEntries a b
  | function id _, function id' _ => id == id'
  | closure id _ _, closure id' _ _ => id == id'
  | builtin a, builtin b => a == b
  | native id _, native id' _ => id == id'
  | _, _ => false

def sameItems : List Value → List Value → Bool
  | [], [] => true
  | a :: as, b :: bs => same a b && sameItems as bs
  | _, _ => false

def sameEntries : List (String × Value) → List (String × Value) → Bool
  | [], [] => true
  | (k, a) :: as, (l, b) :: bs => k == l && same a b && sameEntries as bs
  | _, _ => false

end

end ScriptEngine.Value
