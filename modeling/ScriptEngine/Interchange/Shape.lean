import ScriptEngine.Decimal.Notation
import ScriptEngine.Interchange.Tree
/-! Host types that a value can be read back into, and what a failed conversion says. -/
namespace ScriptEngine

inductive Shape where
  | any | int | bool | string | ints | optionalInt
  deriving DecidableEq, Repr

/-- Whether a tree has the shape of a host type. -/
def Shape.admits : Shape → Tree → Bool
  | any, _ => true
  | int, .int _ => true
  | bool, .bool _ => true
  | string, .string _ => true
  | ints, .array items => items.all fun t => match t with
    | .int _ => true
    | _ => false
  | optionalInt, .null | optionalInt, .int _ => true
  | _, _ => false

/-- Reads a value into a host type. -/
def Value.read (shape : Shape) (v : Value) : Except ConversionError Tree := do
  let t ← v.toTree
  if shape.admits t then return t else throw .shape

def ConversionError.message : ConversionError → String
  | shape => "data of another shape"
  | integerOverflow n => "integer " ++ toString n ++ " does not fit in a script int"
  | nonFiniteFloat x => "float " ++ Decimal.floatText x ++ " has no host representation"
  | unsupported type => type ++ " values have no host representation"

end ScriptEngine
