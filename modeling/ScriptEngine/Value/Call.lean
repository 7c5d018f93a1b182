import ScriptEngine.Decimal.Reader
import ScriptEngine.Text.Blank
import ScriptEngine.Value.Display
/-! The functions that every script can call. -/
namespace ScriptEngine

/-- Why a builtin or host function refuses its arguments. -/
inductive CallError where
  | wrongArgCount (want got : Nat)
  | invalidArgument (name expected found : String)
  | message (text : String)
  deriving DecidableEq, Repr

def CallError.text : CallError → String
  | wrongArgCount want got =>
    "wrong number of arguments: want=" ++ toString want ++ ", got=" ++ toString got
  | invalidArgument name expected found =>
    "invalid type for argument '" ++ name ++ "': expected " ++ expected ++ ", found " ++ found
  | message text => text

namespace Builtin

/-- The one argument of a function. -/
def single : List Value → Except CallError Value
  | [v] => .ok v
  | args => .error (.wrongArgCount 1 args.length)

/-- The argument of a conversion and what it yields if that cannot be converted. -/
def withFallback : List Value → Except CallError (Value × Value)
  | [v] => .ok (v, .undefined)
  | [v, fallback] => .ok (v, fallback)
  | args => .error (.wrongArgCount 1 args.length)

def length (v : Value) : Except CallError Value :=
  match v with
  | .string s => .ok (.int (Int64.ofNat s.length))
  | .array items => .ok (.int (Int64.ofNat items.length))
  | .map entries | .module _ entries => .ok (.int (Int64.ofNat entries.length))
  | other => .error (.invalidArgument "first" "array/string/map" other.typeName)

/-- The items behind an array's; undefined counts as the empty array. -/
def extend : List Value → Except CallError Value
  | [] => .error (.wrongArgCount 1 0)
  | .array items :: rest => .ok (.array (items ++ rest))
  | .undefined :: rest => .ok (.array rest)
  | other :: _ => .error (.invalidArgument "first" "array" other.typeName)

def toText (v fallback : Value) : Value :=
  match v with
  | .string s => .string s
  | .undefined => fallback
  | other => .string other.display

/-- A float loses its places and stays in the range of integers. -/
def toInt (v fallback : Value) : Value :=
  match v with
  | .int n => .int n
  | .float x => if x.isFinite then .int x.toInt64 else fallback
  | .char c => .int (Int64.ofNat c.toNat)
  | .bool b => .int (if b then 1 else 0)
  | .string s =>
    match Decimal.readInt? (Text.trimBlanks s.toList) with
    | some n => .int n
    | none => fallback
  | _ => fallback

def toFloat (v fallback : Value) : Value :=
  match v with
  | .float x => .float x
  | .int n => .float n.toFloat
  | .string s =>
    match Decimal.readFloat? (Text.trimBlanks s.toList) with
    | some x => .float x
    | none => fallback
  | _ => fallback

/-- The keys of a map in ascending order. -/
def keysOf (v : Value) : Except CallError Value :=
  match v with
  | .map entries | .module _ entries => .ok (.array (entries.map fun e => .string e.1))
  | other => .error (.invalidArgument "first" "map" other.typeName)

def call (b : Builtin) (args : List Value) : Except CallError Value :=
  match b with
  | len => single args >>= length
  | append => extend args
  | typeName => (single args).map fun v => .string v.typeName
  | string => (withFallback args).map fun (v, fallback) => toText v fallback
  | int => (withFallback args).map fun (v, fallback) => toInt v fallback
  | float => (withFallback args).map fun (v, fallback) => toFloat v fallback
  | isUndefined => (single args).map fun v => .bool v.isUndefined
  | keys => single args >>= keysOf

end Builtin

end ScriptEngine
