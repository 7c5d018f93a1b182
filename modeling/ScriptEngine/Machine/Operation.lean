import ScriptEngine.Bytecode.Opcode
import ScriptEngine.Decimal.Reader
import ScriptEngine.Machine.Trap
/-!
Operators on values. Integers wrap at 64 bits; an integer beside a float counts as the nearest
float.
-/
namespace ScriptEngine

namespace ArithOp

def onInts (op : ArithOp) (l r : Int64) : Except Trap Value :=
  match op with
  | add => .ok (.int (l + r))
  | sub => .ok (.int (l - r))
  | mul => .ok (.int (l * r))
  | div => if r = 0 then .error .divisionByZero else .ok (.int (l / r))
  | rem => if r = 0 then .error .divisionByZero else .ok (.int (l % r))

def onFloats (op : ArithOp) (l r : Float) : Float :=
  match op with
  | add => l + r
  | sub => l - r
  | mul => l * r
  | div => l / r
  | rem => Decimal.remainder l r

/-- The character so many places after or before another. -/
def onChar (op : ArithOp) (c : Char) (n : Int64) : Option Char :=
  let code? : Option Int := match op with
    | add => some (c.toNat + n.toInt)
    | sub => some (c.toNat - n.toInt)
    | _ => none
  code?.bind fun code =>
    if 0 ≤ code && Nat.isValidChar code.toNat then some (Char.ofNat code.toNat) else none

/-- The operation's value. Text takes in the text of a number, a character or a truth value behind
it. -/
def apply (op : ArithOp) (left right : Value) : Except Trap Value :=
  let mismatch : Except Trap Value :=
    .error (.binaryTypes left.typeName op.symbol right.typeName)
  match left, right with
  | .int l, .int r => op.onInts l r
  | .float l, .float r => .ok (.float (op.onFloats l r))
  | .int l, .float r => .ok (.float (op.onFloats l.toFloat r))
  | .float l, .int r => .ok (.float (op.onFloats l r.toFloat))
  | .string l, .string r =>
    if op = add then .ok (.string (l ++ r)) else .error (.unsupported (Opcode.arith op).name)
  | .string l, .int _ | .string l, .float _ | .string l, .char _ | .string l, .bool _ =>
    if op = add then .ok (.string (l ++ right.display)) else mismatch
  | .char _, .char _ => .error (.unsupported (Opcode.arith op).name)
  | .char c, .int n =>
    match op.onChar c n with
    | some c => .ok (.char c)
    | none => mismatch
  | .array l, .array r => if op = add then .ok (.array (l ++ r)) else mismatch
  | _, _ => mismatch

end ArithOp

namespace Comparison

def onFloats (c : Comparison) (l r : Float) : Bool :=
  match c with
  | less => l < r
  | lessEq => l ≤ r
  | greater => r < l
  | greaterEq => r ≤ l

/-- The comparison of two values that an order ranks as given. -/
def holds (c : Comparison) (o : Ordering) : Bool :=
  match c with
  | less => o.isLT
  | lessEq => o.isLE
  | greater => o.isGT
  | greaterEq => o.isGE

/-- Numbers compare by size, characters by code, texts as sequences of characters. -/
def apply (c : Comparison) (left right : Value) : Except Trap Value :=
  match left, right with
  | .int l, .int r => .ok (.bool (c.holds (compare l r)))
  | .float l, .float r => .ok (.bool (c.onFloats l r))
  | .int l, .float r => .ok (.bool (c.onFloats l.toFloat r))
  | .float l, .int r => .ok (.bool (c.onFloats l r.toFloat))
  | .string l, .string r => .ok (.bool (c.holds (compare l r)))
  | .char l, .char r => .ok (.bool (c.holds (compare l r)))
  | _, _ => .error (.binaryTypes left.typeName c.symbol right.typeName)

end Comparison

namespace Value

def negate : Value → Except Trap Value
  | int n => .ok (.int (-n))
  | float x => .ok (.float (-x))
  | other => .error (.unaryTypes "-" other.typeName)

/-- The position that an index means in a container of the given length. -/
def position (container : String) (length : Nat) : Value → Except Trap Nat
  | int i =>
    if 0 ≤ i.toInt && i.toInt < length then .ok i.toInt.toNat
    else .error (.indexOutOfBounds i length)
  | other => .error (.invalidIndex container other.typeName)

/-- The element at an index. A key that is not there yields undefined, and so does any element of
undefined. -/
def element (container index : Value) : Except Trap Value :=
  match container with
  | array items => do
    let i ← position "array" items.length index
    return items.getD i .undefined
  | string s => do
    let i ← position "string" s.length index
    return (s.toList[i]?.map char).getD .undefined
  | map entries | module _ entries =>
    match index with
    | string key => .ok ((Entries.find? key entries).getD .undefined)
    | other => .error (.invalidIndex container.typeName other.typeName)
  | undefined => .ok .undefined
  | other => .error (.notIndexable other.typeName)

/-- The container with one element replaced; a map may gain a key. -/
def replaceElement (container index value : Value) : Except Trap Value :=
  match container with
  | array items => do
    let i ← position "array" items.length index
    return array (items.set i value)
  | map entries =>
    match index with
    | string key => .ok (map (Entries.insert key value entries))
    | other => .error (.invalidIndex "map" other.typeName)
  | other => .error (.notIndexable other.typeName)

/-- The map of keys and values that follow one another. -/
def mapOf : List Value → List (String × Value) → Except Trap Value
  | string key :: value :: rest, entries => mapOf rest (Entries.insert key value entries)
  | other :: _ :: _, _ => .error (.invalidIndex "map" other.typeName)
  | _, entries => .ok (.map entries)

end Value

end ScriptEngine
