import ScriptEngine.Value.Basic
/-!
Trees of plain data that pass between scripts and their host, their conversion from and to values, and
the host's own data, which takes the form of trees.
-/
namespace ScriptEngine

/-- Plain data. The entries of an object have ascending keys. -/
inductive Tree where
  | null
  | bool (b : Bool)
  | int (n : Int)
  | float (x : Float)
  | string (s : String)
  | array (items : List Tree)
  | object (entries : List (String × Tree))
  deriving Inhabited

/-- Why data cannot pass. -/
inductive ConversionError where
  /-- Host data without the form of a tree, or a tree without the shape asked for. -/
  | shape
  | integerOverflow (n : Int)
  | nonFiniteFloat (x : Float)
  | unsupported (type : String)

namespace Tree

mutual

/-- The value of a tree. Integers have to fit 64 bits. -/
def toValue : Tree → Except ConversionError Value
  | null => .ok .undefined
  | bool b => .ok (.bool b)
  | int n =>
    if Int64.minValue.toInt ≤ n && n ≤ Int64.maxValue.toInt then .ok (.int (Int64.ofInt n))
    else .error (.integerOverflow n)
  | float x => .ok (.float x)
  | string s => .ok (.string s)
  | array items => do
    let vs ← itemsToValues items
    return .array vs
  | object entries => do
    let es ← entriesToValues entries
    return .map es

def itemsToValues : List Tree → Except ConversionError (List Value)
  | [] => .ok []
  | t :: rest => do
    let v ← t.toValue
    let vs ← itemsToValues rest
    return v :: vs

def entriesToValues : List (String × Tree) → Except ConversionError (List (String × Value))
  | [] => .ok []
  | (key, t) :: rest => do
    let v ← t.toValue
    let es ← entriesToValues rest
    return (key, v) :: es

end

end Tree

namespace Value

mutual

/-- The tree of a value. Functions have none, nor have infinities and NaN; a character becomes a
string and a module the object of its attributes. -/
def toTree : Value → Except ConversionError Tree
  | undefined => .ok .null
  | bool b => .ok (.bool b)
  | int n => .ok (.int n.toInt)
  | float x => if x.isFinite then .ok (.float x) else .error (.nonFiniteFloat x)
  | char c => .ok (.string c.toString)
  | string s => .ok (.string s)
  | array items => do
    let ts ← itemsToTrees items
    return .array ts
  | map entries | module _ entries => do
    let es ← entriesToTrees entries
    return .object es
  | v@(function ..) | v@(closure ..) | v@(builtin _) | v@(native ..) =>
    .error (.unsupported v.typeName)

def itemsToTrees : List Value → Except ConversionError (List Tree)
  | [] => .ok []
  | v :: rest => do
    let t ← v.toTree
    let ts ← itemsToTrees rest
    return t :: ts

def entriesToTrees : List (String × Value) → Except ConversionError (List (String × Tree))
  | [] => .ok []
  | (key, v) :: rest => do
    let t ← v.toTree
    let es ← entriesToTrees rest
    return (key, t) :: es

end

end Value

/-- Host data. A map may repeat a key; a map whose keys are pairs has no form of a tree unless it
is empty. -/
inductive Datum where
  | null
  | bool (b : Bool)
  | int (n : Int)
  | float (x : Float)
  | char (c : Char)
  | string (s : String)
  | array (items : List Datum)
  | map (entries : List (String × Datum))
  | pairMap (values : List Datum)
  deriving Inhabited

namespace Datum

mutual

/-- The tree of host data. An infinity or NaN is lost, and a character becomes a string. -/
def toTree : Datum → Except ConversionError Tree
  | null => .ok .null
  | bool b => .ok (.bool b)
  | int n => .ok (.int n)
  | float x => .ok (if x.isFinite then .float x else .null)
  | char c => .ok (.string c.toString)
  | string s => .ok (.string s)
  | array items => do
    let ts ← itemsToTrees items
    return .array ts
  | map entries => do
    let es ← entriesToTrees entries
    return .object (Entries.ofList es)
  | pairMap values => if values.isEmpty then .ok (.object []) else .error .shape

def itemsToTrees : List Datum → Except ConversionError (List Tree)
  | [] => .ok []
  | d :: rest => do
    let t ← d.toTree
    let ts ← itemsToTrees rest
    return t :: ts

def entriesToTrees : List (String × Datum) → Except ConversionError (List (String × Tree))
  | [] => .ok []
  | (key, d) :: rest => do
    let t ← d.toTree
    let es ← entriesToTrees rest
    return (key, t) :: es

end

/-- The value that host data is bound to. -/
def toValue (d : Datum) : Except ConversionError Value := do
  let t ← d.toTree
  t.toValue

end Datum

end ScriptEngine
