import Std.Data.TreeMap.Basic
import ScriptEngine.Bytecode.Basic
/-!
Merging equal constants. The pool keeps the first constant of each key and every constant without
one, in order; loads in the main routine and in function constants follow.
-/
namespace ScriptEngine

/-- What makes two constants one. Functions have no key, since each has source positions of its
own. -/
inductive ConstantKey where
  | bool (b : Bool)
  | int (n : Int64)
  | float (bits : UInt64)
  | char (c : Char)
  | string (s : String)
  | module (name : String)
  deriving DecidableEq, Repr

namespace ConstantKey

def of? : Value → Option ConstantKey
  | .bool b => some (bool b)
  | .int n => some (int n)
  | .float x => some (float x.toBits)
  | .char c => some (char c)
  | .string s => some (string s)
  | .module name _ => some (module name)
  | _ => none

/-- A place for keys in a search tree: the kind, a number and a text. -/
def order : ConstantKey → Nat × Nat × String
  | bool b => (0, b.toNat, "")
  | int n => (1, n.toUInt64.toNat, "")
  | float bits => (2, bits.toNat, "")
  | char c => (3, c.toNat, "")
  | string s => (4, 0, s)
  | module name => (5, 0, name)

def cmp (k l : ConstantKey) : Ordering :=
  let (a, n, s) := k.order
  let (b, m, t) := l.order
  (compare a b).then ((compare n m).then (compare s t))

end ConstantKey

/-- A pool under merging: the constants kept, the index of each key among them, and where each
constant seen so far is now. -/
structure Merged where
  kept : Array Value
  seen : Std.TreeMap ConstantKey Nat ConstantKey.cmp
  moved : Array Nat

namespace Merged

def empty : Merged := ⟨#[], ∅, #[]⟩

def add (m : Merged) (v : Value) : Merged :=
  match ConstantKey.of? v with
  | none => { m with kept := m.kept.push v, moved := m.moved.push m.kept.size }
  | some key =>
    match m.seen[key]? with
    | some i => { m with moved := m.moved.push i }
    | none =>
      { kept := m.kept.push v
        seen := m.seen.insert key m.kept.size
        moved := m.moved.push m.kept.size }

def ofPool (pool : Array Value) : Merged := pool.foldl add empty

end Merged

/-- Whether an instruction names a constant. -/
def Opcode.loadsConstant : Opcode → Bool
  | constant | closure => true
  | _ => false

/-- Writes a number into the two bytes at a place; one that is too wide becomes the largest. -/
def writeIndex (code : Array UInt8) (place n : Nat) : Array UInt8 :=
  let n := min n 0xffff
  (code.setIfInBounds place (UInt8.ofNat (n / 256))).setIfInBounds (place + 1)
    (UInt8.ofNat (n % 256))

/-- Moves the constant that a slot names, if both bytes of its index are there. -/
def Slot.redirect (moved : Array Nat) (s : Slot) (code : Array UInt8) : Array UInt8 :=
  match s.instruction? with
  | some ⟨op, a, _⟩ =>
    if op.loadsConstant && s.offset + 2 < code.size then
      writeIndex code (s.offset + 1) (moved.getD a a)
    else code
  | none => code

/-- Moves the constants that code names, up to the first byte that starts no instruction. -/
def redirectCode (moved : Array Nat) (code : Array UInt8) : Array UInt8 :=
  ((slots code).takeWhile (·.instruction?.isSome)).foldl (fun code s => s.redirect moved code) code

/-- Moves the constants that a constant's own code names. -/
def Value.redirect (moved : Array Nat) : Value → Value
  | .function id r => .function id { r with code := redirectCode moved r.code }
  | other => other

/-- The program with one constant per key. -/
def Bytecode.merge (b : Bytecode) : Bytecode :=
  let merged := Merged.ofPool b.pool
  { b with
    main := { b.main with code := redirectCode merged.moved b.main.code }
    pool := merged.kept.map (Value.redirect merged.moved) }

/-! Objects. A function constant whose object other values refer to cannot have its code moved where
it is: it becomes an object of its own, and the other values keep the one they have. -/

/-- The value is the function object with this id. -/
def Value.isObject (id : FunctionId) : Value → Bool
  | function id' _ => id' = id
  | _ => false

/-- Other values of the pool refer to a function object when the constant at a place has its turn: a
later constant, or a value inside a constant. Of the constants before it that were this object each
has one of its own by then. -/
def Bytecode.shares (b : Bytecode) (place : Nat) (id : FunctionId) : Bool :=
  (List.range b.pool.size).any fun k =>
    match b.pool[k]? with
    | some (.function id' _) => place < k && id' = id
    | some v => v.functions.any (Value.isObject id)
    | none => false

/-- The program after merging with an object for each function constant that other values refer to as
well: values of the pool, or values outside it, as `outside` tells. -/
def Bytecode.unshare (b : Bytecode) (outside : FunctionId → Bool) (copies : Nat → FunctionId) :
    Bytecode :=
  { b with pool := b.pool.mapIdx fun k v =>
      match v with
      | .function id r => if outside id || b.shares k id then .function (copies k) r else v
      | v => v }

end ScriptEngine
