import Std.Data.TreeMap.Basic
/-!
Names in force while a program is compiled. Every function being compiled has a frame of nested
blocks; the names of the outermost frame are global slots, those of a function are slots of its
frame, and a function that uses a name of a function around it captures the value.
-/
namespace ScriptEngine

/-- Where the value of a name is kept. -/
inductive Storage where
  | global
  /-- A slot of the frame of the function that is running. -/
  | frame
  | builtin
  /-- One of the values that the running function captured. -/
  | free
  deriving DecidableEq, Repr

structure Symbol where
  name : String
  storage : Storage
  index : Nat
  deriving DecidableEq, Repr

abbrev ScopeBlock := Std.TreeMap String Symbol

/-- The names of one function, or those outside of all functions. -/
structure ScopeFrame where
  /-- The innermost block. -/
  block : ScopeBlock
  /-- The blocks around it, from the inside out. -/
  outer : List ScopeBlock
  /-- The next slot to give out; taken back at the end of a block. -/
  nextSlot : Nat
  /-- One more than the largest slot given out so far. -/
  slots : Nat
  /-- The captured names, as the enclosing function knows them. -/
  free : List Symbol

namespace ScopeFrame

def empty : ScopeFrame := ⟨∅, [], 0, 0, []⟩

/-- The definition in the innermost block that has one. -/
def lookup? (f : ScopeFrame) (name : String) : Option Symbol :=
  (f.block :: f.outer).findSome? (·[name]?)

def add (f : ScopeFrame) (s : Symbol) : ScopeFrame :=
  { f with block := f.block.insert s.name s }

end ScopeFrame

/-- The frames from the innermost function out, the frame outside of all functions last. -/
structure SymbolTable where
  builtins : Std.TreeMap String Nat
  functions : List ScopeFrame
  outside : ScopeFrame
  /-- The next slot at the start of each open block, innermost first. -/
  marks : List Nat
  globals : Nat

namespace SymbolTable

def empty : SymbolTable := ⟨∅, [], .empty, [], 0⟩

/-- The frame in force. -/
def current (t : SymbolTable) : ScopeFrame :=
  match t.functions with
  | [] => t.outside
  | f :: _ => f

def setCurrent (t : SymbolTable) (f : ScopeFrame) : SymbolTable :=
  match t.functions with
  | [] => { t with outside := f }
  | _ :: rest => { t with functions := f :: rest }

def inFunction (t : SymbolTable) : Bool := !t.functions.isEmpty

def defineBuiltin (t : SymbolTable) (name : String) (index : Nat) : SymbolTable :=
  { t with builtins := t.builtins.insert name index }

/-- Defines a name in the innermost block, in a new slot. -/
def define (t : SymbolTable) (name : String) : Symbol × SymbolTable :=
  match t.functions with
  | [] =>
    let s : Symbol := ⟨name, .global, t.globals⟩
    (s, { t with globals := t.globals + 1, outside := t.outside.add s })
  | f :: rest =>
    let s : Symbol := ⟨name, .frame, f.nextSlot⟩
    let f := { f with nextSlot := f.nextSlot + 1, slots := max f.slots (f.nextSlot + 1) }
    (s, { t with functions := f.add s :: rest })

def definedInBlock (t : SymbolTable) (name : String) : Bool := t.current.block.contains name

/-- What a name means in the innermost of the given frames, with the captures this takes. -/
def resolveIn (t : SymbolTable) (name : String) :
    List ScopeFrame → Option (Symbol × List ScopeFrame)
  | [] =>
    match t.outside.lookup? name with
    | some s => some (s, [])
    | none => t.builtins[name]?.map fun index => (⟨name, .builtin, index⟩, [])
  | f :: rest =>
    match f.lookup? name with
    | some s => some (s, f :: rest)
    | none =>
      match f.free.findIdx? (·.name = name) with
      | some i => some (⟨name, .free, i⟩, f :: rest)
      | none =>
        match resolveIn t name rest with
        | none => none
        | some (s, rest) =>
          match s.storage with
          | .global | .builtin => some (s, f :: rest)
          | .frame | .free =>
            some (⟨name, .free, f.free.length⟩, { f with free := f.free ++ [s] } :: rest)

/-- What a name means here. -/
def resolve (t : SymbolTable) (name : String) : Option Symbol × SymbolTable :=
  match t.resolveIn name t.functions with
  | some (s, functions) => (some s, { t with functions })
  | none => (none, t)

def enterBlock (t : SymbolTable) : SymbolTable :=
  let f := t.current
  { t.setCurrent { f with block := ∅, outer := f.block :: f.outer } with
    marks := f.nextSlot :: t.marks }

/-- Ends the innermost block; the slots given out in it are free again. -/
def leaveBlock (t : SymbolTable) : SymbolTable :=
  let f := t.current
  let f := match f.outer with
    | [] => f
    | block :: outer => { f with block, outer }
  match t.marks with
  | [] => t.setCurrent f
  | mark :: marks => { t.setCurrent { f with nextSlot := mark } with marks }

def enterFunction (t : SymbolTable) : SymbolTable :=
  { t with functions := .empty :: t.functions }

/-- Ends the innermost function; yields its number of slots and what it captures. -/
def leaveFunction (t : SymbolTable) : (Nat × List Symbol) × SymbolTable :=
  match t.functions with
  | [] => ((0, []), t)
  | f :: rest => ((f.slots, f.free), { t with functions := rest })

/-- A table for a module: the same builtins, no global names, and the module as a function. -/
def forModule (t : SymbolTable) : SymbolTable :=
  { empty with builtins := t.builtins, functions := [.empty] }

/-- The names of the outermost block outside of all functions, by slot. -/
def globalSymbols (t : SymbolTable) : List Symbol :=
  let block := t.outside.outer.getLastD t.outside.block
  (block.values).mergeSort fun s u => s.index ≤ u.index

end SymbolTable

end ScriptEngine
