import ScriptEngine.Bytecode.Basic
import ScriptEngine.Machine.Globals
import ScriptEngine.Machine.Host
import ScriptEngine.Machine.Trap
/-!
The machine: a stack of values, on which the frame of every active function has its place, the
global slots, and a budget of allocations.
-/
namespace ScriptEngine

/-- What does not change during a run. -/
structure Setting where
  bytecode : Bytecode
  host : Host
  /-- Whose closures the run makes. -/
  maker : Nat

/-- A routine under way. Its local slots lie on the stack from `base` on; for a function they start
with the arguments, and the function itself lies below them. -/
structure Frame where
  routine : Routine
  /-- The values that the closure captured. -/
  free : List Value
  /-- Where the next instruction starts. -/
  ip : Nat
  base : Nat
  deriving Inhabited

structure Machine where
  globals : Globals
  stack : Array Value
  frame : Frame
  /-- The frames that wait for this one, innermost last; the main routine waits first. -/
  callers : Array Frame
  /-- Allocations left, if they are limited. -/
  budget : Option Nat
  /-- Where the last instruction started. -/
  lastIp : Nat
  /-- How many closures the maker has made. -/
  made : Nat
  /-- What host functions asked for. -/
  signals : Array Signal
  /-- Steps made, by this machine and before it. -/
  clock : Nat
  deriving Inhabited

namespace Machine

/-- A call that would make more frames than this overflows. -/
def maxFrames : Nat := 1024

/-- No value is pushed on a stack of this size. -/
def maxStack : Nat := 2048

/-- A machine before its first run. -/
def idle (globals : Globals) (budget : Option Nat) : Machine :=
  { globals, budget, stack := #[], frame := default, callers := #[], lastIp := 0, made := 0
    signals := #[], clock := 0 }

/-- The machine about to run the main routine. -/
def start (x : Setting) (m : Machine) : Machine :=
  { m with
    stack := Array.replicate x.bytecode.main.locals .undefined
    frame := ⟨x.bytecode.main, [], 0, 0⟩
    callers := #[] }

/-- The error for a trap of the instruction that started last. -/
def located (x : Setting) (m : Machine) (trap : Trap) : RuntimeError :=
  ⟨trap, x.bytecode.file, m.frame.routine.posAt m.lastIp⟩

end Machine

/-- Why a run ends before its program does. -/
inductive Halt where
  | trap (t : Trap)
  /-- A host function crashed. -/
  | panic (p : Panic)
  deriving DecidableEq, Repr

/-- Part of an instruction: it changes the machine and may halt it. -/
abbrev Exec := EStateM Halt Machine

namespace Exec

variable {α : Type}

def trap (t : Trap) : Exec α := throw (.trap t)

/-- The instruction under way is none. -/
def invalid : Exec α := do trap (.invalidInstruction (← get).lastIp)

/-- Takes an operator's value or fails as it does. -/
def lift : Except Trap α → Exec α
  | .ok a => pure a
  | .error t => trap t

def push (v : Value) : Exec Unit := do
  if Machine.maxStack ≤ (← get).stack.size then trap .stackOverflow
  else modify fun m => { m with stack := m.stack.push v }

/-- The topmost value. -/
def peek : Exec Value := do
  match (← get).stack.back? with
  | some v => pure v
  | none => invalid

def pop : Exec Value := do
  let v ← peek
  modify fun m => { m with stack := m.stack.pop }
  pure v

/-- The values from a place of the stack on, taken off it. -/
def popFrom (place : Nat) : Exec (List Value) :=
  modifyGet fun m =>
    ((m.stack.extract place m.stack.size).toList, { m with stack := m.stack.shrink place })

/-- The topmost values, the lowest first. -/
def popMany (n : Nat) : Exec (List Value) := do
  let size := (← get).stack.size
  if size < n then invalid else popFrom (size - n)

/-- Pays for an allocation. -/
def allocate : Exec Unit := do
  match (← get).budget with
  | none => pure ()
  | some 0 => trap .allocationLimit
  | some (left + 1) => modify fun m => { m with budget := some left }

/-- Pushes a value that has to be paid for. -/
def pushNew (v : Value) : Exec Unit := do
  allocate
  push v

def jump (target : Nat) : Exec Unit :=
  modify fun m => { m with frame := { m.frame with ip := target } }

/-- The place of a local slot on the stack. -/
def localPlace (slot : Nat) : Exec Nat := do
  let m ← get
  let place := m.frame.base + slot
  if place < m.stack.size then pure place else invalid

end Exec

end ScriptEngine
