import ScriptEngine.Bytecode.Basic
import ScriptEngine.Interchange.Tree
import ScriptEngine.Script.Error
import ScriptEngine.Text.Quoted
/-!
Compiled scripts with their globals. The host reads and writes globals by name between runs.
-/
namespace ScriptEngine

structure Artifact where
  /-- The names that the host can use, with their slots in ascending order. -/
  names : List (String × Nat)
  bytecode : Bytecode
  globals : Globals
  /-- Allocations that a run may make; unlimited if negative. -/
  maxAllocs : Int
  /-- How many closures the runs so far have made. -/
  made : Nat

/-- What a run is given from outside. -/
structure Conditions where
  host : Host
  /-- The most steps that the run may make. -/
  steps : Nat
  /-- The time at its start. Each step takes one unit. -/
  clock : Nat
  /-- Whose closures the run makes. -/
  maker : Nat

/-- What a run leaves behind. -/
structure Aftermath where
  result : Except ScriptError Unit
  artifact : Artifact
  signals : Array Signal
  clock : Nat

/-- A limit that is none if negative. -/
def limitOf (n : Int) : Option Nat := if n < 0 then none else some n.toNat

namespace Artifact

def slot? (a : Artifact) (name : String) : Option Nat := a.names.lookup name

/-- The value of a global; undefined if there is none of that name. -/
def get (a : Artifact) (name : String) : Value :=
  ((a.slot? name).bind a.globals.get?).getD .undefined

/-- The globals in the order of their slots. -/
def getAll (a : Artifact) : List (String × Value) :=
  a.names.map fun (name, slot) => (name, (a.globals.get? slot).getD .undefined)

def isDefined (a : Artifact) (name : String) : Bool := !(a.get name).isUndefined

def setValue (a : Artifact) (name : String) (v : Value) : Except ScriptError Artifact :=
  match a.slot? name with
  | some slot => .ok { a with globals := a.globals.set slot v }
  | none => .error (.undefinedVariable name)

/-- Sets a global to converted host data. -/
def set (a : Artifact) (name : String) (d : Datum) : Except ScriptError Artifact :=
  match d.toValue with
  | .ok v => a.setValue name v
  | .error e => .error (.conversion e)

/-- Reads a global into a host type. -/
def read (a : Artifact) (name : String) (shape : Shape) : Except ScriptError Tree :=
  match (a.get name).read shape with
  | .ok t => .ok t
  | .error e => .error (.conversion e)

/-- A short account of an artifact. -/
def describe (a : Artifact) : String :=
  "Compiled \x7b file: " ++ Text.quoteString a.bytecode.file ++
    ", globals: " ++ toString a.names.length ++
    ", constants: " ++ toString a.bytecode.pool.size ++
    ", max_allocs: " ++ toString a.maxAllocs ++ " \x7d"

def setting (a : Artifact) (c : Conditions) : Setting := ⟨a.bytecode, c.host, c.maker⟩

/-- The machine before a run. -/
def machine (a : Artifact) (c : Conditions) : Machine :=
  { Machine.idle a.globals (limitOf a.maxAllocs) with made := a.made, clock := c.clock }

/-- What is left after a run by that machine. -/
def after (a : Artifact) (m : Machine) (result : Except ScriptError Unit) : Aftermath :=
  ⟨result, { a with globals := m.globals, made := m.made }, m.signals, m.clock⟩

/-- What a run that nobody stopped comes to; `crash` says what a crash of the host means. -/
def result (crash : Panic → ScriptError) : Outcome → Except ScriptError Unit
  | .done => .ok ()
  | .failed e => .error (.runtime e)
  | .panicked p => .error (crash p)
  | .unfinished => .error .unfinished

def run (a : Artifact) (c : Conditions) : Aftermath :=
  let x := a.setting c
  let (ending, m) := (a.machine c).runFreely x c.steps
  a.after m (result .crashed (ending.outcome x m))

/-- Runs until the token fires. The run then stops within `latency` steps, and what it comes to in
them does not count. -/
def runWithCancel (a : Artifact) (c : Conditions) (number : Nat) (token : CancelToken)
    (latency : Nat) : Aftermath :=
  let fired? (m : Machine) : Option CancelCause :=
    (token.receive number m.signals).cause? m.clock
  let x := a.setting c
  let idle := a.machine c
  match fired? idle with
  | some cause => a.after idle (.error (.cancelled cause))
  | none =>
    let (ending, m) := idle.run x (fun m => (fired? m).isSome) c.steps
    match ending, fired? m with
    | .stopped, some cause =>
      a.after (m.loop x (fun _ => false) latency).2 (.error (.cancelled cause))
    | ending, _ => a.after m (result .fault (ending.outcome x m))

end Artifact

end ScriptEngine
