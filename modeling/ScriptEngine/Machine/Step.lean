import ScriptEngine.Bytecode.Instruction
import ScriptEngine.Machine.Operation
import ScriptEngine.Machine.State
import ScriptEngine.Value.Equality
/-! What each instruction does. -/
namespace ScriptEngine

/-- Whether the program goes on after an instruction. -/
inductive Flow where
  | proceed | finish
  deriving DecidableEq, Repr

namespace Exec

/-- The next instruction, which is passed; none behind the end of the code. -/
def fetch : Exec (Option Instruction) := do
  let frame := (← get).frame
  if frame.ip < frame.routine.code.size then
    match Instruction.at? frame.routine.code frame.ip with
    | some i =>
      modify fun m => { m with
        frame := { m.frame with ip := frame.ip + i.size }, lastIp := frame.ip }
      pure (some i)
    | none => trap (.invalidInstruction frame.ip)
  else pure none

/-- Ends the frame. Its slots and the function below them leave the stack, and the caller gets the
value; if there is no caller the program is finished. -/
def leave (v : Value) : Exec Flow := do
  match (← get).callers.back? with
  | none => pure .finish
  | some caller => do
    modify fun m => { m with
      stack := m.stack.shrink (m.frame.base - 1), frame := caller, callers := m.callers.pop }
    push v
    pure .proceed

/-- Calls a function that lies at `place` of the stack, its arguments above it. -/
def enter (place args : Nat) (r : Routine) (free : List Value) : Exec Unit := do
  if r.params ≠ args then trap (.wrongArgCount r.params args)
  else if Machine.maxFrames ≤ (← get).callers.size + 1 then trap .stackOverflow
  else
    let extra := r.locals - args
    if Machine.maxStack < (← get).stack.size + extra then trap .stackOverflow
    else
      modify fun m => { m with
        stack := m.stack ++ Array.replicate extra .undefined
        frame := ⟨r, free, 0, place + 1⟩
        callers := m.callers.push m.frame }

/-- Pushes the answer of a builtin or host function in the place of the function. -/
def answer (place : Nat) (v : Value) : Exec Unit := do
  modify fun m => { m with stack := m.stack.shrink place }
  pushNew v

def call (x : Setting) (args : Nat) : Exec Unit := do
  let size := (← get).stack.size
  if size < args + 1 then invalid
  else
    let place := size - (args + 1)
    match (← get).stack.getD place .undefined with
    | .function _ r => enter place args r []
    | .closure _ r free => enter place args r free
    | .builtin b =>
      match b.call (← popFrom (place + 1)) with
      | .ok v => answer place v
      | .error e => trap (.call e)
    | .native id name =>
      match x.host.call id name (← popFrom (place + 1)) with
      | .value v => answer place v
      | .refused e => trap (.call e)
      | .panic p => throw (.panic p)
      | .signal s => do
        modify fun m => { m with signals := m.signals.push s }
        answer place .undefined
    | other => trap (.notCallable other.typeName)

/-- Makes a closure over a function of the pool. -/
def close (x : Setting) (index captured : Nat) : Exec Unit := do
  match x.bytecode.pool[index]? with
  | some (.function _ r) =>
    let free ← popMany captured
    allocate
    let serial ← modifyGet fun m => (m.made, { m with made := m.made + 1 })
    push (.closure ⟨x.maker, serial⟩ r free)
  | _ => invalid

/-- Carries out an instruction that does not end a frame. -/
def perform (x : Setting) : Opcode → (a b : Nat) → Exec Unit
  | .constant, a, _ => do
    match x.bytecode.pool[a]? with
    | some v => push v
    | none => invalid
  | .undefined, _, _ => push .undefined
  | .pushTrue, _, _ => push (.bool true)
  | .pushFalse, _, _ => push (.bool false)
  | .pop, _, _ => do
    let _ ← pop
  | .arith op, _, _ => do
    let right ← pop
    let left ← pop
    pushNew (← lift (op.apply left right))
  | .order c, _, _ => do
    let right ← pop
    let left ← pop
    pushNew (← lift (c.apply left right))
  | .equal, _, _ => do
    let right ← pop
    let left ← pop
    push (.bool (left.same right))
  | .notEqual, _, _ => do
    let right ← pop
    let left ← pop
    push (.bool (!left.same right))
  | .negate, _, _ => do
    let v ← pop
    pushNew (← lift v.negate)
  | .not, _, _ => do
    let v ← pop
    push (.bool (!v.isTruthy))
  | .jump, a, _ => jump a
  | .jumpFalsy, a, _ => do
    let v ← pop
    if v.isTruthy then pure () else jump a
  | .andJump, a, _ => do
    let v ← peek
    if v.isTruthy then
      let _ ← pop
    else jump a
  | .orJump, a, _ => do
    let v ← peek
    if v.isTruthy then jump a
    else
      let _ ← pop
  | .getGlobal, a, _ => do push (((← get).globals.get? a).getD .undefined)
  | .setGlobal, a, _ => do
    let v ← pop
    modify fun m => { m with globals := m.globals.set a v }
  | .getLocal, a, _ => do
    let place ← localPlace a
    push ((← get).stack.getD place .undefined)
  | .setLocal, a, _ => do
    let v ← pop
    let place ← localPlace a
    modify fun m => { m with stack := m.stack.setIfInBounds place v }
  | .getBuiltin, a, _ => do
    match Builtin.all[a]? with
    | some f => push (.builtin f)
    | none => invalid
  | .getFree, a, _ => do
    match (← get).frame.free[a]? with
    | some v => push v
    | none => invalid
  | .array, a, _ => do
    let items ← popMany a
    pushNew (.array items)
  | .map, a, _ => do
    let items ← popMany (2 * a)
    pushNew (← lift (Value.mapOf items []))
  | .index, _, _ => do
    let index ← pop
    let container ← pop
    push (← lift (container.element index))
  | .setIndex, _, _ => do
    let value ← pop
    let index ← pop
    let container ← pop
    pushNew (← lift (container.replaceElement index value))
  | .call, a, _ => call x a
  | .closure, a, b => close x a b
  | .ret, _, _ | .suspend, _, _ => pure ()

/-- Carries out an instruction. -/
def execute (x : Setting) (i : Instruction) : Exec Flow := do
  match i.op with
  | .ret =>
    let v ← if i.a = 1 then pop else pure .undefined
    leave v
  | .suspend => pure .finish
  | op =>
    perform x op i.a i.b
    pure .proceed

/-- Fetches and carries out the next instruction; the end of the code returns undefined. -/
def step (x : Setting) : Exec Flow := do
  match ← fetch with
  | some i => execute x i
  | none => leave .undefined

end Exec

/-- What becomes of a machine in one step. -/
inductive Advance where
  | next (m : Machine)
  | finished (m : Machine)
  | halted (h : Halt) (m : Machine)

def Machine.advance (x : Setting) (m : Machine) : Advance :=
  match (Exec.step x).run { m with clock := m.clock + 1 } with
  | .ok .proceed m => .next m
  | .ok .finish m => .finished m
  | .error h m => .halted h m

end ScriptEngine
