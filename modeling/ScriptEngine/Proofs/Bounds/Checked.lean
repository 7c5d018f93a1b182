import ScriptEngine.Machine.Run
/-!
The machine with a guard at every place where it reads or writes a numbered place of a list, cuts
one, or divides integers. Each frame says what it is executing. A guard that does not hold is a
fault, which is no error a program can cause; that no run has one is shown in the modules after this
one.
-/
namespace ScriptEngine.Checked

/-- A place that is not there, or a division that has no value. -/
inductive Fault where
  | index (i size : Nat)
  | slice (start size : Nat)
  | divisor
  deriving DecidableEq, Repr

/-- An access that may fault. -/
abbrev Access := Except Fault

/-- The item at a place. -/
def read {α : Type} (xs : Array α) (i : Nat) : Access α :=
  match xs[i]? with
  | some y => .ok y
  | none => .error (.index i xs.size)

/-- The item at a place replaced. -/
def write {α : Type} (xs : Array α) (i : Nat) (y : α) : Access (Array α) :=
  if i < xs.size then .ok (xs.setIfInBounds i y) else .error (.index i xs.size)

/-- The items from a place on. -/
def suffix {α : Type} (xs : Array α) (start : Nat) : Access (Array α) :=
  if start ≤ xs.size then .ok (xs.extract start xs.size) else .error (.slice start xs.size)

def quotient (l r : Int64) : Access Int64 :=
  if r = 0 then .error .divisor else .ok (l / r)

def remainder (l r : Int64) : Access Int64 :=
  if r = 0 then .error .divisor else .ok (l % r)

/-- What a frame is executing. -/
inductive Callee where
  | main
  | function (r : Routine)
  | closure (r : Routine) (free : List Value)
  deriving Inhabited

namespace Callee

def routine (x : Setting) : Callee → Routine
  | main => x.bytecode.main
  | function r => r
  | closure r _ => r

def free : Callee → List Value
  | closure _ free => free
  | _ => []

end Callee

structure Activation where
  callee : Callee
  ip : Nat
  base : Nat
  deriving Inhabited

structure Vm where
  globals : Globals
  stack : Array Value
  /-- The active frames, innermost last. -/
  frames : Array Activation
  budget : Option Nat
  lastIp : Nat
  made : Nat
  signals : Array Signal
  clock : Nat

inductive Stop where
  | halt (h : Halt)
  | fault (f : Fault)

abbrev Exec := EStateM Stop Vm

/-- The entries of a source map that come before a place, as halving finds them. -/
def entriesUpTo (map : Array (Nat × Pos)) (ip : Nat) : Access Nat :=
  if map.size = 0 then .ok 0
  else do
    let base := Routine.narrow map ip map.size map.size 0
    let entry ← read map base
    return if entry.1 ≤ ip then base + 1 else base

/-- The source position recorded for the instruction at `ip`. -/
def posAt (r : Routine) (ip : Nat) : Access (Option Pos) := do
  match ← entriesUpTo r.sourceMap ip with
  | 0 => return none
  | i + 1 => return some (← read r.sourceMap i).2

namespace Vm

/-- The machine about to run the main routine. -/
def start (x : Setting) (m : Machine) : Vm where
  globals := m.globals
  stack := Array.replicate x.bytecode.main.locals .undefined
  frames := #[⟨.main, 0, 0⟩]
  budget := m.budget
  lastIp := m.lastIp
  made := m.made
  signals := m.signals
  clock := m.clock

/-- The error for a trap of the instruction that started last. -/
def located (x : Setting) (m : Vm) (trap : Trap) : Access RuntimeError :=
  match m.frames.back? with
  | none => .ok ⟨trap, x.bytecode.file, none⟩
  | some frame => do
    return ⟨trap, x.bytecode.file, ← posAt (frame.callee.routine x) m.lastIp⟩

end Vm

namespace Exec

variable {α : Type}

def trap (t : Trap) : Exec α := throw (.halt (.trap t))

def invalid : Exec α := do trap (.invalidInstruction (← get).lastIp)

def access : Access α → Exec α
  | .ok y => pure y
  | .error f => throw (.fault f)

def lift : Except Trap α → Exec α
  | .ok y => pure y
  | .error t => trap t

/-! Operators -/

def onInts (op : ArithOp) (l r : Int64) : Exec Value :=
  match op with
  | .add => pure (.int (l + r))
  | .sub => pure (.int (l - r))
  | .mul => pure (.int (l * r))
  | .div => do
    if r = 0 then trap .divisionByZero else return .int (← access (quotient l r))
  | .rem => do
    if r = 0 then trap .divisionByZero else return .int (← access (remainder l r))

def arith (op : ArithOp) (left right : Value) : Exec Value :=
  match left, right with
  | .int l, .int r => onInts op l r
  | _, _ => lift (op.apply left right)

def element (container index : Value) : Exec Value :=
  match container with
  | .array items => do
    let i ← lift (Value.position "array" items.length index)
    access (read items.toArray i)
  | .string s => do
    let i ← lift (Value.position "string" s.length index)
    return .char (← access (read s.toList.toArray i))
  | other => lift (other.element index)

def replaceElement (container index value : Value) : Exec Value :=
  match container with
  | .array items => do
    let i ← lift (Value.position "array" items.length index)
    return .array (← access (write items.toArray i value)).toList
  | other => lift (other.replaceElement index value)

/-! Parts of instructions -/

/-- The next instruction, which is passed; none behind the end of the code. -/
def fetch (x : Setting) : Exec (Option Instruction) := do
  match (← get).frames.back? with
  | none => pure none
  | some frame =>
    let code := (frame.callee.routine x).code
    match code[frame.ip]? with
    | none => pure none
    | some byte =>
      match Opcode.ofByte? byte with
      | none => trap (.invalidInstruction frame.ip)
      | some op =>
        let operands := op.operandsAt (← access (suffix code (frame.ip + 1))) 0
        modify fun m => { m with
          frames := m.frames.pop.push { frame with ip := frame.ip + op.size }
          lastIp := frame.ip }
        return some ⟨op, operands.1, operands.2⟩

def push (v : Value) : Exec Unit := do
  if Machine.maxStack ≤ (← get).stack.size then trap .stackOverflow
  else modify fun m => { m with stack := m.stack.push v }

def peek : Exec Value := do
  match (← get).stack.back? with
  | some v => pure v
  | none => invalid

def pop : Exec Value := do
  let v ← peek
  modify fun m => { m with stack := m.stack.pop }
  pure v

/-- The values from a place of the stack on, taken off it. -/
def popFrom (place : Nat) : Exec (List Value) := do
  let values ← access (suffix (← get).stack place)
  modify fun m => { m with stack := m.stack.shrink place }
  pure values.toList

def popMany (n : Nat) : Exec (List Value) := do
  let size := (← get).stack.size
  if size < n then invalid else popFrom (size - n)

def allocate : Exec Unit := do
  match (← get).budget with
  | none => pure ()
  | some 0 => trap .allocationLimit
  | some (left + 1) => modify fun m => { m with budget := some left }

def pushNew (v : Value) : Exec Unit := do
  allocate
  push v

def jump (target : Nat) : Exec Unit :=
  modify fun m =>
    match m.frames.back? with
    | none => m
    | some frame => { m with frames := m.frames.pop.push { frame with ip := target } }

/-- The place of a local slot on the stack. -/
def localPlace (slot : Nat) : Exec Nat := do
  let m ← get
  let place := ((m.frames.back?.map (·.base)).getD 0) + slot
  if place < m.stack.size then pure place else invalid

def getLocal (slot : Nat) : Exec Value := do
  let place ← localPlace slot
  access (read (← get).stack place)

def setLocal (slot : Nat) (v : Value) : Exec Unit := do
  let place ← localPlace slot
  let stack ← access (write (← get).stack place v)
  modify fun m => { m with stack }

/-- Fills a global slot; there are as many slots as it takes. -/
def setGlobal (i : Nat) (v : Value) : Exec Unit := do
  let globals := (← get).globals
  let slots := if i < globals.size then globals.slots else (globals.resize (i + 1)).slots
  let slots ← access (write slots i (some v))
  modify fun m => { m with globals := ⟨slots⟩ }

/-- Ends the frame. Its slots and the function below them leave the stack, and the caller gets the
value; when the main routine ends the program is finished. -/
def leave (v : Value) : Exec Flow := do
  match (← get).frames.back? with
  | none => pure .finish
  | some frame => do
    modify fun m => { m with frames := m.frames.pop }
    match frame.callee with
    | .main => pure .finish
    | _ =>
      modify fun m => { m with stack := m.stack.shrink (frame.base - 1) }
      push v
      pure .proceed

/-- Calls a function that lies at `place` of the stack, its arguments above it. -/
def enter (place args : Nat) (r : Routine) (callee : Callee) : Exec Unit := do
  if r.params ≠ args then trap (.wrongArgCount r.params args)
  else if Machine.maxFrames ≤ (← get).frames.size then trap .stackOverflow
  else
    let extra := r.locals - args
    if Machine.maxStack < (← get).stack.size + extra then trap .stackOverflow
    else
      modify fun m => { m with
        stack := m.stack ++ Array.replicate extra .undefined
        frames := m.frames.push ⟨callee, 0, place + 1⟩ }

/-- Pushes the answer of a builtin or host function in the place of the function. -/
def answer (place : Nat) (v : Value) : Exec Unit := do
  modify fun m => { m with stack := m.stack.shrink place }
  pushNew v

def call (x : Setting) (args : Nat) : Exec Unit := do
  let size := (← get).stack.size
  if size < args + 1 then invalid
  else
    let place := size - (args + 1)
    match ← access (read (← get).stack place) with
    | .function _ r => enter place args r (.function r)
    | .closure _ r free => enter place args r (.closure r free)
    | .builtin b =>
      match b.call (← popFrom (place + 1)) with
      | .ok v => answer place v
      | .error e => trap (.call e)
    | .native id name =>
      match x.host.call id name (← popFrom (place + 1)) with
      | .value v => answer place v
      | .refused e => trap (.call e)
      | .panic p => throw (.halt (.panic p))
      | .signal s => do
        modify fun m => { m with signals := m.signals.push s }
        answer place .undefined
    | other => trap (.notCallable other.typeName)

/-- Makes a closure over a function of the pool. -/
def close (x : Setting) (index captured : Nat) : Exec Unit := do
  match x.bytecode.pool[index]? with
  | some (.function _ r) =>
    let free ← popMany captured
    allocate
    let serial ← modifyGet fun m => (m.made, { m with made := m.made + 1 })
    push (.closure ⟨x.maker, serial⟩ r free)
  | _ => invalid

/-- Carries out an instruction that does not end a frame. -/
def perform (x : Setting) : Opcode → (a b : Nat) → Exec Unit
  | .constant, a, _ => do
    match x.bytecode.pool[a]? with
    | some v => push v
    | none => invalid
  | .undefined, _, _ => push .undefined
  | .pushTrue, _, _ => push (.bool true)
  | .pushFalse, _, _ => push (.bool false)
  | .pop, _, _ => do
    let _ ← pop
  | .arith op, _, _ => do
    let right ← pop
    let left ← pop
    pushNew (← arith op left right)
  | .order c, _, _ => do
    let right ← pop
    let left ← pop
    pushNew (← lift (c.apply left right))
  | .equal, _, _ => do
    let right ← pop
    let left ← pop
    push (.bool (left.same right))
  | .notEqual, _, _ => do
    let right ← pop
    let left ← pop
    push (.bool (!left.same right))
  | .negate, _, _ => do
    let v ← pop
    pushNew (← lift v.negate)
  | .not, _, _ => do
    let v ← pop
    push (.bool (!v.isTruthy))
  | .jump, a, _ => jump a
  | .jumpFalsy, a, _ => do
    let v ← pop
    if v.isTruthy then pure () else jump a
  | .andJump, a, _ => do
    let v ← peek
    if v.isTruthy then
      let _ ← pop
    else jump a
  | .orJump, a, _ => do
    let v ← peek
    if v.isTruthy then jump a
    else
      let _ ← pop
  | .getGlobal, a, _ => do push (((← get).globals.get? a).getD .undefined)
  | .setGlobal, a, _ => do
    let v ← pop
    setGlobal a v
  | .getLocal, a, _ => do push (← getLocal a)
  | .setLocal, a, _ => do
    let v ← pop
    setLocal a v
  | .getBuiltin, a, _ => do
    match Builtin.all[a]? with
    | some f => push (.builtin f)
    | none => invalid
  | .getFree, a, _ => do
    match (← get).frames.back? with
    | some ⟨.closure _ free, _, _⟩ =>
      match free[a]? with
      | some v => push v
      | none => invalid
    | _ => invalid
  | .array, a, _ => do
    let items ← popMany a
    pushNew (.array items)
  | .map, a, _ => do
    let items ← popMany (2 * a)
    pushNew (← lift (Value.mapOf items []))
  | .index, _, _ => do
    let index ← pop
    let container ← pop
    push (← element container index)
  | .setIndex, _, _ => do
    let value ← pop
    let index ← pop
    let container ← pop
    pushNew (← replaceElement container index value)
  | .call, a, _ => call x a
  | .closure, a, b => close x a b
  | .ret, _, _ | .suspend, _, _ => pure ()

/-- Carries out an instruction. -/
def execute (x : Setting) (i : Instruction) : Exec Flow := do
  match i.op with
  | .ret =>
    let v ← if i.a = 1 then pop else pure .undefined
    leave v
  | .suspend => pure .finish
  | op =>
    perform x op i.a i.b
    pure .proceed

/-- Fetches and carries out the next instruction; the end of the code returns undefined. -/
def step (x : Setting) : Exec Flow := do
  match ← fetch x with
  | some i => execute x i
  | none => leave .undefined

end Exec

/-- What becomes of a machine in one step. -/
inductive Advance where
  | next (m : Vm)
  | finished (m : Vm)
  | halted (h : Halt) (m : Vm)
  | faulted (f : Fault) (m : Vm)

def Vm.advance (x : Setting) (m : Vm) : Advance :=
  match (Exec.step x).run { m with clock := m.clock + 1 } with
  | .ok .proceed m => .next m
  | .ok .finish m => .finished m
  | .error (.halt h) m => .halted h m
  | .error (.fault f) m => .faulted f m

/-- The states of a run. -/
inductive Vm.Reaches (x : Setting) (m : Vm) : Vm → Prop where
  | refl : Reaches x m m
  | step {m' m'' : Vm} (h : Reaches x m m') (hstep : m'.advance x = .next m'') :
    Reaches x m m''

end ScriptEngine.Checked
