import ScriptEngine.Machine.Run
/-!
What each instruction does to a machine on whose stack its operands lie. All later proofs about runs
rest on these equations.
-/
namespace ScriptEngine

theorem mem_of_mem_pop {α : Type} {xs : Array α} {y : α} (h : y ∈ xs.pop) : y ∈ xs := by
  rw [← Array.mem_toList_iff, Array.toList_pop] at h
  exact Array.mem_toList_iff.mp ((List.dropLast_sublist xs.toList).mem h)

/-- What an instruction comes to. -/
abbrev Done := EStateM.Result Halt Machine Flow

namespace Machine

/-- The machine after the fetch of an instruction. -/
def fetched (m : Machine) (i : Instruction) : Machine :=
  { m with
    clock := m.clock + 1, lastIp := m.frame.ip, frame := { m.frame with ip := m.frame.ip + i.size } }

/-- A value is pushed if there is room. -/
def pushed (m : Machine) (v : Value) : Done :=
  if maxStack ≤ m.stack.size then .error (.trap .stackOverflow) m
  else .ok .proceed { m with stack := m.stack.push v }

/-- A value is pushed if it can be paid for. -/
def paid (m : Machine) (v : Value) : Done :=
  match m.budget with
  | none => m.pushed v
  | some 0 => .error (.trap .allocationLimit) m
  | some (left + 1) => { m with budget := some left }.pushed v

/-- The value of an operator is pushed and paid for. -/
def yielded (m : Machine) : Except Trap Value → Done
  | .ok v => m.paid v
  | .error t => .error (.trap t) m

/-- An element is pushed. -/
def looked (m : Machine) : Except Trap Value → Done
  | .ok v => m.pushed v
  | .error t => .error (.trap t) m

/-- The next instruction starts at an offset. -/
def jumped (m : Machine) (target : Nat) : Machine :=
  { m with frame := { m.frame with ip := target } }

/-- The frame ends and leaves a value to its caller. -/
def left (m : Machine) (v : Value) : Done :=
  match m.callers.back? with
  | none => .ok .finish m
  | some caller => { m with
      stack := m.stack.shrink (m.frame.base - 1), frame := caller
      callers := m.callers.pop }.pushed v

/-- A function is entered, if it takes so many arguments and its frame fits. -/
def entered (m : Machine) (place args : Nat) (r : Routine) (free : List Value) : Done :=
  if r.params ≠ args then .error (.trap (.wrongArgCount r.params args)) m
  else if maxFrames ≤ m.callers.size + 1 then .error (.trap .stackOverflow) m
  else if maxStack < m.stack.size + (r.locals - args) then .error (.trap .stackOverflow) m
  else .ok .proceed { m with
    stack := m.stack ++ Array.replicate (r.locals - args) .undefined
    frame := ⟨r, free, 0, place + 1⟩
    callers := m.callers.push m.frame }

/-- A callee that lies below its arguments is called. -/
def called (m : Machine) (host : Host) (stack : Array Value) (callee : Value) (args : List Value) :
    Done :=
  match callee with
  | .function _ r => m.entered stack.size args.length r []
  | .closure _ r free => m.entered stack.size args.length r free
  | .builtin b =>
    match b.call args with
    | .ok v => { m with stack }.paid v
    | .error e => .error (.trap (.call e)) { m with stack := stack.push callee }
  | .native id name =>
    match host.call id name args with
    | .value v => { m with stack }.paid v
    | .refused e => .error (.trap (.call e)) { m with stack := stack.push callee }
    | .panic p => .error (.panic p) { m with stack := stack.push callee }
    | .signal s => { m with stack, signals := m.signals.push s }.paid .undefined
  | other => .error (.trap (.notCallable other.typeName)) m

/-- A closure over captured values is made and paid for. -/
def closed (m : Machine) (maker : Nat) (r : Routine) (free : List Value) : Done :=
  let made (m : Machine) : Done :=
    { m with made := m.made + 1 }.pushed (.closure ⟨maker, m.made⟩ r free)
  match m.budget with
  | none => made m
  | some 0 => .error (.trap .allocationLimit) m
  | some (left + 1) => made { m with budget := some left }

end Machine

namespace Exec

open Machine

variable {α β : Type} {c : Exec α} {f : α → Exec β} {m m' : Machine} {x : Setting} {a b : Nat}
  {s : Array Value} {v l r : Value}

@[simp] theorem run_pure (y : α) : (pure y : Exec α).run m = .ok y m := rfl

@[simp] theorem run_bind : (c >>= f).run m =
    match c.run m with
    | .ok y m' => (f y).run m'
    | .error h m' => .error h m' := by
  simp only [EStateM.run, bind, EStateM.bind]
  cases c m <;> rfl

@[simp] theorem run_get : (get : Exec Machine).run m = .ok m m := rfl

@[simp] theorem run_modify (g : Machine → Machine) :
    (modify g : Exec PUnit).run m = .ok ⟨⟩ (g m) := rfl

@[simp] theorem run_modifyGet (g : Machine → α × Machine) :
    (modifyGet g : Exec α).run m = .ok (g m).1 (g m).2 := rfl

@[simp] theorem run_throw (h : Halt) : (throw h : Exec α).run m = .error h m := rfl

@[simp] theorem run_trap (t : Trap) : (trap t : Exec α).run m = .error (.trap t) m := rfl

@[simp] theorem run_lift (r : Except Trap α) : (lift r).run m =
    match r with
    | .ok y => .ok y m
    | .error t => .error (.trap t) m := by
  cases r <;> rfl

theorem run_push : (push v).run m =
    if maxStack ≤ m.stack.size then .error (.trap .stackOverflow) m
    else .ok ⟨⟩ { m with stack := m.stack.push v } := by
  unfold push
  by_cases h : maxStack ≤ m.stack.size <;> simp [h]

/-- A value is pushed and the program goes on. -/
theorem run_push_proceed : (push v >>= fun _ => pure .proceed).run m = m.pushed v := by
  unfold pushed
  simp only [run_bind, run_push]
  by_cases h : maxStack ≤ m.stack.size
  · simp only [h, if_true]
  · simp only [h, if_false, run_pure]

theorem run_allocate : allocate.run m =
    match m.budget with
    | none => .ok ⟨⟩ m
    | some 0 => .error (.trap .allocationLimit) m
    | some (left + 1) => .ok ⟨⟩ { m with budget := some left } := by
  unfold allocate
  simp only [run_bind, run_get]
  cases m.budget with
  | none => rfl
  | some n => cases n <;> rfl

theorem run_pushNew_proceed : (pushNew v >>= fun _ => pure .proceed).run m = m.paid v := by
  unfold pushNew paid
  rw [bind_assoc, run_bind, run_allocate]
  cases m.budget with
  | none => exact run_push_proceed
  | some n =>
    cases n with
    | zero => rfl
    | succ n => exact run_push_proceed

theorem run_yield {e : Except Trap Value} :
    (lift e >>= fun v => pushNew v >>= fun _ => pure .proceed).run m = m.yielded e := by
  cases e with
  | error t => rfl
  | ok v => exact run_pushNew_proceed

theorem run_pop (h : m.stack = s.push v) : pop.run m = .ok v { m with stack := s } := by
  simp only [pop, peek, run_bind, run_get, h, Array.back?_push, run_pure, run_modify,
    Array.pop_push]

theorem run_peek (h : m.stack = s.push v) : peek.run m = .ok v m := by
  simp only [peek, run_bind, run_get, h, Array.back?_push, run_pure]

theorem run_popFrom {vs : Array Value} (h : m.stack = s ++ vs) :
    (popFrom s.size).run m = .ok vs.toList { m with stack := s } := by
  simp only [popFrom, run_modifyGet, h]
  simp

theorem run_popMany {vs : Array Value} (h : m.stack = s ++ vs) :
    (popMany vs.size).run m = .ok vs.toList { m with stack := s } := by
  have hsize : ¬ m.stack.size < vs.size := by simp [h]
  have hplace : m.stack.size - vs.size = s.size := by simp [h]
  simp only [popMany, run_bind, run_get, hsize, if_false, hplace, run_popFrom h]

theorem execute_undefined : (execute x ⟨.undefined, a, b⟩).run m = m.pushed .undefined :=
  run_push_proceed

theorem execute_pushTrue : (execute x ⟨.pushTrue, a, b⟩).run m = m.pushed (.bool true) :=
  run_push_proceed

theorem execute_pushFalse : (execute x ⟨.pushFalse, a, b⟩).run m = m.pushed (.bool false) :=
  run_push_proceed

theorem execute_constant (h : x.bytecode.pool[a]? = some v) :
    (execute x ⟨.constant, a, b⟩).run m = m.pushed v := by
  simp only [execute, perform, h]
  exact run_push_proceed

theorem execute_pop (h : m.stack = s.push v) :
    (execute x ⟨.pop, a, b⟩).run m = .ok .proceed { m with stack := s } := by
  simp only [execute, perform, bind_assoc, run_bind, run_pop h, pure_bind, run_pure]

theorem run_operands {k : Value → Value → Exec Flow} (h : m.stack = (s.push l).push r) :
    (pop >>= fun r => pop >>= fun l => k l r).run m = (k l r).run { m with stack := s } := by
  rw [run_bind, run_pop h]
  dsimp only
  rw [run_bind, run_pop rfl]

theorem execute_arith {op : ArithOp} (h : m.stack = (s.push l).push r) :
    (execute x ⟨.arith op, a, b⟩).run m = { m with stack := s }.yielded (op.apply l r) := by
  simp only [execute, perform, bind_assoc]
  exact (run_operands h).trans run_yield

theorem execute_order {c : Comparison} (h : m.stack = (s.push l).push r) :
    (execute x ⟨.order c, a, b⟩).run m = { m with stack := s }.yielded (c.apply l r) := by
  simp only [execute, perform, bind_assoc]
  exact (run_operands h).trans run_yield

theorem execute_equal (h : m.stack = (s.push l).push r) :
    (execute x ⟨.equal, a, b⟩).run m = { m with stack := s }.pushed (.bool (l.same r)) := by
  simp only [execute, perform, bind_assoc]
  exact (run_operands h).trans run_push_proceed

theorem execute_notEqual (h : m.stack = (s.push l).push r) :
    (execute x ⟨.notEqual, a, b⟩).run m = { m with stack := s }.pushed (.bool (!l.same r)) := by
  simp only [execute, perform, bind_assoc]
  exact (run_operands h).trans run_push_proceed

theorem execute_negate (h : m.stack = s.push v) :
    (execute x ⟨.negate, a, b⟩).run m = { m with stack := s }.yielded v.negate := by
  simp only [execute, perform, bind_assoc]
  rw [run_bind, run_pop h]
  exact run_yield

theorem execute_not (h : m.stack = s.push v) :
    (execute x ⟨.not, a, b⟩).run m = { m with stack := s }.pushed (.bool (!v.isTruthy)) := by
  simp only [execute, perform, bind_assoc]
  rw [run_bind, run_pop h]
  exact run_push_proceed

theorem execute_jump : (execute x ⟨.jump, a, b⟩).run m = .ok .proceed (m.jumped a) := rfl

theorem execute_jumpFalsy (h : m.stack = s.push v) : (execute x ⟨.jumpFalsy, a, b⟩).run m =
    .ok .proceed (if v.isTruthy then { m with stack := s }
      else { m with stack := s }.jumped a) := by
  simp only [execute, perform, bind_assoc]
  rw [run_bind, run_pop h]
  cases hv : v.isTruthy <;> simp only [hv, if_true, Bool.false_eq_true, if_false] <;> rfl

theorem execute_andJump (h : m.stack = s.push v) : (execute x ⟨.andJump, a, b⟩).run m =
    .ok .proceed (if v.isTruthy then { m with stack := s } else m.jumped a) := by
  simp only [execute, perform, bind_assoc]
  rw [run_bind, run_peek h]
  cases hv : v.isTruthy <;> simp only [hv, if_true, Bool.false_eq_true, if_false]
  · rfl
  · simp only [bind_assoc]
    rw [run_bind, run_pop h]
    rfl

theorem execute_orJump (h : m.stack = s.push v) : (execute x ⟨.orJump, a, b⟩).run m =
    .ok .proceed (if v.isTruthy then m.jumped a else { m with stack := s }) := by
  simp only [execute, perform, bind_assoc]
  rw [run_bind, run_peek h]
  cases hv : v.isTruthy <;> simp only [hv, if_true, Bool.false_eq_true, if_false]
  · simp only [bind_assoc]
    rw [run_bind, run_pop h]
    rfl
  · rfl

theorem execute_getGlobal : (execute x ⟨.getGlobal, a, b⟩).run m =
    m.pushed ((m.globals.get? a).getD .undefined) := by
  simp only [execute, perform, bind_assoc]
  exact run_push_proceed

theorem execute_setGlobal (h : m.stack = s.push v) : (execute x ⟨.setGlobal, a, b⟩).run m =
    .ok .proceed { m with stack := s, globals := m.globals.set a v } := by
  simp only [execute, perform, bind_assoc]
  rw [run_bind, run_pop h]
  rfl

theorem run_localPlace (h : m.frame.base + a < m.stack.size) :
    (localPlace a).run m = .ok (m.frame.base + a) m := by
  simp only [localPlace, run_bind, run_get, h, if_true, run_pure]

theorem execute_getLocal (h : m.frame.base + a < m.stack.size) :
    (execute x ⟨.getLocal, a, b⟩).run m =
      m.pushed (m.stack.getD (m.frame.base + a) .undefined) := by
  simp only [execute, perform, bind_assoc]
  rw [run_bind, run_localPlace h]
  exact run_push_proceed

theorem execute_setLocal (h : m.stack = s.push v) (hlt : m.frame.base + a < s.size) :
    (execute x ⟨.setLocal, a, b⟩).run m =
      .ok .proceed { m with stack := s.setIfInBounds (m.frame.base + a) v } := by
  simp only [execute, perform, bind_assoc]
  rw [run_bind, run_pop h]
  dsimp only
  rw [run_bind, run_localPlace hlt]
  rfl

theorem execute_getBuiltin {f : Builtin} (h : Builtin.all[a]? = some f) :
    (execute x ⟨.getBuiltin, a, b⟩).run m = m.pushed (.builtin f) := by
  simp only [execute, perform, h]
  exact run_push_proceed

theorem execute_getFree (h : m.frame.free[a]? = some v) :
    (execute x ⟨.getFree, a, b⟩).run m = m.pushed v := by
  simp only [execute, perform, bind_assoc]
  rw [run_bind, run_get]
  simp only [h]
  exact run_push_proceed

theorem execute_array {vs : Array Value} (h : m.stack = s ++ vs) (ha : vs.size = a) :
    (execute x ⟨.array, a, b⟩).run m = { m with stack := s }.paid (.array vs.toList) := by
  subst ha
  simp only [execute, perform, bind_assoc]
  rw [run_bind, run_popMany h]
  exact run_pushNew_proceed

theorem execute_map {vs : Array Value} (h : m.stack = s ++ vs) (ha : vs.size = 2 * a) :
    (execute x ⟨.map, a, b⟩).run m =
      { m with stack := s }.yielded (Value.mapOf vs.toList []) := by
  simp only [execute, perform, bind_assoc, ← ha]
  rw [run_bind, run_popMany h]
  exact run_yield

theorem execute_index (h : m.stack = (s.push l).push r) :
    (execute x ⟨.index, a, b⟩).run m = { m with stack := s }.looked (l.element r) := by
  simp only [execute, perform, bind_assoc]
  refine (run_operands h).trans ?_
  cases l.element r with
  | error t => rfl
  | ok v => exact run_push_proceed

theorem execute_setIndex (h : m.stack = ((s.push l).push r).push v) :
    (execute x ⟨.setIndex, a, b⟩).run m =
      { m with stack := s }.yielded (l.replaceElement r v) := by
  simp only [execute, perform, bind_assoc]
  rw [run_bind, run_pop h]
  exact (run_operands rfl).trans run_yield

theorem run_answer : (answer s.size v >>= fun _ => pure .proceed).run m =
    { m with stack := m.stack.shrink s.size }.paid v := by
  simp only [answer, bind_assoc]
  rw [run_bind, run_modify]
  exact run_pushNew_proceed

theorem run_enter {place args : Nat} {free : List Value} {r : Routine} :
    (enter place args r free >>= fun _ => pure .proceed).run m = m.entered place args r free := by
  unfold entered enter
  rw [run_bind]
  by_cases hp : r.params = args
  · by_cases hf : maxFrames ≤ m.callers.size + 1
    · simp [hp, hf]
    · by_cases hs : maxStack < m.stack.size + (r.locals - args) <;> simp [hp, hf, hs]
  · simp [hp]

theorem execute_call {callee : Value} {args : Array Value}
    (h : m.stack = s.push callee ++ args) (ha : args.size = a) :
    (execute x ⟨.call, a, b⟩).run m = m.called x.host s callee args.toList := by
  have hsize : ¬ m.stack.size < a + 1 := by
    simp [h]
    omega
  have hplace : m.stack.size - (a + 1) = s.size := by
    simp [h]
    omega
  have hcallee : m.stack.getD s.size .undefined = callee := by
    simp [h, Array.getD]
    omega
  have hlen : args.toList.length = a := by simpa using ha
  have hargs : (popFrom (s.size + 1)).run m = .ok args.toList { m with stack := s.push callee } := by
    have := run_popFrom h
    rwa [Array.size_push] at this
  have hshrink : (s.push callee).shrink s.size = s := by
    simp
  simp only [execute, perform, call, bind_assoc]
  rw [run_bind, run_get]
  simp only [hsize, if_false, hplace, bind_assoc]
  rw [run_bind, run_get]
  simp only [hcallee, called]
  cases callee with
  | function id r =>
    rw [hlen]
    exact run_enter
  | closure id r free =>
    rw [hlen]
    exact run_enter
  | builtin f =>
    simp only [bind_assoc]
    rw [run_bind, hargs]
    dsimp only
    cases f.call args.toList with
    | error e => rfl
    | ok v =>
      refine run_answer.trans ?_
      simp only [hshrink]
  | native id name =>
    simp only [bind_assoc]
    rw [run_bind, hargs]
    dsimp only
    cases x.host.call id name args.toList with
    | value v =>
      refine run_answer.trans ?_
      simp only [hshrink]
    | refused e => rfl
    | panic p => rfl
    | signal σ =>
      simp only [bind_assoc]
      rw [run_bind, run_modify]
      refine run_answer.trans ?_
      simp only [hshrink]
  | _ => rfl

theorem execute_closure {id : FunctionId} {routine : Routine} {vs : Array Value}
    (hpool : x.bytecode.pool[a]? = some (.function id routine)) (h : m.stack = s ++ vs)
    (hb : vs.size = b) :
    (execute x ⟨.closure, a, b⟩).run m = { m with stack := s }.closed x.maker routine vs.toList := by
  subst hb
  simp only [execute, perform, close, hpool, bind_assoc]
  rw [run_bind, run_popMany h]
  dsimp only
  rw [run_bind, run_allocate]
  unfold closed
  cases m.budget with
  | none => exact run_push_proceed
  | some n =>
    cases n with
    | zero => rfl
    | succ n => exact run_push_proceed

theorem run_leave : (leave v).run m = m.left v := by
  unfold leave left
  rw [run_bind, run_get]
  dsimp only
  cases m.callers.back? with
  | none => rfl
  | some caller => exact run_push_proceed

theorem execute_ret (h : m.stack = s.push v) :
    (execute x ⟨.ret, 1, b⟩).run m = { m with stack := s }.left v := by
  simp only [execute, if_true]
  rw [run_bind, run_pop h]
  exact run_leave

theorem execute_retUndefined (h : a ≠ 1) :
    (execute x ⟨.ret, a, b⟩).run m = m.left .undefined := by
  simp only [execute, h, if_false, pure_bind]
  exact run_leave

theorem execute_suspend : (execute x ⟨.suspend, a, b⟩).run m = .ok .finish m := rfl

end Exec

/-- What becomes of the machine. -/
def Advance.of : Done → Advance
  | .ok .proceed m => .next m
  | .ok .finish m => .finished m
  | .error h m => .halted h m

namespace Machine

open Exec

variable {m : Machine} {x : Setting} {i : Instruction}

theorem advance_eq : m.advance x = Advance.of ((step x).run { m with clock := m.clock + 1 }) := by
  unfold advance Advance.of
  rfl

theorem ip_lt_of_at? (h : Instruction.at? m.frame.routine.code m.frame.ip = some i) :
    m.frame.ip < m.frame.routine.code.size := by
  unfold Instruction.at? at h
  refine Nat.lt_of_not_le fun hge => ?_
  simp [Array.getElem?_eq_none hge] at h

/-- A step that carries out an instruction. -/
theorem advance_of_at? (h : Instruction.at? m.frame.routine.code m.frame.ip = some i) :
    m.advance x = Advance.of ((execute x i).run (m.fetched i)) := by
  have hlt := ip_lt_of_at? h
  rw [advance_eq]
  congr 1
  simp only [step, fetch, bind_assoc]
  rw [run_bind, run_get]
  simp only [hlt, if_true, h, bind_assoc]
  rw [run_bind, run_modify]
  rfl

/-- A step behind the end of the code. -/
theorem advance_of_end (h : m.frame.routine.code.size ≤ m.frame.ip) :
    m.advance x = Advance.of ({ m with clock := m.clock + 1 }.left .undefined) := by
  rw [advance_eq, ← run_leave]
  congr 1
  simp only [step, fetch, bind_assoc]
  rw [run_bind, run_get]
  simp only [Nat.not_lt.mpr h, if_false]
  rfl

end Machine

end ScriptEngine
