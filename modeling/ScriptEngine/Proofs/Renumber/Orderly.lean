import ScriptEngine.Proofs.Layout.Outline
import ScriptEngine.Proofs.Machine.Steady
import ScriptEngine.Proofs.Renumber.Machine
/-!
Functions whose code is a row of instructions with all jumps to instructions. A machine that holds
no others never leaves the rows, so that each instruction it carries out is one that reading the
code from the front meets. The constants that such code may load are told by a predicate on their
indices.
-/
namespace ScriptEngine

open Encoding

/-- The code consists of these instructions. Jumps lead to one of them or to the end, and constants
are loaded from good places only. -/
structure Routine.Row (good : Nat → Prop) (r : Routine) (is : List Instruction) : Prop where
  code : r.code.toList = encode is
  jumps : ∀ i ∈ is, i.op.isJump = true → Boundary Instruction.size is i.narrow.a
  constants : ∀ i ∈ is, i.op.loadsConstant = true → good i.narrow.a

def Routine.Orderly (good : Nat → Prop) (r : Routine) : Prop := ∃ is, r.Row good is

/-- What makes a function orderly is its code. -/
def Value.Orderly (good : Nat → Prop) : Value → Prop
  | function _ r | closure _ r _ => r.Orderly good
  | _ => True

structure Frame.Orderly (good : Nat → Prop) (f : Frame) : Prop where
  row : ∃ is, f.routine.Row good is ∧ Boundary Instruction.size is f.ip
  free : ∀ v ∈ f.free, v.Only (Value.Orderly good)

def Globals.Orderly (good : Nat → Prop) (g : Globals) : Prop :=
  ∀ i v, g.get? i = some v → v.Only (Value.Orderly good)

/-- All functions on the machine are orderly, and its frames are at instructions. -/
structure Machine.Orderly (good : Nat → Prop) (m : Machine) : Prop where
  globals : m.globals.Orderly good
  stack : ∀ v ∈ m.stack, v.Only (Value.Orderly good)
  frame : m.frame.Orderly good
  callers : ∀ f ∈ m.callers, f.Orderly good

/-- A host whose functions yield orderly functions if they are given no others. -/
def Host.Orderly (good : Nat → Prop) (host : Host) : Prop :=
  ∀ id name args v, host.call id name args = .value v → (∀ u ∈ args, u.Only (Value.Orderly good)) →
    v.Only (Value.Orderly good)

/-- What the pool and the host of a run yield is orderly. -/
structure Setting.Supplies (good : Nat → Prop) (x : Setting) : Prop where
  pool : ∀ k v, good k → x.bytecode.pool[k]? = some v → v.Only (Value.Orderly good)
  host : x.host.Orderly good

/-- So is the main routine. -/
structure Setting.Orderly (good : Nat → Prop) (x : Setting) : Prop extends x.Supplies good where
  main : x.bytecode.main.Orderly good

variable {good : Nat → Prop}

theorem Globals.Orderly.set {g : Globals} (h : g.Orderly good) (i : Nat) {v : Value}
    (hv : v.Only (Value.Orderly good)) : (g.set i v).Orderly good := by
  intro j w hw
  rw [get?_set] at hw
  split at hw
  · cases hw
    exact hv
  · exact h j w hw

namespace Machine.Orderly

variable {m : Machine}

/-- Other orderly values take the place of the stack. -/
theorem restack (h : m.Orderly good) {s : Array Value} (hs : ∀ v ∈ s, v.Only (Value.Orderly good)) :
    { m with stack := s }.Orderly good :=
  ⟨h.globals, hs, h.frame, h.callers⟩

theorem push (h : m.Orderly good) {v : Value} (hv : v.Only (Value.Orderly good)) :
    { m with stack := m.stack.push v }.Orderly good :=
  h.restack fun w hw => by
    rcases Array.mem_push.mp hw with hw | rfl
    · exact h.stack w hw
    · exact hv

theorem extract (h : m.Orderly good) (i j : Nat) : ∀ v ∈ m.stack.extract i j, v.Only (Value.Orderly good) := by
  intro v hv
  obtain ⟨k, _, rfl⟩ := Array.mem_extract_iff_getElem.mp hv
  exact h.stack _ (Array.getElem_mem _)

theorem shrink (h : m.Orderly good) (n : Nat) : { m with stack := m.stack.shrink n }.Orderly good := by
  rw [Array.shrink_eq_take, Array.take_eq_extract]
  exact h.restack (h.extract 0 n)

theorem getD (h : m.Orderly good) (place : Nat) :
    (m.stack.getD place .undefined).Only (Value.Orderly good) := by
  rw [Array.getD_eq_getD_getElem?]
  cases hv : m.stack[place]? with
  | none => exact Value.only_undefined
  | some v => exact h.stack v (Array.mem_of_getElem? hv)

end Machine.Orderly

namespace Exec

open Value

/-- The part keeps the machine orderly and leaves its frame in a state of the given kind; its value
is of a kind, too. -/
def Keeps {α : Type} (good : Nat → Prop) (K : Frame → Prop) (Q : α → Prop) (c : Exec α) : Prop :=
  ∀ m, m.Orderly good → K m.frame →
    match c.run m with
    | .ok y m' => Q y ∧ m'.Orderly good ∧ K m'.frame
    | .error _ m' => m'.Orderly good

variable {α β : Type} {K : Frame → Prop} {Q : α → Prop} {P : β → Prop}

namespace Keeps

theorem pure {y : α} (h : Q y) : Keeps good K Q (pure y) := fun _ hm hK => ⟨h, hm, hK⟩

theorem throw (h : Halt) : Keeps good K Q (throw h) := fun _ hm _ => hm

theorem bind {c : Exec β} {f : β → Exec α} (hc : Keeps good K P c)
    (hf : ∀ y, P y → Keeps good K Q (f y)) : Keeps good K Q (c >>= f) := by
  intro m hm hK
  have h := hc m hm hK
  rw [run_bind]
  cases hrun : c.run m with
  | ok y m' =>
    rw [hrun] at h
    exact hf y h.1 m' h.2.1 h.2.2
  | error e m' =>
    rw [hrun] at h
    exact h

/-- The rest of a part may look at the state. -/
theorem get {f : Machine → Exec α} (h : ∀ m, m.Orderly good → K m.frame → Keeps good K Q (f m)) :
    Keeps good K Q (get >>= f) := fun m hm hK => h m hm hK m hm hK

theorem modify {f : Machine → Machine} (h : ∀ m, m.Orderly good → K m.frame →
    (f m).Orderly good ∧ K (f m).frame) : Keeps good K (fun _ => True) (modify f) :=
  fun m hm hK => ⟨trivial, h m hm hK⟩

end Keeps

theorem invalid_keeps : Keeps good K Q invalid := .get fun _ _ _ => .throw _

theorem lift_keeps {e : Except Trap Value} (h : Computes (Value.Orderly good) e) :
    Keeps good K (·.Only (Value.Orderly good)) (lift e) :=
  match e, h with
  | .ok _, h => .pure (h.only _ rfl)
  | .error _, _ => .throw _

theorem push_keeps {v : Value} (hv : v.Only (Value.Orderly good)) :
    Keeps good K (fun _ => True) (push v) := by
  refine .get fun m _ _ => ?_
  split
  · exact .throw _
  · exact .modify fun m hm hK => ⟨hm.push hv, hK⟩

theorem peek_keeps : Keeps good K (·.Only (Value.Orderly good)) peek := by
  refine .get fun m hm _ => ?_
  split
  · rename_i v hv
    exact .pure (hm.stack v (Array.mem_of_back? hv))
  · exact invalid_keeps

theorem pop_keeps : Keeps good K (·.Only (Value.Orderly good)) pop := by
  refine peek_keeps.bind fun v hv => .bind (.modify fun m hm hK => ⟨?_, hK⟩) fun _ _ => .pure hv
  exact hm.restack fun w hw => hm.stack w (mem_of_mem_pop hw)

theorem popFrom_keeps (place : Nat) :
    Keeps good K (∀ v ∈ ·, v.Only (Value.Orderly good)) (popFrom place) := by
  intro m hm hK
  refine ⟨fun v hv => hm.extract place m.stack.size v (Array.mem_toList_iff.mp hv), hm.shrink place, hK⟩

theorem popMany_keeps (n : Nat) :
    Keeps good K (∀ v ∈ ·, v.Only (Value.Orderly good)) (popMany n) := by
  refine .get fun m _ _ => ?_
  dsimp only
  split
  · exact invalid_keeps
  · exact popFrom_keeps _

theorem allocate_keeps : Keeps good K (fun _ => True) allocate := by
  refine .get fun m _ _ => ?_
  split
  · exact .pure trivial
  · exact .throw _
  · exact .modify fun m hm hK => ⟨⟨hm.globals, hm.stack, hm.frame, hm.callers⟩, hK⟩

theorem pushNew_keeps {v : Value} (hv : v.Only (Value.Orderly good)) :
    Keeps good K (fun _ => True) (pushNew v) :=
  allocate_keeps.bind fun _ _ => push_keeps hv

theorem yield_keeps {e : Except Trap Value} (h : Computes (Value.Orderly good) e) :
    Keeps good K (fun _ => True) (lift e >>= pushNew) :=
  (lift_keeps h).bind fun _ hv => pushNew_keeps hv

theorem localPlace_keeps (slot : Nat) : Keeps good K (fun _ => True) (localPlace slot) := by
  refine .get fun m _ _ => ?_
  dsimp only
  split
  · exact .pure trivial
  · exact invalid_keeps

/-! Parts that change frames -/

/-- Any frame will do. -/
abbrev anyFrame (_ : Frame) : Prop := True

/-- The frame may go on elsewhere. -/
def Continues (good : Nat → Prop) (target : Nat) (f : Frame) : Prop := { f with ip := target }.Orderly good

theorem jump_keeps (target : Nat) :
    Keeps good (Continues good target) (fun _ => True) (jump target) :=
  .modify fun _ hm hK => ⟨⟨hm.globals, hm.stack, hK, hm.callers⟩, hK⟩

theorem leave_keeps {v : Value} (hv : v.Only (Value.Orderly good)) :
    Keeps good anyFrame (fun _ => True) (leave v) := by
  intro m hm _
  simp only [leave, run_bind, run_get]
  cases hcaller : m.callers.back? with
  | none => exact ⟨trivial, hm, trivial⟩
  | some caller =>
    have hback : Machine.Orderly good { m with
        stack := m.stack.shrink (m.frame.base - 1), frame := caller, callers := m.callers.pop } :=
      ⟨hm.globals, (hm.shrink _).stack, hm.callers caller (Array.mem_of_back? hcaller),
        fun f hf => hm.callers f (mem_of_mem_pop hf)⟩
    exact (push_keeps hv).bind (fun _ _ => .pure trivial) _ hback trivial

theorem enter_keeps {r : Routine} (hr : r.Orderly good) {free : List Value}
    (hfree : ∀ v ∈ free, v.Only (Value.Orderly good)) (place args : Nat) :
    Keeps good anyFrame (fun _ => True) (enter place args r free) := by
  unfold enter
  split
  · exact .throw _
  refine .get fun m _ _ => ?_
  split
  · exact .throw _
  refine .get fun m _ _ => ?_
  split
  · exact .throw _
  refine .modify fun m hm _ => ⟨⟨hm.globals, fun v hv => ?_, ⟨?_, hfree⟩, fun f hf => ?_⟩, trivial⟩
  · rcases Array.mem_append.mp hv with hv | hv
    · exact hm.stack v hv
    · rw [(Array.mem_replicate.mp hv).2]
      exact only_undefined
  · obtain ⟨is, hrow⟩ := hr
    exact ⟨is, hrow, boundary_zero⟩
  · rcases Array.mem_push.mp hf with hf | rfl
    · exact hm.callers f hf
    · exact hm.frame

theorem answer_keeps {v : Value} (hv : v.Only (Value.Orderly good)) (place : Nat) :
    Keeps good K (fun _ => True) (answer place v) :=
  .bind (.modify fun _ hm hK => ⟨hm.shrink place, hK⟩) fun _ _ => pushNew_keeps hv

variable {x : Setting} {a b : Nat}

theorem call_keeps (hx : x.Supplies good) (args : Nat) :
    Keeps good anyFrame (fun _ => True) (call x args) := by
  refine .get fun m _ _ => ?_
  dsimp only
  split
  · exact invalid_keeps
  refine .get fun m' hm' _ => ?_
  have hcallee := hm'.getD (m.stack.size - (args + 1))
  revert hcallee
  cases m'.stack.getD (m.stack.size - (args + 1)) .undefined with
  | function who r => exact fun h => enter_keeps (only_function.mp h) (by simp) _ _
  | closure who r free =>
    exact fun h => enter_keeps (only_closure.mp h).1 (only_closure.mp h).2 _ _
  | builtin f =>
    refine fun _ => (popFrom_keeps _).bind fun vs hvs => ?_
    cases hcall : f.call vs with
    | ok v => exact answer_keeps (Builtin.only_call hcall hvs) _
    | error e => exact .throw _
  | native who name =>
    refine fun _ => (popFrom_keeps _).bind fun vs hvs => ?_
    cases hcall : x.host.call who name vs with
    | value v => exact answer_keeps (hx.host who name vs v hcall hvs) _
    | refused e => exact .throw _
    | panic p => exact .throw _
    | signal s =>
      refine .bind (.modify fun m hm hK => ⟨?_, hK⟩) fun _ _ => answer_keeps only_undefined _
      exact ⟨hm.globals, hm.stack, hm.frame, hm.callers⟩
  | _ => exact fun _ => .throw _

theorem close_keeps (hx : x.Supplies good) {index : Nat} (hindex : good index) (captured : Nat) :
    Keeps good K (fun _ => True) (close x index captured) := by
  unfold close
  cases hv : x.bytecode.pool[index]? with
  | none => exact invalid_keeps
  | some v =>
    have hvalue := hx.pool index v hindex hv
    cases v with
    | function who r =>
      refine (popMany_keeps captured).bind fun free hfree => allocate_keeps.bind fun _ _ => ?_
      refine .bind (P := fun _ => True) (fun m hm hK => ⟨trivial, ?_, hK⟩) fun serial _ => ?_
      · exact ⟨hm.globals, hm.stack, hm.frame, hm.callers⟩
      · exact push_keeps (only_closure.mpr ⟨only_function.mp hvalue, hfree⟩)
    | _ => exact invalid_keeps

/-- Every instruction but a jump. -/
theorem perform_keeps (hx : x.Supplies good) (op : Opcode) (hop : op.isJump = false)
    (ha : op.loadsConstant = true → good a) :
    Keeps good anyFrame (fun _ => True) (perform x op a b) := by
  cases op with
  | jump | jumpFalsy | andJump | orJump => exact absurd hop (by decide)
  | constant =>
    simp only [perform]
    cases hv : x.bytecode.pool[a]? with
    | none => exact invalid_keeps
    | some v => exact push_keeps (hx.pool a v (ha rfl) hv)
  | undefined => exact push_keeps only_undefined
  | pushTrue | pushFalse => exact push_keeps (only_bool _)
  | pop => exact pop_keeps.bind fun _ _ => .pure trivial
  | arith op =>
    exact pop_keeps.bind fun r hr => pop_keeps.bind fun l hl => yield_keeps (op.computes hl hr)
  | order c => exact pop_keeps.bind fun r _ => pop_keeps.bind fun l _ => yield_keeps c.computes
  | equal | notEqual =>
    exact pop_keeps.bind fun r _ => pop_keeps.bind fun l _ => push_keeps (only_bool _)
  | negate => exact pop_keeps.bind fun v _ => yield_keeps negate_computes
  | not => exact pop_keeps.bind fun v _ => push_keeps (only_bool _)
  | getGlobal =>
    refine .get fun m hm _ => push_keeps ?_
    cases hv : m.globals.get? a with
    | none => exact only_undefined
    | some v => exact hm.globals a v hv
  | setGlobal =>
    refine pop_keeps.bind fun v hv => .modify fun m hm hK => ⟨?_, hK⟩
    exact ⟨hm.globals.set a hv, hm.stack, hm.frame, hm.callers⟩
  | getLocal =>
    exact (localPlace_keeps a).bind fun place _ => .get fun m hm _ => push_keeps (hm.getD place)
  | setLocal =>
    refine pop_keeps.bind fun v hv => (localPlace_keeps a).bind fun place _ =>
      .modify fun m hm hK => ⟨hm.restack fun w hw => ?_, hK⟩
    rcases Array.mem_or_eq_of_mem_setIfInBounds hw with hw | rfl
    · exact hm.stack w hw
    · exact hv
  | getBuiltin =>
    simp only [perform]
    cases Builtin.all[a]? with
    | none => exact invalid_keeps
    | some f => exact push_keeps (only_builtin f)
  | getFree =>
    refine .get fun m hm _ => ?_
    cases hv : m.frame.free[a]? with
    | none => exact invalid_keeps
    | some v => exact push_keeps (hm.frame.free v (List.mem_of_getElem? hv))
  | array => exact (popMany_keeps a).bind fun items hitems => pushNew_keeps (only_array.mpr hitems)
  | map =>
    exact (popMany_keeps (2 * a)).bind fun items hitems =>
      yield_keeps (mapOf_computes hitems (by simp))
  | index =>
    exact pop_keeps.bind fun index _ => pop_keeps.bind fun container hc =>
      (lift_keeps (element_computes hc)).bind fun _ hv => push_keeps hv
  | setIndex =>
    exact pop_keeps.bind fun value hv => pop_keeps.bind fun index _ => pop_keeps.bind fun c hc =>
      yield_keeps (replaceElement_computes hc hv)
  | call => exact call_keeps hx a
  | closure => exact close_keeps hx (ha rfl) b
  | ret | suspend => exact .pure trivial

/-- A jump that leads to an instruction. -/
theorem jumps_keep (op : Opcode) (hop : op.isJump = true) :
    Keeps good (Continues good a) (fun _ => True) (perform x op a b) := by
  cases op with
  | jump => exact jump_keeps a
  | jumpFalsy =>
    refine pop_keeps.bind fun v _ => ?_
    split
    · exact .pure trivial
    · exact jump_keeps a
  | andJump =>
    refine peek_keeps.bind fun v _ => ?_
    split
    · exact pop_keeps.bind fun _ _ => .pure trivial
    · exact jump_keeps a
  | orJump =>
    refine peek_keeps.bind fun v _ => ?_
    split
    · exact jump_keeps a
    · exact pop_keeps.bind fun _ _ => .pure trivial
  | _ => exact absurd hop Bool.false_ne_true

theorem Keeps.endState {c : Exec α} (h : Keeps good K Q c) {m : Machine} (hm : m.Orderly good)
    (hK : K m.frame) : (EndState (c.run m)).Orderly good := by
  have hend := h m hm hK
  cases hrun : c.run m with
  | ok y m' =>
    rw [hrun] at hend
    exact hend.2.1
  | error e m' =>
    rw [hrun] at hend
    exact hend

/-- Every instruction of a row keeps the machine orderly. -/
theorem execute_orderly (hx : x.Supplies good) (i : Instruction) {m : Machine}
    (hm : m.Orderly good) (hjump : i.op.isJump = true → Continues good i.a m.frame)
    (hconstant : i.op.loadsConstant = true → good i.a) :
    (EndState ((execute x i).run m)).Orderly good := by
  obtain ⟨op, a, b⟩ := i
  by_cases hop : op.isJump = true
  · have hperform : Keeps good (Continues good a) (fun _ => True)
        (perform x op a b >>= fun _ => pure Flow.proceed) :=
      (jumps_keep op hop).bind fun _ _ => .pure trivial
    cases op
    case jump | jumpFalsy | andJump | orJump => exact hperform.endState hm (hjump rfl)
    all_goals exact absurd hop Bool.false_ne_true
  · have hperform : Keeps good anyFrame (fun _ => True)
        (perform x op a b >>= fun _ => pure Flow.proceed) :=
      (perform_keeps hx op (Bool.eq_false_iff.mpr hop) hconstant).bind fun _ _ => .pure trivial
    cases op with
    | ret =>
      refine Keeps.endState (K := anyFrame) (Q := fun _ => True) ?_ hm trivial
      simp only [execute]
      split
      · exact pop_keeps.bind fun _ hv => leave_keeps hv
      · exact leave_keeps only_undefined
    | suspend => exact hm
    | jump | jumpFalsy | andJump | orJump => exact absurd rfl hop
    | _ => exact hperform.endState hm trivial

end Exec

end ScriptEngine
