import ScriptEngine.Bytecode.Merge
import ScriptEngine.Proofs.Layout.Outline
import ScriptEngine.Proofs.Machine.Steady
import ScriptEngine.Proofs.Value.Functions
/-!
Instructions that fail leave the frame that they were fetched in, so that the error is looked up in
the code it comes from. The machine may hold functions of some bodies only; then its frames run
these bodies, each from an instruction on.
-/
namespace ScriptEngine

/-- A function whose code is that of one of some bodies. -/
def Value.Runs (P : Body → Prop) : Value → Prop
  | function _ r | closure _ r _ => ∃ R, P R ∧ R.routine = r
  | _ => True

/-- A frame that runs one of some bodies, and that the stack has room for. -/
structure Frame.Runs (P : Body → Prop) (f : Frame) : Prop where
  body : ∃ R, P R ∧ R.routine = f.routine ∧ R.Bound f.ip
  free : ∀ v ∈ f.free, v.Only (Value.Runs P)
  base : f.base ≤ Machine.maxStack

/-- A machine that runs some bodies and none else. -/
structure Machine.Runs (P : Body → Prop) (m : Machine) : Prop where
  globals : ∀ i v, m.globals.get? i = some v → v.Only (Value.Runs P)
  stack : ∀ v ∈ m.stack, v.Only (Value.Runs P)
  room : m.stack.size ≤ Machine.maxStack
  frame : m.frame.Runs P
  callers : ∀ f ∈ m.callers, f.Runs P

variable {P : Body → Prop}

namespace Machine.Runs

variable {m : Machine}

/-- Other values take the place of the stack. -/
theorem restack (h : m.Runs P) {s : Array Value} (hs : ∀ v ∈ s, v.Only (Value.Runs P))
    (hroom : s.size ≤ maxStack) : { m with stack := s }.Runs P :=
  ⟨h.globals, hs, hroom, h.frame, h.callers⟩

theorem push (h : m.Runs P) {v : Value} (hv : v.Only (Value.Runs P))
    (hroom : m.stack.size < maxStack) : { m with stack := m.stack.push v }.Runs P := by
  refine h.restack (fun w hw => ?_) (by rw [Array.size_push]; omega)
  rcases Array.mem_push.mp hw with hw | rfl
  · exact h.stack w hw
  · exact hv

theorem extract (h : m.Runs P) (i j : Nat) : ∀ v ∈ m.stack.extract i j, v.Only (Value.Runs P) := by
  intro v hv
  obtain ⟨k, _, rfl⟩ := Array.mem_extract_iff_getElem.mp hv
  exact h.stack _ (Array.getElem_mem _)

theorem shrink (h : m.Runs P) (n : Nat) : { m with stack := m.stack.shrink n }.Runs P := by
  have hroom := h.room
  rw [Array.shrink_eq_take, Array.take_eq_extract]
  apply h.restack (h.extract 0 n)
  rw [Array.size_extract]
  omega

theorem pop (h : m.Runs P) : { m with stack := m.stack.pop }.Runs P := by
  have hroom := h.room
  exact h.restack (fun v hv => h.stack v (mem_of_mem_pop hv)) (by rw [Array.size_pop]; omega)

theorem getD (h : m.Runs P) (place : Nat) :
    (m.stack.getD place .undefined).Only (Value.Runs P) := by
  rw [Array.getD_eq_getD_getElem?]
  cases hv : m.stack[place]? with
  | none => exact Value.only_undefined
  | some v => exact h.stack v (Array.mem_of_getElem? hv)

/-- What else a machine knows does not matter. -/
theorem congr {m' : Machine} (h : m.Runs P) (hglobals : m'.globals = m.globals)
    (hstack : m'.stack = m.stack) (hframe : m'.frame = m.frame) (hcallers : m'.callers = m.callers) :
    m'.Runs P :=
  ⟨hglobals ▸ h.globals, hstack ▸ h.stack, hstack ▸ h.room, hframe ▸ h.frame, hcallers ▸ h.callers⟩

end Machine.Runs

namespace Exec

open Value Machine

/-- Where an instruction was fetched. -/
structure Site where
  frame : Frame
  lastIp : Nat

/-- The machine carries out the instruction fetched there. -/
structure Site.At (s : Site) (m : Machine) : Prop where
  frame : m.frame = s.frame
  lastIp : m.lastIp = s.lastIp

variable {α β : Type} {Q : α → Prop} {W : β → Prop} {s : Site}

/-- A part that keeps to its frame; its value is of a kind. -/
def Stays (P : Body → Prop) (s : Site) (Q : α → Prop) (c : Exec α) : Prop :=
  ∀ m, m.Runs P → s.At m →
    match c.run m with
    | .ok y m' => Q y ∧ m'.Runs P ∧ s.At m'
    | .error _ m' => s.At m'

/-- A part that keeps to its frame if it fails. -/
def Moves (P : Body → Prop) (s : Site) (c : Exec α) : Prop :=
  ∀ m, m.Runs P → s.At m →
    match c.run m with
    | .ok _ m' => m'.Runs P
    | .error _ m' => s.At m'

namespace Stays

theorem pure {y : α} (h : Q y) : Stays P s Q (pure y) := fun _ hm hs => ⟨h, hm, hs⟩

theorem throw (h : Halt) : Stays P s Q (throw h) := fun _ _ hs => hs

theorem bind {c : Exec β} {f : β → Exec α} (hc : Stays P s W c)
    (hf : ∀ y, W y → Stays P s Q (f y)) : Stays P s Q (c >>= f) := by
  intro m hm hs
  have h := hc m hm hs
  rw [run_bind]
  cases hrun : c.run m with
  | ok y m' =>
    rw [hrun] at h
    exact hf y h.1 m' h.2.1 h.2.2
  | error e m' =>
    rw [hrun] at h
    exact h

/-- The rest of a part may look at the state. -/
theorem get {f : Machine → Exec α} (h : ∀ m, m.Runs P → s.At m → Stays P s Q (f m)) :
    Stays P s Q (get >>= f) := fun m hm hs => h m hm hs m hm hs

theorem modify {f : Machine → Machine} (h : ∀ m, m.Runs P → s.At m → (f m).Runs P ∧ s.At (f m)) :
    Stays P s (fun _ => True) (modify f) := fun m hm hs => ⟨trivial, h m hm hs⟩

theorem moves {c : Exec α} (h : Stays P s (fun _ => True) c) : Moves P s c := by
  intro m hm hs
  have hrun := h m hm hs
  revert hrun
  cases c.run m with
  | ok y m' => exact fun h => h.2.1
  | error e m' => exact id

/-- The frame may be left in the end. -/
theorem bind_moves {c : Exec β} {f : β → Exec α} (hc : Stays P s W c)
    (hf : ∀ y, W y → Moves P s (f y)) : Moves P s (c >>= f) := by
  intro m hm hs
  have h := hc m hm hs
  rw [run_bind]
  cases hrun : c.run m with
  | ok y m' =>
    rw [hrun] at h
    exact hf y h.1 m' h.2.1 h.2.2
  | error e m' =>
    rw [hrun] at h
    exact h

end Stays

namespace Moves

theorem throw (h : Halt) : Moves P s (throw h : Exec α) := fun _ _ hs => hs

theorem get {f : Machine → Exec α} (h : ∀ m, m.Runs P → s.At m → Moves P s (f m)) :
    Moves P s (get >>= f) := fun m hm hs => h m hm hs m hm hs

theorem modify {f : Machine → Machine} (h : ∀ m, m.Runs P → s.At m → (f m).Runs P) :
    Moves P s (modify f) := fun m hm hs => h m hm hs

/-- Nothing fails behind a part that has moved on. -/
theorem done {c : Exec α} (h : Moves P s c) (y : β) : Moves P s (c >>= fun _ => pure y) := by
  intro m hm hs
  have hrun := h m hm hs
  rw [run_bind]
  revert hrun
  cases c.run m <;> exact id

end Moves

theorem invalid_stays : Stays P s Q invalid := .get fun _ _ _ => .throw _

theorem lift_stays {e : Except Trap Value} (h : Computes (Value.Runs P) e) :
    Stays P s (·.Only (Value.Runs P)) (lift e) :=
  match e, h with
  | .ok _, h => .pure (h.only _ rfl)
  | .error _, _ => .throw _

theorem push_stays {v : Value} (hv : v.Only (Value.Runs P)) :
    Stays P s (fun _ => True) (push v) := by
  intro m hm hs
  rw [run_push]
  by_cases hroom : maxStack ≤ m.stack.size
  · simp only [hroom, if_true]
    exact hs
  · simp only [hroom, if_false]
    exact ⟨trivial, hm.push hv (by omega), hs.frame, hs.lastIp⟩

theorem peek_stays : Stays P s (·.Only (Value.Runs P)) peek := by
  refine .get fun m hm _ => ?_
  split
  · rename_i v hv
    exact .pure (hm.stack v (Array.mem_of_back? hv))
  · exact invalid_stays

theorem pop_stays : Stays P s (·.Only (Value.Runs P)) pop :=
  peek_stays.bind fun _ hv => .bind (.modify fun _ hm hs => ⟨hm.pop, hs.frame, hs.lastIp⟩)
    fun _ _ => .pure hv

theorem popFrom_stays (place : Nat) :
    Stays P s (∀ v ∈ ·, v.Only (Value.Runs P)) (popFrom place) := by
  intro m hm hs
  refine ⟨fun v hv => ?_, hm.shrink place, hs.frame, hs.lastIp⟩
  exact hm.extract place m.stack.size v (Array.mem_toList_iff.mp hv)

theorem popMany_stays (n : Nat) : Stays P s (∀ v ∈ ·, v.Only (Value.Runs P)) (popMany n) := by
  refine .get fun m _ _ => ?_
  dsimp only
  split
  · exact invalid_stays
  · exact popFrom_stays _

theorem allocate_stays : Stays P s (fun _ => True) allocate := by
  refine .get fun m _ _ => ?_
  split
  · exact .pure trivial
  · exact .throw _
  · exact .modify fun m hm hs => ⟨hm.congr rfl rfl rfl rfl, hs.frame, hs.lastIp⟩

theorem pushNew_stays {v : Value} (hv : v.Only (Value.Runs P)) :
    Stays P s (fun _ => True) (pushNew v) :=
  allocate_stays.bind fun _ _ => push_stays hv

theorem yield_stays {e : Except Trap Value} (h : Computes (Value.Runs P) e) :
    Stays P s (fun _ => True) (lift e >>= pushNew) :=
  (lift_stays h).bind fun _ hv => pushNew_stays hv

theorem localPlace_stays (slot : Nat) : Stays P s (fun _ => True) (localPlace slot) := by
  refine .get fun m _ _ => ?_
  dsimp only
  split
  · exact .pure trivial
  · exact invalid_stays

theorem answer_stays {v : Value} (hv : v.Only (Value.Runs P)) (place : Nat) :
    Stays P s (fun _ => True) (answer place v) :=
  .bind (.modify fun _ hm hs => ⟨hm.shrink place, hs.frame, hs.lastIp⟩) fun _ _ => pushNew_stays hv

/-! Parts that leave the frame where it is, or leave it -/

/-- A jump to an instruction of the body. -/
theorem jump_moves {target : Nat} (h : { s.frame with ip := target }.Runs P) :
    Moves P s (jump target) := by
  refine .modify fun m hm hs => ⟨hm.globals, hm.stack, hm.room, ?_, hm.callers⟩
  rw [hs.frame]
  exact h

/-- A return cannot fail: the caller has room for the value where the function lay. -/
theorem left_eq {m : Machine} (hbase : m.frame.base ≤ maxStack) (v : Value) : m.left v =
    match m.callers.back? with
    | none => .ok .finish m
    | some caller => .ok .proceed { m with
        stack := (m.stack.shrink (m.frame.base - 1)).push v, frame := caller
        callers := m.callers.pop } := by
  rw [left]
  cases m.callers.back? with
  | none => rfl
  | some caller =>
    have hmax : 0 < maxStack := by decide
    have hsize : (m.stack.shrink (m.frame.base - 1)).size = min (m.frame.base - 1) m.stack.size :=
      Array.size_shrink
    have hroom : ¬ maxStack ≤ (m.stack.shrink (m.frame.base - 1)).size := by omega
    exact if_neg hroom

theorem leave_moves {m : Machine} (hm : m.Runs P) {v : Value} (hv : v.Only (Value.Runs P)) :
    ∃ flow m', (leave v).run m = .ok flow m' ∧ m'.Runs P := by
  have hbase := hm.frame.base
  rw [run_leave, left_eq hbase]
  cases hcaller : m.callers.back? with
  | none => exact ⟨_, _, rfl, hm⟩
  | some caller =>
    have hmax : 0 < maxStack := by decide
    have hback : { m with
        stack := m.stack.shrink (m.frame.base - 1), frame := caller
        callers := m.callers.pop }.Runs P :=
      ⟨hm.globals, (hm.shrink _).stack, (hm.shrink _).room,
        hm.callers caller (Array.mem_of_back? hcaller), fun f hf => hm.callers f (mem_of_mem_pop hf)⟩
    have hsize : (m.stack.shrink (m.frame.base - 1)).size = min (m.frame.base - 1) m.stack.size :=
      Array.size_shrink
    exact ⟨_, _, rfl, hback.push hv (by dsimp only; omega)⟩

/-- A function that is called lies on the stack. -/
theorem enter_moves {r : Routine} (hr : ∃ R, P R ∧ R.routine = r) {free : List Value}
    (hfree : ∀ v ∈ free, v.Only (Value.Runs P)) {place : Nat} (args : Nat)
    (hplace : place + 1 ≤ maxStack) : Moves P s (enter place args r free) := by
  intro m hm hs
  have hcallee : (⟨r, free, 0, place + 1⟩ : Frame).Runs P := by
    obtain ⟨R, hP, rfl⟩ := hr
    exact ⟨⟨R, hP, rfl, Encoding.boundary_zero⟩, hfree, hplace⟩
  unfold enter
  by_cases hparams : r.params ≠ args
  · rw [if_pos hparams]
    exact hs
  rw [if_neg hparams, run_bind, run_get]
  dsimp only
  by_cases hframes : maxFrames ≤ m.callers.size + 1
  · rw [if_pos hframes]
    exact hs
  rw [if_neg hframes, run_bind, run_get]
  dsimp only
  by_cases hroom : maxStack < m.stack.size + (r.locals - args)
  · rw [if_pos hroom]
    exact hs
  rw [if_neg hroom, run_modify]
  refine ⟨hm.globals, fun v hv => ?_, ?_, hcallee, fun f hf => ?_⟩
  · rcases Array.mem_append.mp hv with hv | hv
    · exact hm.stack v hv
    · rw [(Array.mem_replicate.mp hv).2]
      exact only_undefined
  · rw [Array.size_append, Array.size_replicate]
    omega
  · rcases Array.mem_push.mp hf with hf | rfl
    · exact hm.callers f hf
    · exact hm.frame

variable {x : Setting} {a b : Nat}

/-- A call fails in the frame of the caller. -/
theorem call_moves (hlends : x.host.Lends) (args : Nat) : Moves P s (call x args) := by
  refine .get fun m hm _ => ?_
  dsimp only
  split
  · exact invalid_stays.moves
  rename_i hsize
  have hplace : m.stack.size - (args + 1) + 1 ≤ maxStack := by
    have := hm.room
    omega
  refine .get fun m' hm' _ => ?_
  have hcallee := hm'.getD (m.stack.size - (args + 1))
  revert hcallee
  cases m'.stack.getD (m.stack.size - (args + 1)) .undefined with
  | function who r => exact fun h => enter_moves (only_function.mp h) (by simp) args hplace
  | closure who r free =>
    exact fun h => enter_moves (only_closure.mp h).1 (only_closure.mp h).2 args hplace
  | builtin f =>
    refine fun _ => Stays.moves ((popFrom_stays _).bind fun vs hvs => ?_)
    cases hcall : f.call vs with
    | ok v => exact answer_stays (Builtin.only_call hcall hvs) _
    | error e => exact .throw _
  | native who name =>
    refine fun _ => Stays.moves ((popFrom_stays _).bind fun vs hvs => ?_)
    cases hcall : x.host.call who name vs with
    | value v => exact answer_stays (hlends.only hcall hvs) _
    | refused e => exact .throw _
    | panic p => exact .throw _
    | signal σ =>
      refine .bind (.modify fun m hm hs => ⟨?_, hs.frame, hs.lastIp⟩) fun _ _ =>
        answer_stays only_undefined _
      exact hm.congr rfl rfl rfl rfl
  | _ => exact fun _ => .throw _

theorem close_stays {index : Nat}
    (hpool : ∀ v, x.bytecode.pool[index]? = some v → v.Only (Value.Runs P)) (captured : Nat) :
    Stays P s (fun _ => True) (close x index captured) := by
  unfold close
  cases hv : x.bytecode.pool[index]? with
  | none => exact invalid_stays
  | some v =>
    have hvalue := hpool v hv
    cases v with
    | function who r =>
      refine (popMany_stays captured).bind fun free hfree => allocate_stays.bind fun _ _ => ?_
      refine .bind (W := fun _ => True) (fun m hm hs => ⟨trivial, ?_, hs.frame, hs.lastIp⟩)
        fun serial _ => ?_
      · exact hm.congr rfl rfl rfl rfl
      · exact push_stays (only_closure.mpr ⟨only_function.mp hvalue, hfree⟩)
    | _ => exact invalid_stays

/-- No instruction fails in a frame other than its own. -/
theorem perform_moves (hlends : x.host.Lends) (op : Opcode)
    (hjump : op.isJump = true → { s.frame with ip := a }.Runs P)
    (hpool : op.loadsConstant = true → ∀ v, x.bytecode.pool[a]? = some v →
      v.Only (Value.Runs P)) : Moves P s (perform x op a b) := by
  cases op with
  | constant =>
    simp only [perform]
    cases hv : x.bytecode.pool[a]? with
    | none => exact invalid_stays.moves
    | some v => exact (push_stays (hpool rfl v hv)).moves
  | undefined => exact (push_stays only_undefined).moves
  | pushTrue | pushFalse => exact (push_stays (only_bool _)).moves
  | pop => exact Stays.moves (pop_stays.bind fun _ _ => .pure trivial)
  | arith op =>
    exact Stays.moves (pop_stays.bind fun r hr => pop_stays.bind fun l hl =>
      yield_stays (op.computes hl hr))
  | order c =>
    exact Stays.moves (pop_stays.bind fun r _ => pop_stays.bind fun l _ => yield_stays c.computes)
  | equal | notEqual =>
    exact Stays.moves (pop_stays.bind fun r _ => pop_stays.bind fun l _ =>
      push_stays (only_bool _))
  | negate => exact Stays.moves (pop_stays.bind fun v _ => yield_stays negate_computes)
  | not => exact Stays.moves (pop_stays.bind fun v _ => push_stays (only_bool _))
  | jump => exact jump_moves (hjump rfl)
  | jumpFalsy =>
    refine pop_stays.bind_moves fun v _ => ?_
    split
    · exact Stays.moves (.pure trivial)
    · exact jump_moves (hjump rfl)
  | andJump =>
    refine peek_stays.bind_moves fun v _ => ?_
    split
    · exact Stays.moves (pop_stays.bind fun _ _ => .pure trivial)
    · exact jump_moves (hjump rfl)
  | orJump =>
    refine peek_stays.bind_moves fun v _ => ?_
    split
    · exact jump_moves (hjump rfl)
    · exact Stays.moves (pop_stays.bind fun _ _ => .pure trivial)
  | getGlobal =>
    refine Stays.moves (.get fun m hm _ => push_stays ?_)
    cases hv : m.globals.get? a with
    | none => exact only_undefined
    | some v => exact hm.globals a v hv
  | setGlobal =>
    refine Stays.moves (pop_stays.bind fun v hv => .modify fun m hm hs =>
      ⟨⟨fun i w hw => ?_, hm.stack, hm.room, hm.frame, hm.callers⟩, hs.frame, hs.lastIp⟩)
    rw [Globals.get?_set] at hw
    split at hw
    · cases hw
      exact hv
    · exact hm.globals i w hw
  | getLocal =>
    exact Stays.moves ((localPlace_stays a).bind fun place _ => .get fun m hm _ =>
      push_stays (hm.getD place))
  | setLocal =>
    refine Stays.moves (pop_stays.bind fun v hv => (localPlace_stays a).bind fun place _ =>
      .modify fun m hm hs => ⟨hm.restack (fun w hw => ?_) ?_, hs.frame, hs.lastIp⟩)
    · rcases Array.mem_or_eq_of_mem_setIfInBounds hw with hw | rfl
      · exact hm.stack w hw
      · exact hv
    · rw [Array.size_setIfInBounds]
      exact hm.room
  | getBuiltin =>
    simp only [perform]
    cases Builtin.all[a]? with
    | none => exact invalid_stays.moves
    | some f => exact (push_stays (only_builtin f)).moves
  | getFree =>
    refine Stays.moves (.get fun m hm _ => ?_)
    cases hv : m.frame.free[a]? with
    | none => exact invalid_stays
    | some v => exact push_stays (hm.frame.free v (List.mem_of_getElem? hv))
  | array =>
    exact Stays.moves ((popMany_stays a).bind fun items hitems =>
      pushNew_stays (only_array.mpr hitems))
  | map =>
    exact Stays.moves ((popMany_stays (2 * a)).bind fun items hitems =>
      yield_stays (mapOf_computes hitems (by simp)))
  | index =>
    exact Stays.moves (pop_stays.bind fun index _ => pop_stays.bind fun container hc =>
      (lift_stays (element_computes hc)).bind fun _ hv => push_stays hv)
  | setIndex =>
    exact Stays.moves (pop_stays.bind fun value hv => pop_stays.bind fun index _ =>
      pop_stays.bind fun c hc => yield_stays (replaceElement_computes hc hv))
  | call => exact call_moves hlends a
  | closure => exact (close_stays (hpool rfl) b).moves
  | ret | suspend => exact Stays.moves (.pure trivial)

/-- Return and end do not fail once they have their operand. -/
theorem execute_moves (hlends : x.host.Lends) (i : Instruction)
    (hjump : i.op.isJump = true → { s.frame with ip := i.a }.Runs P)
    (hpool : i.op.loadsConstant = true → ∀ v, x.bytecode.pool[i.a]? = some v →
      v.Only (Value.Runs P)) : Moves P s (execute x i) := by
  obtain ⟨op, a, b⟩ := i
  have hleave {v : Value} (hv : v.Only (Value.Runs P)) : Moves P s (leave v) := by
    intro m hm _
    obtain ⟨flow, m', hrun, hm'⟩ := leave_moves hm hv
    rw [hrun]
    exact hm'
  cases op with
  | ret =>
    simp only [execute]
    split
    · exact pop_stays.bind_moves fun v hv => hleave hv
    · exact hleave only_undefined
  | suspend => exact Stays.moves (.pure trivial)
  | _ => exact (perform_moves hlends _ hjump hpool).done _

end Exec

end ScriptEngine
