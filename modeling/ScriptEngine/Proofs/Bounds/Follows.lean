import ScriptEngine.Proofs.Bounds.Checked
import ScriptEngine.Proofs.Machine.Execute
/-!
The guarded machine does what the machine does, and no guard fails: each part of an instruction, on
states with few frames and few values, comes to the same with and without guards.
-/
namespace ScriptEngine.Checked

/-! Accesses within bounds -/

section
variable {α : Type} {xs : Array α} {i : Nat}

theorem read_eq (h : i < xs.size) : read xs i = .ok xs[i] := by
  simp only [read, Array.getElem?_eq_getElem h]

theorem write_eq (h : i < xs.size) (y : α) : write xs i y = .ok (xs.setIfInBounds i y) := by
  simp only [write, h, if_true]

theorem suffix_eq (h : i ≤ xs.size) : suffix xs i = .ok (xs.extract i xs.size) := by
  simp only [suffix, h, if_true]

end

/-! The machine behind a guarded one -/

def Activation.plain (x : Setting) (f : Activation) : Frame :=
  ⟨f.callee.routine x, f.callee.free, f.ip, f.base⟩

namespace Vm

/-- The state without the callees of its frames. -/
def plain (x : Setting) (g : Vm) : Machine where
  globals := g.globals
  stack := g.stack
  frame := (g.frames.back?.map (·.plain x)).getD default
  callers := g.frames.pop.map (·.plain x)
  budget := g.budget
  lastIp := g.lastIp
  made := g.made
  signals := g.signals
  clock := g.clock

section
variable (x : Setting) (g : Vm)

@[simp] theorem plain_globals : (g.plain x).globals = g.globals := rfl
@[simp] theorem plain_stack : (g.plain x).stack = g.stack := rfl
@[simp] theorem plain_budget : (g.plain x).budget = g.budget := rfl
@[simp] theorem plain_lastIp : (g.plain x).lastIp = g.lastIp := rfl

end

/-- There are few frames, the bottom one alone is that of the main routine, and few values. -/
structure Bounded (x : Setting) (g : Vm) : Prop where
  active : 0 < g.frames.size
  depth : g.frames.size ≤ Machine.maxFrames
  main_iff : ∀ i (h : i < g.frames.size), g.frames[i].callee = .main ↔ i = 0
  room : g.stack.size ≤ max Machine.maxStack x.bytecode.main.locals

/-- A bounded state of the guarded machine and the state of the machine behind it. -/
structure Shows (x : Setting) (g : Vm) (m : Machine) : Prop where
  bounded : g.Bounded x
  plain_eq : g.plain x = m

variable {x : Setting} {g : Vm}

theorem Bounded.shows (h : g.Bounded x) : g.Shows x (g.plain x) := ⟨h, rfl⟩

/-- A stack that is no larger than allowed takes the place of the old one. -/
theorem Bounded.restack (h : g.Bounded x) {s : Array Value}
    (hs : s.size ≤ max Machine.maxStack x.bytecode.main.locals) :
    { g with stack := s }.Bounded x :=
  ⟨h.active, h.depth, h.main_iff, hs⟩

theorem Bounded.shrink (h : g.Bounded x) (n : Nat) :
    { g with stack := g.stack.shrink n }.Bounded x :=
  h.restack <| by
    have := h.room
    simp only [Array.size_shrink]
    omega

/-- The frames are some callers and the active one. -/
theorem Bounded.frames_eq (h : g.Bounded x) :
    ∃ (callers : Array Activation) (frame : Activation), g.frames = callers.push frame := by
  obtain ⟨frame, callers, heq⟩ := Array.eq_push_of_size_ne_zero (Nat.ne_of_gt h.active)
  exact ⟨frame, callers, heq⟩

end Vm

open Vm

variable {α β : Type} {x : Setting} {a b : Nat} {R : α → Vm → Machine → Prop}

/-- The machine halts by itself with an error only, otherwise because a host function crashed. -/
def Caused (x : Setting) : Halt → Prop
  | .trap _ => True
  | .panic p => ∃ id name args, x.host.call id name args = .panic p

/-- Two outcomes are the same and their states belong together; a fault is none. -/
def Same (x : Setting) (R : α → Vm → Machine → Prop) :
    EStateM.Result Stop Vm α → EStateM.Result Halt Machine α → Prop
  | .ok y g, .ok y' m => y = y' ∧ R y g m
  | .error (.halt h) g, .error h' m => (h = h' ∧ Caused x h) ∧ g.Shows x m
  | _, _ => False

/-- What the part of an instruction without guards does, the part with guards does. -/
def Follows (x : Setting) (R : α → Vm → Machine → Prop) (c : Exec α) (d : ScriptEngine.Exec α) :
    Prop :=
  ∀ g, g.Bounded x → Same x R (c.run g) (d.run (g.plain x))

/-- The states belong together, whatever the value. -/
abbrev Kept (x : Setting) (α : Type) : α → Vm → Machine → Prop := fun _ => Shows x

namespace Follows

variable {c : Exec β} {d : ScriptEngine.Exec β} {f : β → Exec α} {k : β → ScriptEngine.Exec α}

theorem pure (y : α) : Follows x (Kept x α) (pure y) (pure y) :=
  fun _ hg => ⟨rfl, hg.shows⟩

theorem trap (t : Trap) : Follows x R (Exec.trap t) (ScriptEngine.Exec.trap t) :=
  fun _ hg => ⟨⟨rfl, trivial⟩, hg.shows⟩

theorem panic {p : Panic} {id : FunctionId} {name : String} {args : List Value}
    (h : x.host.call id name args = .panic p) :
    Follows x R (throw (.halt (.panic p))) (throw (.panic p)) :=
  fun _ hg => ⟨⟨rfl, id, name, args, h⟩, hg.shows⟩

theorem bind (h : Follows x (Kept x β) c d) (hf : ∀ y, Follows x R (f y) (k y)) :
    Follows x R (c >>= f) (d >>= k) := by
  intro g hg
  have hcd := h g hg
  simp only [EStateM.run, Bind.bind, EStateM.bind] at hcd ⊢
  revert hcd
  cases c g with
  | ok y g' =>
    cases d (g.plain x) with
    | ok y' m =>
      rintro ⟨rfl, hbounded, rfl⟩
      exact hf y g' hbounded
    | error h m => exact False.elim
  | error s g' =>
    cases s with
    | fault f => exact fun hcd => by cases d (g.plain x) <;> exact hcd.elim
    | halt h =>
      cases d (g.plain x) with
      | ok y' m => exact False.elim
      | error h' m => exact id

/-- The rest of a part may look at the state. -/
theorem get {f : Vm → Exec α} {k : Machine → ScriptEngine.Exec α}
    (h : ∀ g, g.Bounded x → Same x R ((f g).run g) ((k (g.plain x)).run (g.plain x))) :
    Follows x R (get >>= f) (get >>= k) :=
  fun g hg => h g hg

theorem modify {f : Vm → Vm} {k : Machine → Machine}
    (h : ∀ g, g.Bounded x → (f g).Shows x (k (g.plain x))) :
    Follows x (Kept x PUnit) (modify f) (modify k) :=
  fun g hg => ⟨rfl, h g hg⟩

end Follows

/-! Parts of instructions -/

theorem invalid_follows : Follows x R Exec.invalid ScriptEngine.Exec.invalid :=
  .get fun g hg => Follows.trap _ g hg

theorem lift_follows (r : Except Trap β) :
    Follows x (Kept x β) (Exec.lift r) (ScriptEngine.Exec.lift r) :=
  match r with
  | .ok y => .pure y
  | .error t => .trap t

theorem push_follows (v : Value) :
    Follows x (Kept x Unit) (Exec.push v) (ScriptEngine.Exec.push v) := by
  refine .get fun g hg => ?_
  by_cases h : Machine.maxStack ≤ g.stack.size
  · simp only [plain, h, if_true]
    exact Follows.trap _ g hg
  · simp only [plain, h, if_false]
    refine ⟨rfl, (hg.restack ?_).shows⟩
    simp only [Array.size_push]
    omega

theorem peek_follows : Follows x (Kept x Value) Exec.peek ScriptEngine.Exec.peek := by
  refine .get fun g hg => ?_
  simp only [plain_stack]
  cases g.stack.back? with
  | none => exact invalid_follows g hg
  | some v => exact Follows.pure v g hg

theorem pop_follows : Follows x (Kept x Value) Exec.pop ScriptEngine.Exec.pop := by
  refine peek_follows.bind fun v => .bind (.modify fun g hg => ?_) fun _ => .pure v
  refine (hg.restack ?_).shows
  have := hg.room
  simp only [Array.size_pop]
  omega

/-- Cutting off the top of the stack succeeds at each place in it. -/
theorem popFrom_same {g : Vm} (hg : g.Bounded x) {place : Nat} (h : place ≤ g.stack.size) :
    Same x (Kept x (List Value)) ((Exec.popFrom place).run g)
      ((ScriptEngine.Exec.popFrom place).run (g.plain x)) := by
  show Same x _ (EStateM.run (Exec.access (suffix g.stack place) >>= _) g) _
  rw [suffix_eq h]
  exact ⟨rfl, (hg.shrink place).shows⟩

theorem popMany_follows (n : Nat) :
    Follows x (Kept x (List Value)) (Exec.popMany n) (ScriptEngine.Exec.popMany n) := by
  refine .get fun g hg => ?_
  by_cases h : g.stack.size < n
  · simp only [plain, h, if_true]
    exact invalid_follows g hg
  · simp only [plain, h, if_false]
    exact popFrom_same hg (Nat.sub_le _ _)

theorem allocate_follows : Follows x (Kept x Unit) Exec.allocate ScriptEngine.Exec.allocate := by
  refine .get fun g hg => ?_
  simp only [plain_budget]
  cases g.budget with
  | none => exact Follows.pure () g hg
  | some n =>
    cases n with
    | zero => exact Follows.trap _ g hg
    | succ left => exact ⟨rfl, ⟨hg.active, hg.depth, hg.main_iff, hg.room⟩, rfl⟩

theorem pushNew_follows (v : Value) :
    Follows x (Kept x Unit) (Exec.pushNew v) (ScriptEngine.Exec.pushNew v) :=
  allocate_follows.bind fun _ => push_follows v

/-- A frame with the same callee takes the place of the active one. -/
theorem Vm.Bounded.reframe {g : Vm} (hg : g.Bounded x) {callers : Array Activation}
    {frame frame' : Activation} (hframes : g.frames = callers.push frame)
    (hcallee : frame'.callee = frame.callee) :
    { g with frames := callers.push frame' }.Bounded x where
  active := by simp
  depth := by simpa [hframes] using hg.depth
  main_iff i hi := by
    have := hg.main_iff i (by simpa [hframes] using hi)
    simp only [hframes, Array.getElem_push] at this ⊢
    split <;> simp_all
  room := hg.room

/-- The frame and the callers of the machine behind. -/
theorem Vm.plain_frames {g : Vm} {callers : Array Activation} {frame : Activation}
    (hframes : g.frames = callers.push frame) :
    (g.plain x).frame = frame.plain x ∧ (g.plain x).callers = callers.map (·.plain x) := by
  simp [plain, hframes]

theorem jump_follows (target : Nat) :
    Follows x (Kept x Unit) (Exec.jump target) (ScriptEngine.Exec.jump target) := by
  refine .modify fun g hg => ?_
  obtain ⟨callers, frame, hframes⟩ := hg.frames_eq
  simp only [hframes, Array.back?_push, Array.pop_push]
  exact ⟨hg.reframe hframes rfl, by simp [plain, hframes, Activation.plain]⟩

/-- A local slot has the same place on both sides, which is one of the stack. -/
theorem localPlace_run {g : Vm} (hg : g.Bounded x) (slot : Nat) :
    (∃ place, place < g.stack.size ∧ (Exec.localPlace slot).run g = .ok place g ∧
        (ScriptEngine.Exec.localPlace slot).run (g.plain x) = .ok place (g.plain x)) ∨
      (Exec.localPlace slot).run g = .error (.halt (.trap (.invalidInstruction g.lastIp))) g ∧
        (ScriptEngine.Exec.localPlace slot).run (g.plain x) =
          .error (.trap (.invalidInstruction g.lastIp)) (g.plain x) := by
  obtain ⟨callers, frame, hframes⟩ := hg.frames_eq
  have hframe : (g.plain x).frame.base = frame.base := by
    rw [(plain_frames hframes).1]
    rfl
  have hbase : (g.frames.back?.map (·.base)).getD 0 = frame.base := by simp [hframes]
  by_cases h : frame.base + slot < g.stack.size
  · refine Or.inl ⟨frame.base + slot, h, ?_, ?_⟩
    · simp only [Exec.localPlace, EStateM.run_bind, EStateM.run_get, hbase, h, if_true,
        EStateM.run_pure]
    · simp only [ScriptEngine.Exec.localPlace, EStateM.run_bind, EStateM.run_get, plain_stack,
        hframe, h, if_true, EStateM.run_pure]
  · refine Or.inr ⟨?_, ?_⟩
    · simp only [Exec.localPlace, EStateM.run_bind, EStateM.run_get, hbase, h, if_false]
      rfl
    · simp only [ScriptEngine.Exec.localPlace, EStateM.run_bind, EStateM.run_get, plain_stack,
        hframe, h, if_false]
      rfl

/-- Reading a local slot. -/
theorem getLocal_follows (slot : Nat) :
    Follows x (Kept x Unit) (Exec.perform x .getLocal slot b)
      (ScriptEngine.Exec.perform x .getLocal slot b) := by
  intro g hg
  simp only [Exec.perform, ScriptEngine.Exec.perform, Exec.getLocal, bind_assoc]
  rw [EStateM.run_bind, EStateM.run_bind]
  obtain ⟨place, hplace, hrun, hrun'⟩ | ⟨hrun, hrun'⟩ := localPlace_run hg slot
  · rw [hrun, hrun']
    dsimp only
    rw [EStateM.run_bind, EStateM.run_bind, EStateM.run_get, EStateM.run_get]
    dsimp only
    rw [read_eq hplace]
    have hget : (g.plain x).stack.getD place .undefined = g.stack[place] := by
      simp [Array.getD, hplace]
    rw [hget]
    exact push_follows g.stack[place] g hg
  · rw [hrun, hrun']
    exact ⟨⟨rfl, trivial⟩, hg.shows⟩

/-- Writing a local slot. -/
theorem setLocal_follows (slot : Nat) :
    Follows x (Kept x Unit) (Exec.perform x .setLocal slot b)
      (ScriptEngine.Exec.perform x .setLocal slot b) := by
  refine pop_follows.bind fun v g hg => ?_
  simp only [Exec.setLocal]
  rw [EStateM.run_bind, EStateM.run_bind]
  obtain ⟨place, hplace, hrun, hrun'⟩ | ⟨hrun, hrun'⟩ := localPlace_run hg slot
  · rw [hrun, hrun']
    dsimp only
    rw [EStateM.run_bind, EStateM.run_get]
    dsimp only
    rw [write_eq hplace]
    refine ⟨rfl, (hg.restack ?_).shows⟩
    simpa using hg.room
  · rw [hrun, hrun']
    exact ⟨⟨rfl, trivial⟩, hg.shows⟩

/-- Filling a global slot. -/
theorem setGlobal_follows (i : Nat) (v : Value) :
    Follows x (Kept x Unit) (Exec.setGlobal i v)
      (modify fun m => { m with globals := m.globals.set i v }) := by
  intro g hg
  simp only [Exec.setGlobal]
  rw [EStateM.run_bind, EStateM.run_get]
  dsimp only
  by_cases h : i < g.globals.size
  · have h' : i < g.globals.slots.size := h
    simp only [h, if_true]
    rw [write_eq h']
    refine ⟨rfl, ⟨hg.active, hg.depth, hg.main_iff, hg.room⟩, ?_⟩
    simp [plain, Globals.set, h']
  · have h' : ¬ i < g.globals.slots.size := h
    have hsize : i < (g.globals.resize (i + 1)).slots.size := by
      have := Globals.size_resize g.globals (i + 1)
      simp only [Globals.size] at this
      omega
    simp only [h, if_false]
    rw [write_eq hsize]
    refine ⟨rfl, ⟨hg.active, hg.depth, hg.main_iff, hg.room⟩, ?_⟩
    simp [plain, Globals.set, h']

/-! Operators -/

theorem onInts_follows (op : ArithOp) (l r : Int64) :
    Follows x (Kept x Value) (Exec.onInts op l r) (ScriptEngine.Exec.lift (op.onInts l r)) := by
  cases op with
  | add => exact .pure _
  | sub => exact .pure _
  | mul => exact .pure _
  | div =>
    by_cases h : r = 0
    · simp only [Exec.onInts, ArithOp.onInts, h, if_true]
      exact .trap _
    · simp only [Exec.onInts, ArithOp.onInts, quotient, h, if_false]
      exact .pure _
  | rem =>
    by_cases h : r = 0
    · simp only [Exec.onInts, ArithOp.onInts, h, if_true]
      exact .trap _
    · simp only [Exec.onInts, ArithOp.onInts, remainder, h, if_false]
      exact .pure _

theorem arith_follows (op : ArithOp) (left right : Value) :
    Follows x (Kept x Value) (Exec.arith op left right)
      (ScriptEngine.Exec.lift (op.apply left right)) := by
  unfold Exec.arith
  split
  case h_1 l r => exact onInts_follows op l r
  case h_2 => exact lift_follows _

/-- An index that means a position means one inside the container. -/
theorem position_lt {container : String} {length i : Nat} {index : Value}
    (h : Value.position container length index = .ok i) : i < length := by
  cases index with
  | int n =>
    simp only [Value.position] at h
    split at h
    · cases h
      rename_i hn
      simp only [Bool.and_eq_true, decide_eq_true_eq] at hn
      omega
    · cases h
  | _ => cases h

theorem element_follows (container index : Value) :
    Follows x (Kept x Value) (Exec.element container index)
      (ScriptEngine.Exec.lift (container.element index)) := by
  unfold Exec.element
  split
  case h_1 items =>
    simp only [Value.element]
    cases h : Value.position "array" items.length index with
    | error t => exact .trap t
    | ok i =>
      have hi : i < items.length := position_lt h
      simp only [Exec.lift, pure_bind]
      rw [read_eq (by simpa using hi)]
      have hget : items.getD i .undefined = items[i] := by simp [hi]
      simp only [bind, Except.bind, pure, Except.pure, hget]
      exact .pure _
  case h_2 s =>
    simp only [Value.element]
    cases h : Value.position "string" s.length index with
    | error t => exact .trap t
    | ok i =>
      have hi : i < s.toList.length := by
        rw [String.length_toList]
        exact position_lt h
      simp only [Exec.lift, pure_bind]
      rw [read_eq (by simpa using hi)]
      have hget : (s.toList[i]?.map Value.char).getD .undefined = .char s.toList[i] := by
        simp [List.getElem?_eq_getElem hi]
      simp only [bind, Except.bind, pure, Except.pure, hget]
      exact .pure _
  case h_3 => exact lift_follows _

theorem replaceElement_follows (container index value : Value) :
    Follows x (Kept x Value) (Exec.replaceElement container index value)
      (ScriptEngine.Exec.lift (container.replaceElement index value)) := by
  unfold Exec.replaceElement
  split
  case h_1 items =>
    simp only [Value.replaceElement]
    cases h : Value.position "array" items.length index with
    | error t => exact .trap t
    | ok i =>
      have hi : i < items.length := position_lt h
      simp only [Exec.lift, pure_bind]
      rw [write_eq (by simpa using hi)]
      simp only [bind, Except.bind, pure, Except.pure]
      have hset : (items.toArray.setIfInBounds i value).toList = items.set i value := by simp
      rw [← hset]
      exact .pure _
  case h_2 => exact lift_follows _

end ScriptEngine.Checked
