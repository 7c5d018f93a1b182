import ScriptEngine.Proofs.Layout.Flow
import ScriptEngine.Proofs.Machine.Execute
import ScriptEngine.Proofs.Value.Functions
/-!
What holds of a machine between two steps. Each frame runs a laid out body, and on the stack lie its
slots and as many operands as the code before its next instruction leaves. A frame that waits for
another has its operands below the callee, whose result it will get in the callee's place.
-/
namespace ScriptEngine

open Encoding

namespace Image

section Definitions

variable (L : Image)

/-- A function of the program that captures so many values. -/
def Entry (r : Routine) (captured : Nat) : Prop :=
  L.Callable r captured ∧ ∃ id, .function id r ∈ L.pool

/-- A function that the program may call. -/
def Own : Value → Prop
  | .function _ r => L.Entry r 0
  | .closure _ r free => L.Entry r free.length
  | _ => True

/-- A body whose code is sound, with offsets of two bytes. -/
structure Upright (R : Body) (whole : List Stmt) : Prop where
  narrow : Narrow R
  small : R.code.size < Compile.maxCodeSize
  tiled : R.Tiled (L.Sound R whole) 0 R.code.size

/-- What may be relied on in any run of a program. -/
structure Runs (main : Body) (text : List Stmt) : Prop where
  modules : ∀ key f, L.modules key = some f → L.ModuleAt key f
  cells : L.cells ≤ Compile.maxGlobals
  main : L.Upright main text
  functions : ∀ id r, .function id r ∈ L.pool → r.code.size < Compile.maxCodeSize
  attrs : ∀ name, ∀ e ∈ L.attrs name, e.2.Plain

/-- A frame that runs a body, with the stack up to `top` when its next instruction starts. -/
structure Active (R : Body) (whole : List Stmt) (f : Frame) (top : Nat) : Prop where
  routine : R.routine = f.routine
  upright : L.Upright R whole
  captured : f.free.length = R.captured.length
  free : ∀ v ∈ f.free, v.Only L.Own
  bound : R.Bound f.ip
  top : (top : Int) = f.base + R.locals + R.rise f.ip

variable (main : Body) (text : List Stmt)

/-- Frames that wait for one another, the innermost first. -/
inductive Chain : List Frame → Nat → Prop where
  | main {f : Frame} {top : Nat} (h : L.Active main text f top) (hbase : f.base = 0) :
    Chain [f] top
  | call {R : Body} {whole : List Stmt} {f g : Frame} {frames : List Frame} {top : Nat}
    (h : L.Active R whole f top) (htext : L.IsText R whole) (hbase : 0 < f.base)
    (rest : Chain (g :: frames) f.base) : Chain (f :: g :: frames) top

/-- What also holds of a machine that has halted. -/
structure Settled (m : Machine) : Prop where
  cells : L.cells ≤ m.globals.size
  globals : ∀ i v, m.globals.get? i = some v → v.Only L.Own

/-- What holds of a machine between two steps. -/
structure Sane (m : Machine) : Prop extends L.Settled m where
  stack : ∀ v ∈ m.stack, v.Only L.Own
  chain : L.Chain main text (m.frame :: m.callers.toList.reverse) m.stack.size

end Definitions

end Image

namespace Machine

/-- A machine whose frame has left alone what lies below it. -/
structure Keeps (m m' : Machine) : Prop where
  callers : m'.callers = m.callers
  base : m'.frame.base = m.frame.base
  routine : m'.frame.routine = m.frame.routine
  free : m'.frame.free = m.frame.free
  below : ∀ k < m.frame.base, m'.stack[k]? = m.stack[k]?

/-- What a step may do to frames and to the stack below them: go on in the frame, enter a function
that lies among the frame's operands, or end the frame with one value in place of its function and
slots. -/
inductive Succeeds (m m' : Machine) : Prop where
  | stay (h : m.Keeps m')
  | call {s args : Array Value} {callee : Value} (hstack : m.stack = s.push callee ++ args)
    (hplace : m.frame.base ≤ s.size)
    (hcallers : m'.callers =
      m.callers.push { m.frame with ip := m.frame.ip + Opcode.call.size })
    (hbase : m'.frame.base = s.size + 1)
    (hbelow : ∀ k ≤ s.size + args.size, m'.stack[k]? = m.stack[k]?)
  | back {v : Value} (hcallers : m.callers = m'.callers.push m'.frame)
    (hroom : m.frame.base - 1 ≤ m.stack.size)
    (hstack : m'.stack = (m.stack.extract 0 (m.frame.base - 1)).push v)

end Machine

namespace Image

variable {L : Image} {main : Body} {text : List Stmt} {m₀ m m' : Machine} {top : Nat} {v : Value}
  {e : Except Trap Value} {R : Body} {whole : List Stmt} {f g : Frame} {frames : List Frame}

/-- What an instruction may come to that has been started in a machine. -/
def Fine (L : Image) (main : Body) (text : List Stmt) (m₀ : Machine) : Done → Prop
  | .ok .proceed m => L.Sane main text m ∧ m.globals.size = m₀.globals.size ∧ m₀.Succeeds m
  | .ok .finish m => L.Settled m ∧ m.globals.size = m₀.globals.size
  | .error h m => L.Settled m ∧ m.globals.size = m₀.globals.size ∧
    ∀ t, h = .trap t → t.isInvalid = false

/-- A machine in the middle of an instruction, which would be sane with the stack up to `top`. -/
structure Poised (L : Image) (main : Body) (text : List Stmt) (m₀ m : Machine) (top : Nat) :
    Prop extends L.Settled m, m₀.Keeps m where
  stack : ∀ v ∈ m.stack, v.Only L.Own
  chain : L.Chain main text (m.frame :: m.callers.toList.reverse) top
  room : m₀.frame.base ≤ m.stack.size
  size : m.globals.size = m₀.globals.size

theorem Poised.settled (h : L.Poised main text m₀ m top) : L.Settled m := h.toSettled

/-- Other parts of a machine play no role. -/
theorem Poised.congr (h : L.Poised main text m₀ m top) (hglobals : m'.globals = m.globals)
    (hstack : m'.stack = m.stack) (hframe : m'.frame = m.frame) (hcallers : m'.callers = m.callers) :
    L.Poised main text m₀ m' top := by
  obtain ⟨⟨hc, hg⟩, ⟨h₁, h₂, h₃, h₄, h₅⟩, hs, hchain, hroom, hsize⟩ := h
  refine ⟨⟨?_, ?_⟩, ⟨?_, ?_, ?_, ?_, ?_⟩, ?_, ?_, ?_, ?_⟩ <;>
    simp only [hglobals, hstack, hframe, hcallers] <;> assumption

theorem Poised.proceed (h : L.Poised main text m₀ m m.stack.size) :
    L.Fine main text m₀ (.ok .proceed m) :=
  ⟨⟨h.settled, h.stack, h.chain⟩, h.size, .stay h.toKeeps⟩

theorem Poised.error (h : L.Poised main text m₀ m top) {t : Trap} (ht : t.isInvalid = false) :
    L.Fine main text m₀ (.error (.trap t) m) :=
  ⟨h.settled, h.size, fun u hu => by
    cases hu
    exact ht⟩

theorem Poised.push (h : L.Poised main text m₀ m top) (hv : v.Only L.Own) :
    L.Poised main text m₀ { m with stack := m.stack.push v } top where
  cells := h.cells
  globals := h.globals
  callers := h.callers
  base := h.base
  routine := h.routine
  free := h.free
  below k hk := by
    have hroom := h.room
    have hne : k ≠ m.stack.size := by omega
    simp only [Array.getElem?_push, hne, if_false]
    exact h.below k hk
  stack w hw := by
    rcases Array.mem_push.mp hw with hw | rfl
    · exact h.stack w hw
    · exact hv
  chain := h.chain
  room := by
    have hroom := h.room
    simp only [Array.size_push]
    omega
  size := h.size

theorem Poised.pushed (h : L.Poised main text m₀ m (m.stack.size + 1)) (hv : v.Only L.Own) :
    L.Fine main text m₀ (m.pushed v) := by
  unfold Machine.pushed
  split
  · exact h.error rfl
  · have hpush := h.push hv
    rw [show m.stack.size + 1 = (m.stack.push v).size by simp] at hpush
    exact hpush.proceed

theorem Poised.paid (h : L.Poised main text m₀ m (m.stack.size + 1)) (hv : v.Only L.Own) :
    L.Fine main text m₀ (m.paid v) := by
  unfold Machine.paid
  split
  · exact h.pushed hv
  · exact h.error rfl
  · rename_i left _
    have hpaid : L.Poised main text m₀ { m with budget := some left } (m.stack.size + 1) :=
      h.congr rfl rfl rfl rfl
    exact hpaid.pushed hv

theorem Poised.yielded (h : L.Poised main text m₀ m (m.stack.size + 1))
    (he : Computes L.Own e) : L.Fine main text m₀ (m.yielded e) := by
  cases e with
  | ok v => exact h.paid (he.only v rfl)
  | error t => exact h.error (he.trap t rfl)

theorem Poised.looked (h : L.Poised main text m₀ m (m.stack.size + 1))
    (he : Computes L.Own e) : L.Fine main text m₀ (m.looked e) := by
  cases e with
  | ok v => exact h.pushed (he.only v rfl)
  | error t => exact h.error (he.trap t rfl)

end Image

end ScriptEngine
