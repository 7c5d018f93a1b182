import ScriptEngine.Proofs.Machine.Guise
import ScriptEngine.Proofs.Renumber.Value
/-!
The machine on renumbered states. Each instruction, its constant moved, does the same there, with the
state that it leaves renumbered.
-/
namespace ScriptEngine

def Globals.renumber (moved : Array Nat) (g : Globals) : Globals :=
  ⟨g.slots.map (Option.map (Value.renumber moved))⟩

def Frame.renumber (moved : Array Nat) (f : Frame) : Frame :=
  { f with routine := f.routine.redirect moved, free := f.free.map (Value.renumber moved) }

/-- The machine with the constants moved in the code of all functions that it holds. -/
def Machine.renumber (moved : Array Nat) (m : Machine) : Machine :=
  { m with
    globals := m.globals.renumber moved
    stack := m.stack.map (Value.renumber moved)
    frame := m.frame.renumber moved
    callers := m.callers.map (Frame.renumber moved) }

namespace Globals

variable {moved : Array Nat} {g : Globals}

theorem get?_renumber (g : Globals) (i : Nat) :
    (g.renumber moved).get? i = (g.get? i).map (Value.renumber moved) := by
  simp only [get?, renumber, Array.getElem?_map]
  cases g.slots[i]? with
  | none => rfl
  | some slot => cases slot <;> rfl

theorem resize_renumber (g : Globals) (n : Nat) :
    (g.renumber moved).resize n = (g.resize n).renumber moved := by
  simp [resize, renumber]

theorem set_renumber (g : Globals) (i : Nat) (v : Value) :
    (g.renumber moved).set i (v.renumber moved) = (g.set i v).renumber moved := by
  have hsize : (g.renumber moved).slots.size = g.slots.size := Array.size_map
  unfold set
  rw [hsize, resize_renumber]
  split <;> simp [renumber]

end Globals

/-- The machine with its constants moved is the machine in a disguise. -/
def Guise.renumber (moved : Array Nat) : Guise where
  who := id
  routine r := r.redirect moved
  value := Value.renumber moved
  globals := Globals.renumber moved
  disguises := Value.disguises_renumber
  params _ := rfl
  locals _ := rfl

theorem Guise.renumber_global {moved : Array Nat} : (Guise.renumber moved).Global :=
  ⟨Globals.get?_renumber, Globals.set_renumber⟩

/-- A host that does not look at the code of functions. -/
def Host.Overlooks (moved : Array Nat) (host : Host) : Prop :=
  ∀ id name args, host.call id name (args.map (Value.renumber moved)) =
    (host.call id name args).renumber moved

/-- Where an index of a constant is after the move. -/
def movedTo (moved : Array Nat) (k : Nat) : Nat := min (moved.getD k k) 0xffff

/-- The second setting is the first with its constants moved, the good ones at least. -/
structure Setting.Moves (moved : Array Nat) (good : Nat → Prop) (x x' : Setting) : Prop where
  file : x'.bytecode.file = x.bytecode.file
  main : x'.bytecode.main = x.bytecode.main.redirect moved
  pool : ∀ k, k < 65536 → good k →
    x'.bytecode.pool[movedTo moved k]? = (x.bytecode.pool[k]?).map (Value.renumber moved)
  host : x'.host = x.host
  overlooks : x.host.Overlooks moved
  maker : x'.maker = x.maker

namespace Setting.Moves

variable {moved : Array Nat} {good : Nat → Prop} {x x' : Setting}
  (hx : Setting.Moves moved good x x')
include hx

theorem hosts : (Guise.renumber moved).Hosts x x' where
  host id name args := by
    rw [hx.host]
    refine (hx.overlooks id name args).trans ?_
    cases x.host.call id name args <;> rfl
  maker n := by
    rw [hx.maker]
    rfl

/-- An instruction that names a constant finds it where it has moved to. -/
theorem redirected {i : Instruction} (hi : i.op.loadsConstant = true → i.a < 65536)
    (hgood : i.op.loadsConstant = true → good i.a) :
    (Guise.renumber moved).Matches x x' i (i.redirect moved) where
  op := Instruction.op_redirect
  b := by
    unfold Instruction.redirect
    split <;> rfl
  plain hop := by simp [Instruction.redirect, hop]
  constant hop := by
    have hpool := hx.pool i.a (hi hop) (hgood hop)
    simp only [Instruction.redirect, hop, if_true, Nat.mod_eq_of_lt (hi hop)]
    exact hpool

end Setting.Moves

end ScriptEngine
