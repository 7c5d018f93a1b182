import ScriptEngine.Proofs.Layout.Emitted
import ScriptEngine.Proofs.Layout.Rows
/-!
What laid out code looks like without its syntax tree: a row of instructions whose operands refer to
what is there, whose jumps lead to instructions, and which find their operands on the stack. The
number of operands before an instruction is the sum of what the instructions before it add and take.
-/
namespace ScriptEngine

open Encoding

namespace Instruction

/-- How many operands an instruction takes off the stack at least. -/
def takes : Instruction → Nat
  | ⟨.pop, _, _⟩ | ⟨.negate, _, _⟩ | ⟨.not, _, _⟩ | ⟨.jumpFalsy, _, _⟩ | ⟨.andJump, _, _⟩
  | ⟨.orJump, _, _⟩ | ⟨.setGlobal, _, _⟩ | ⟨.setLocal, _, _⟩ => 1
  | ⟨.arith _, _, _⟩ | ⟨.equal, _, _⟩ | ⟨.notEqual, _, _⟩ | ⟨.order _, _, _⟩ | ⟨.index, _, _⟩ => 2
  | ⟨.setIndex, _, _⟩ => 3
  | ⟨.array, n, _⟩ => n
  | ⟨.map, n, _⟩ => 2 * n
  | ⟨.call, n, _⟩ => n + 1
  | ⟨.closure, _, n⟩ => n
  | ⟨.ret, n, _⟩ => if n = 1 then 1 else 0
  | _ => 0

/-- How many operands an instruction puts on the stack if the next one is carried out next. -/
def gives : Instruction → Nat
  | ⟨.pop, _, _⟩ | ⟨.jump, _, _⟩ | ⟨.jumpFalsy, _, _⟩ | ⟨.andJump, _, _⟩ | ⟨.orJump, _, _⟩
  | ⟨.setGlobal, _, _⟩ | ⟨.setLocal, _, _⟩ | ⟨.ret, _, _⟩ | ⟨.suspend, _, _⟩ => 0
  | _ => 1

def effect (i : Instruction) : Int := i.gives - i.takes

end Instruction

/-- Operands on the stack before the item at an offset. -/
def riseOf : List Item → Nat → Int
  | [], _ => 0
  | i :: rest, p => if p < i.size then 0 else i.instruction.effect + riseOf rest (p - i.size)

theorem riseOf_extent (pre post : List Item) :
    riseOf (pre ++ post) (extent Item.size pre) = (pre.map fun i => i.instruction.effect).sum := by
  induction pre with
  | nil =>
    cases post with
    | nil => rfl
    | cons i rest => simp [riseOf, i.size_pos]
  | cons i rest ih =>
    have hlt : ¬ i.size + extent Item.size rest < i.size := by omega
    simp [riseOf, hlt, ih]

namespace Body

/-- An instruction starts here, or the code ends. -/
def Bound (R : Body) (p : Nat) : Prop := Boundary Item.size R.code.toList p

/-- Operands on the stack before the instruction at an offset. -/
def rise (R : Body) (p : Nat) : Int := riseOf R.code.toList p

theorem rise_zero (R : Body) : R.rise 0 = 0 := by
  unfold rise
  cases R.code.toList with
  | nil => rfl
  | cons i rest => simp [riseOf, i.size_pos]

/-- An instruction starts here or the code ends, and there are no operands. -/
def Clear (R : Body) (p : Nat) : Prop := R.Bound p ∧ R.rise p = 0

/-- Instructions of one kind fill the code between two offsets. -/
inductive Tiled (R : Body) (P : Nat → Instruction → Prop) : (p q : Nat) → Prop where
  | nil (p : Nat) : Tiled R P p p
  | cons {pos : Option Pos} {op : Opcode} {a b p m q : Nat} (h : R.Has pos op a b p m)
      (hP : P p ⟨op, a, b⟩) (rest : Tiled R P m q) : Tiled R P p q

variable {R : Body} {P : Nat → Instruction → Prop} {pos : Option Pos} {op : Opcode}
  {a b p m q : Nat}

theorem Tiled.append (h : R.Tiled P p m) (h' : R.Tiled P m q) : R.Tiled P p q := by
  induction h with
  | nil => exact h'
  | cons hhas hP _ ih => exact .cons hhas hP (ih h')

theorem Has.tiled (h : R.Has pos op a b p q) (hP : P p ⟨op, a, b⟩) : R.Tiled P p q :=
  .cons h hP (.nil q)

theorem Has.lt (h : R.Has pos op a b p q) : p < q := by
  have := op.size_pos
  have := h.2
  omega

theorem Has.bound (h : R.Has pos op a b p q) : R.Bound q := by
  rw [h.2]
  exact boundary_next Item.size_pos h.1

theorem Has.rise (h : R.Has pos op a b p q) :
    R.rise q = R.rise p + Instruction.effect ⟨op, a, b⟩ := by
  obtain ⟨pre, post, hcode, rfl⟩ := (placed_eq_some Item.size_pos).mp h.1
  have hq : q = extent Item.size (pre ++ [.plain ⟨op, a, b⟩ pos]) := by
    rw [h.2]
    simp [Item.size, Item.instruction, Instruction.size]
  have hnext : R.code.toList = (pre ++ [.plain ⟨op, a, b⟩ pos]) ++ post := by simp [hcode]
  rw [hq]
  unfold Body.rise
  rw [show riseOf R.code.toList (extent Item.size pre) = _ by rw [hcode, riseOf_extent], hnext,
    riseOf_extent]
  simp [Item.instruction]

/-- In code that is tiled throughout every item is an instruction of that kind. -/
theorem Tiled.at? (h : R.Tiled P p q) {x : Nat} {i : Item} (hx : R.code.at? x = some i)
    (hp : p ≤ x) (hq : x < q) : ∃ j pos, i = .plain j pos ∧ P x j := by
  induction h with
  | nil => omega
  | @cons pos op a b p m q hhas hP _ ih =>
    by_cases hm : m ≤ x
    · exact ih hm hq
    · by_cases he : p = x
      · subst he
        rw [hhas.1] at hx
        exact ⟨_, pos, by simpa using hx.symm, hP⟩
      · have hin : placed Item.size R.code.toList x = none :=
          placed_inside hhas.1 (by omega) (by
            have := hhas.2
            simp only [Item.size, Item.instruction, Instruction.size]
            omega)
        rw [Code.at?, hin] at hx
        simp at hx

/-- Where the jumps of an open loop lead from code that ends at an offset: to instructions further
on, with no operands left. -/
def Open (R : Body) (J : Option (Nat × Nat)) (q : Nat) : Prop :=
  ∀ loopEnd lastPart, J = some (loopEnd, lastPart) → q ≤ lastPart ∧ lastPart ≤ loopEnd ∧
    loopEnd ≤ Compile.maxCodeSize ∧ R.Bound lastPart ∧ R.Bound loopEnd ∧ R.rise lastPart = 0 ∧
    R.rise loopEnd = 0

theorem Open.mono {J : Option (Nat × Nat)} (h : R.Open J q) (hm : m ≤ q) : R.Open J m :=
  fun loopEnd lastPart hJ =>
    have ⟨hq, rest⟩ := h loopEnd lastPart hJ
    ⟨Nat.le_trans hm hq, rest⟩

end Body

/-- Whether an operation's operand is a place in the code. -/
def Opcode.isJump : Opcode → Bool
  | jump | jumpFalsy | andJump | orJump => true
  | _ => false

/-- Whether an operation's operand is a global slot. -/
def Opcode.isGlobal : Opcode → Bool
  | getGlobal | setGlobal => true
  | _ => false

/-- Whether an operation works on two values and has no operands of its own. -/
def Opcode.isPair : Opcode → Bool
  | arith _ | equal | notEqual | order _ | index => true
  | _ => false

namespace Image

variable (L : Image) (R : Body) (whole : List Stmt)

/-- A function that captures so many values is laid out. -/
def Callable (r : Routine) (captured : Nat) : Prop :=
  ∃ R : Body, R.routine = r ∧ R.captured.length = captured ∧ L.Defines R

/-- A constant that code may load as it is. -/
def Loadable : Value → Prop
  | .function _ r => L.Callable r 0
  | v => L.Constant v

/-- What the operands of an instruction name is there. -/
def Refers : Instruction → Prop
  | ⟨.constant, k, _⟩ => ∃ v, L.pool[k]? = some v ∧ L.Loadable v
  | ⟨.closure, k, n⟩ => ∃ id r, L.pool[k]? = some (.function id r) ∧ L.Callable r n
  | ⟨.getGlobal, i, _⟩ | ⟨.setGlobal, i, _⟩ => i < L.cells
  | ⟨.getLocal, i, _⟩ | ⟨.setLocal, i, _⟩ => i < R.locals
  | ⟨.getBuiltin, i, _⟩ => i < Builtin.all.size
  | ⟨.getFree, i, _⟩ => i < R.captured.length
  | ⟨.ret, n, _⟩ => n ≤ 1
  | _ => True

/-- A jump leads where it is meant to: forward to an instruction that finds as many operands as
there are, or back to the start of a loop that it ends. -/
def Leads (p : Nat) : Instruction → Prop
  | ⟨.jump, t, _⟩ => R.Bound t ∧ t ≤ Compile.maxCodeSize ∧ R.rise t = R.rise p ∧
    L.Aims R whole p t .jump ∧ (p < t ∨ L.Repeats R whole p t)
  | ⟨.jumpFalsy, t, _⟩ => R.Bound t ∧ t ≤ Compile.maxCodeSize ∧ R.rise t = R.rise p - 1 ∧
    L.Aims R whole p t .jumpFalsy ∧ p < t
  | ⟨.andJump, t, _⟩ => R.Bound t ∧ t ≤ Compile.maxCodeSize ∧ R.rise t = R.rise p ∧
    L.Aims R whole p t .andJump ∧ p < t
  | ⟨.orJump, t, _⟩ => R.Bound t ∧ t ≤ Compile.maxCodeSize ∧ R.rise t = R.rise p ∧
    L.Aims R whole p t .orJump ∧ p < t
  | _ => True

/-- An instruction of laid out code. -/
structure Sound (p : Nat) (i : Instruction) : Prop where
  takes : i.takes ≤ R.rise p
  refers : L.Refers R i
  leads : L.Leads R whole p i
  fits : (i.op.isGlobal = true → L.cells ≤ Compile.maxGlobals) → i.op.isJump = false → i.Fits

/-- Code between two offsets that needs so many operands and leaves so many more. -/
structure Stretch (need : Nat) (more : Int) (p q : Nat) : Prop where
  le : p ≤ q
  bound : R.Bound p → R.Bound q
  rise : R.Bound p → R.rise q = R.rise p + more
  tiled : R.Bound p → need ≤ R.rise p → R.Tiled (L.Sound R whole) p q

/-- Code between two offsets that starts and ends without operands, sound if it stands where it is
said to. -/
structure Level (ctx : Prop) (J : Option (Nat × Nat)) (p q : Nat) : Prop where
  le : p ≤ q
  bound : R.Bound p → R.Bound q
  rise : R.Bound p → R.rise q = R.rise p
  tiled : R.Bound p → R.rise p = 0 → R.Open J q → ctx → R.Tiled (L.Sound R whole) p q

variable {L R whole} {ctx ctx' : Prop} {need need' k : Nat} {more more' d : Int} {J : Option (Nat × Nat)} {p m q : Nat}
  {pos : Option Pos} {op : Opcode} {a b : Nat}

theorem Leads.jump {i : Instruction} (h : L.Leads R whole p i) (hop : i.op.isJump = true) :
    L.Aims R whole p i.a i.op ∧ i.a ≤ Compile.maxCodeSize ∧ R.Bound i.a ∧
      (p < i.a ∨ L.Repeats R whole p i.a) := by
  obtain ⟨op, t, b⟩ := i
  cases op
  case jump =>
    obtain ⟨hbound, hmax, _, haims, hdir⟩ := h
    exact ⟨haims, hmax, hbound, hdir⟩
  case jumpFalsy | andJump | orJump =>
    obtain ⟨hbound, hmax, _, haims, hlt⟩ := h
    exact ⟨haims, hmax, hbound, Or.inl hlt⟩
  all_goals exact absurd hop Bool.false_ne_true

theorem Stretch.seq (h : L.Stretch R whole need more p m) (h' : L.Stretch R whole need' more' m q)
    (hk : need ≤ k) (hk' : need' ≤ k + more) (hd : d = more + more') : L.Stretch R whole k d p q where
  le := Nat.le_trans h.le h'.le
  bound hp := h'.bound (h.bound hp)
  rise hp := by
    rw [h'.rise (h.bound hp), h.rise hp, hd]
    omega
  tiled hp hrise := by
    have hm := h.rise hp
    exact (h.tiled hp (by omega)).append (h'.tiled (h.bound hp) (by omega))

theorem Stretch.level (h : L.Stretch R whole 0 0 p q) (J : Option (Nat × Nat)) : L.Level R whole ctx J p q where
  le := h.le
  bound := h.bound
  rise hp := by
    rw [h.rise hp]
    omega
  tiled hp hrise _ _ := h.tiled hp (by omega)

theorem Stretch.nil : L.Stretch R whole 0 0 p p :=
  ⟨Nat.le_refl _, id, fun _ => by omega, fun _ _ => .nil p⟩

theorem Level.nil : L.Level R whole ctx J p p := Stretch.nil.level J

theorem Level.seq (h : L.Level R whole ctx J p m) (h' : L.Level R whole ctx J m q) : L.Level R whole ctx J p q where
  le := Nat.le_trans h.le h'.le
  bound hp := h'.bound (h.bound hp)
  rise hp := (h'.rise (h.bound hp)).trans (h.rise hp)
  tiled hp hrise hJ hctx := (h.tiled hp hrise (hJ.mono h'.le) hctx).append
    (h'.tiled (h.bound hp) ((h.rise hp).trans hrise) hJ hctx)

theorem Level.clear (h : L.Level R whole ctx J p q) (hp : R.Clear p) : R.Clear q :=
  ⟨h.bound hp.1, (h.rise hp.1).trans hp.2⟩

theorem Level.mono (h : L.Level R whole ctx J p q) (hctx : ctx' → ctx) :
    L.Level R whole ctx' J p q where
  le := h.le
  bound := h.bound
  rise := h.rise
  tiled hp hrise hJ h' := h.tiled hp hrise hJ (hctx h')

/-- One instruction. -/
theorem Stretch.of_has (h : R.Has pos op a b p q) (hrefers : L.Refers R ⟨op, a, b⟩)
    (hleads : R.Bound p → L.Leads R whole p ⟨op, a, b⟩)
    (hfits : (op.isGlobal = true → L.cells ≤ Compile.maxGlobals) → op.isJump = false →
      Instruction.Fits ⟨op, a, b⟩) :
    L.Stretch R whole (Instruction.takes ⟨op, a, b⟩) (Instruction.effect ⟨op, a, b⟩) p q where
  le := Nat.le_of_lt h.lt
  bound _ := h.bound
  rise _ := h.rise
  tiled hp htakes := h.tiled ⟨htakes, hrefers, hleads hp, hfits⟩

end Image

end ScriptEngine
