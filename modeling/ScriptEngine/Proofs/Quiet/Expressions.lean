import Mathlib.Data.List.Forall2
import ScriptEngine.Proofs.Layout.Flow
import ScriptEngine.Proofs.Meaning.Tree
import ScriptEngine.Proofs.Quiet.Arrival
/-!
The code of an expression without calls changes no variables. What it leaves depends on the variables
and on how many closures have been made, and on nothing else.
-/
namespace ScriptEngine

/-- The operands of the instructions between two offsets can be written without loss. -/
def Body.Fits (R : Body) (p q : Nat) : Prop :=
  ∀ {pos : Option Pos} {op : Opcode} {a b i j : Nat}, R.Has pos op a b i j → p ≤ i → j ≤ q →
    Instruction.Fits ⟨op, a, b⟩

theorem Body.Fits.part {R : Body} {p p' q q' : Nat} (h : R.Fits p q) (hp : p ≤ p') (hq : q' ≤ q) :
    R.Fits p' q' :=
  fun hhas hi hj => h hhas (Nat.le_trans hp hi) (Nat.le_trans hj hq)

/-- Instructions that fit, one after the other. -/
theorem Body.Tiled.fits {R : Body} {p q : Nat} (h : R.Tiled (fun _ i => i.Fits) p q) :
    R.Fits p q := by
  intro pos op a b i j hhas hi hj
  obtain ⟨_, _, hsame, hfits⟩ := h.at? hhas.1 hi (Nat.lt_of_lt_of_le hhas.lt hj)
  cases hsame
  exact hfits

/-- What is meant to lead somewhere is a jump to that place. -/
theorem Image.Aims.has {L : Image} {R : Body} {whole : List Stmt} {p t : Nat} {op : Opcode}
    (h : L.Aims R whole p t op) : ∃ pos q, R.Has (some pos) op t 0 p q := by
  cases h with
  | operand _ _ hjump _ | branch _ _ hjump _ | orElse _ _ hjump _ _ | behind _ hjump _
  | exit _ _ _ hjump | back _ _ hjump => exact ⟨_, _, hjump⟩
  | breakLoop h | continueLoop h =>
    obtain ⟨rest, z, -, hs⟩ := h
    simp only [Image.stmtAt] at hs
    obtain ⟨loopEnd, lastPart, hJ, hhas⟩ := hs
    cases hJ
    exact ⟨_, _, hhas⟩

/-- In a small program all operands of sound code can be written without loss. -/
theorem Body.fits_of_tiled {L : Image} {R : Body} {whole : List Stmt} {p q : Nat}
    (htiled : R.Tiled (L.Sound R whole) 0 R.code.size) (hcells : L.cells ≤ Compile.maxGlobals)
    (hsmall : R.code.size < Compile.maxCodeSize) : R.Fits p q := by
  intro pos op a b i j hhas _ _
  have hlt : i < R.code.size := by
    have hle := hhas.bound.le_extent
    rw [← Code.size_eq] at hle
    exact Nat.lt_of_lt_of_le hhas.lt hle
  obtain ⟨_, pos', hi, hsound⟩ := htiled.at? hhas.1 (Nat.zero_le _) hlt
  cases hi
  cases hop : op.isJump with
  | false => exact hsound.fits (fun _ => hcells) hop
  | true =>
    obtain ⟨haims, -, hbound, -⟩ := hsound.leads.jump hop
    obtain ⟨pos₁, j₁, hjump⟩ := haims.has
    obtain rfl : b = 0 := by
      have hsame := hhas.1.symm.trans hjump.1
      simp only [Option.some.injEq, Item.plain.injEq, Instruction.mk.injEq] at hsame
      exact hsame.1.2.2
    have hle := hbound.le_extent
    rw [← Code.size_eq] at hle
    have ha : a < 65536 := Nat.lt_of_le_of_lt hle hsmall
    cases op <;> first
      | exact absurd hop Bool.false_ne_true
      | exact ⟨ha, Nat.one_pos⟩

namespace Machine

/-- What is kept in a place that code can load from. -/
def read? (m : Machine) : Storage → Nat → Option Value
  | .global, i => some ((m.globals.get? i).getD .undefined)
  | .frame, i => m.stack[m.frame.base + i]?
  | .builtin, i => Builtin.all[i]?.map .builtin
  | .free, i => m.frame.free[i]?

/-- The code between two offsets is a single instruction, which pushes a value. -/
def Pushes (x : Setting) (m₀ : Machine) (p q : Nat) (v : Value) : Prop :=
  ∃ i : Instruction, q = p + i.size ∧
    ∀ vs m, m₀.Amid vs p m → m.advance x = .of ((m.fetched i).pushed v)

/-- The code between two offsets leaves a value, as long as the variables are those of `m₀`. The
value is told by how many closures have been made before, and so is their number afterwards. -/
def Makes (x : Setting) (m₀ : Machine) (p q : Nat) (r : Nat → Except Trap (Value × Nat)) : Prop :=
  ∀ vs m, m₀.Amid vs p m → m₀.Comes x m (r m.made)
    fun a m' => m₀.Amid (vs ++ [a.1]) q m' ∧ m'.made = a.2

/-- The code leaves so many values. -/
def MakesAll (x : Setting) (m₀ : Machine) (p q count : Nat)
    (r : Nat → Except Trap (List Value × Nat)) : Prop :=
  ∀ vs m, m₀.Amid vs p m → m₀.Comes x m (r m.made)
    fun a m' => a.1.length = count ∧ m₀.Amid (vs ++ a.1) q m' ∧ m'.made = a.2

theorem Pushes.makes {x : Setting} {m₀ : Machine} {p q : Nat} {v : Value}
    (h : m₀.Pushes x p q v) : m₀.Makes x p q fun made => .ok (v, made) := by
  obtain ⟨i, rfl, hadv⟩ := h
  intro vs m hm
  have hnone : m₀.Amid (vs ++ []) p m := by rwa [List.append_nil]
  refine (hnone.replaced (hadv vs m hm) ?_).next fun _ h' => .here h'
  have hstack : m₀.stack ++ vs.toArray = (m.fetched i).stack := hm.stack.symm
  rw [hstack]
  exact gives_pushed _ v

end Machine

/-- The value before `and` or `or` is the result. -/
def BinaryOp.stays (op : BinaryOp) (v : Value) : Bool :=
  match op with
  | or => v.isTruthy
  | _ => !v.isTruthy

/-- A machine is in a frame of a body, which has a place for every variable. -/
structure Body.Framed (R : Body) (m : Machine) : Prop where
  routine : m.frame.routine = R.routine
  free : m.frame.free.length = R.captured.length
  slots : m.frame.base + R.locals ≤ m.stack.size

/-- What a name stands for in a frame of a body. -/
def Body.value? (R : Body) (Γ : Names) (m : Machine) (y : String) : Option Value :=
  (Γ.resolve R.captured y).bind fun place => m.read? place.1 place.2

namespace Image

/-- A machine is in a frame of a body of the program that it runs. -/
structure Frames (L : Image) (R : Body) (x : Setting) (m : Machine) : Prop extends R.Framed m where
  pool : x.bytecode.pool = L.pool
  modules : ∀ key f, L.modules key = some f → L.ModuleAt key f
  narrow : Narrow R

mutual

/-- Nothing is called when the expression is evaluated. What stands in a function literal is not
evaluated then; a module of the host is imported without a call. -/
def CallFree (L : Image) : Expr → Prop
  | .lit .. | .name .. | .func .. => True
  | .array _ items => CallFreeAll L items
  | .map _ entries => CallFreeIn L entries
  | .unary _ _ e => CallFree L e
  | .binary _ _ left right => CallFree L left ∧ CallFree L right
  | .call .. => False
  | .index _ container index => CallFree L container ∧ CallFree L index
  | .field _ container _ => CallFree L container
  | .load _ name => ∃ entries, L.options.registry[name]? = some (.attrs entries)

def CallFreeAll (L : Image) : List Expr → Prop
  | [] => True
  | e :: rest => CallFree L e ∧ CallFreeAll L rest

def CallFreeIn (L : Image) : List (String × Expr) → Prop
  | [] => True
  | (_, e) :: rest => CallFree L e ∧ CallFreeIn L rest

end

open Machine Exec

variable {L : Image} {R : Body} {x : Setting} {m₀ m : Machine} {Γ : Names} {vs us : List Value}
  {p q a b : Nat} {pos : Option Pos} {op : Opcode} {u v w : Value} {r : Except Trap Value}
  {t : Trap}

section Instructions

variable (hR : L.Frames R x m₀) (hhas : R.Has pos op a b p q) (hfits : Instruction.Fits ⟨op, a, b⟩)
include hR hhas hfits

omit hfits in
/-- The next instruction is what its bytes show. -/
theorem Frames.finds (hframe : m.frame = { m₀.frame with ip := p }) :
    Instruction.at? m.frame.routine.code m.frame.ip = some (Instruction.narrow ⟨op, a, b⟩) := by
  rw [hframe]
  change Instruction.at? m₀.frame.routine.code p = _
  rw [hR.routine]
  exact Code.at?_bytes hhas.1

theorem Frames.reads (hframe : m.frame = { m₀.frame with ip := p }) :
    Instruction.at? m.frame.routine.code m.frame.ip = some ⟨op, a, b⟩ := by
  rw [hR.finds hhas hframe, Instruction.narrow_of_fits hfits]

/-- The next instruction is carried out. -/
theorem Frames.advance (h : m₀.Amid vs p m) :
    m.advance x = .of ((execute x ⟨op, a, b⟩).run (m.fetched ⟨op, a, b⟩)) :=
  advance_of_at? (hR.reads hhas hfits h.frame)

/-- An instruction that takes some operands and leaves a value for them. -/
theorem Frames.operates (h : m₀.Amid (vs ++ us) p m)
    (hgives : Gives { m.fetched ⟨op, a, b⟩ with stack := m₀.stack ++ vs.toArray } r
      ((execute x ⟨op, a, b⟩).run (m.fetched ⟨op, a, b⟩))) :
    m₀.Comes x m r fun v m' => m₀.Amid (vs ++ [v]) q m' ∧ m'.made = m.made := by
  have hnext := h.replaced (hR.advance hhas hfits h) hgives
  rwa [show p + Instruction.size ⟨op, a, b⟩ = q from hhas.2.symm] at hnext

/-- An instruction that pushes a value. -/
theorem Frames.pushes (hexec : ∀ vs (m : Machine), m₀.Amid vs p m →
      (execute x ⟨op, a, b⟩).run (m.fetched ⟨op, a, b⟩) = (m.fetched ⟨op, a, b⟩).pushed v) :
    m₀.Pushes x p q v :=
  ⟨⟨op, a, b⟩, hhas.2, fun vs m h => by rw [hR.advance hhas hfits h, hexec vs m h]⟩

end Instructions

/-- A global cell is read. Its number is cut to two bytes. -/
theorem Frames.pushes_cell (hR : L.Frames R x m₀) (hhas : R.Has pos .getGlobal a 0 p q) :
    m₀.Pushes x p q ((m₀.globals.get? (a % 65536)).getD .undefined) := by
  refine ⟨⟨.getGlobal, a % 65536, 0⟩, hhas.2, fun vs m h => ?_⟩
  rw [← h.globals]
  exact (advance_of_at? (hR.finds hhas h.frame)).trans (congrArg Advance.of execute_getGlobal)

theorem constantAt.le {pos : Pos} (h : L.constantAt R pos v p q) : p ≤ q := by
  obtain ⟨k, -, -, hhas⟩ := h
  exact Nat.le_of_lt hhas.lt

section Loads

variable {pos : Pos} {y : String} {names : List String} (hR : L.Frames R x m₀)
include hR

theorem constantAt.pushes (hat : L.constantAt R pos v p q) : m₀.Pushes x p q v := by
  obtain ⟨k, hk, hpool, hhas⟩ := hat
  refine hR.pushes hhas ⟨hk, Nat.one_pos⟩ fun vs m h => execute_constant ?_
  rw [hR.pool]
  exact hpool

theorem literalAt.pushes {l : Literal} (hat : L.literalAt R pos l p q) :
    m₀.Pushes x p q l.value := by
  cases l with
  | undefined => exact hR.pushes hat ⟨Nat.one_pos, Nat.one_pos⟩ fun _ _ _ => execute_undefined
  | bool b =>
    cases b with
    | false => exact hR.pushes hat ⟨Nat.one_pos, Nat.one_pos⟩ fun _ _ _ => execute_pushFalse
    | true => exact hR.pushes hat ⟨Nat.one_pos, Nat.one_pos⟩ fun _ _ _ => execute_pushTrue
  | int n => exact constantAt.pushes hR hat
  | float n => exact constantAt.pushes hR hat
  | char c => exact constantAt.pushes hR hat
  | string text => exact constantAt.pushes hR hat

/-- Every place that code refers to has a value. -/
theorem Frames.read {storage : Storage} {i : Nat} (hwithin : L.Within R storage i) :
    ∃ v, m₀.read? storage i = some v := by
  cases storage with
  | global => exact ⟨_, rfl⟩
  | frame =>
    have hlt : m₀.frame.base + i < m₀.stack.size := by
      have hi : i < R.locals := hwithin
      have hslots := hR.slots
      omega
    exact ⟨_, Array.getElem?_eq_getElem hlt⟩
  | builtin =>
    have hlt : i < Builtin.all.size := hwithin
    exact ⟨_, congrArg (Option.map Value.builtin) (Array.getElem?_eq_getElem hlt)⟩
  | free =>
    have hlt : i < m₀.frame.free.length := hR.free ▸ hwithin
    exact ⟨_, List.getElem?_eq_getElem hlt⟩

/-- So has every name that code loads. -/
theorem loadAt.value (hat : L.loadAt R Γ pos y p q) : ∃ v, R.value? Γ m₀ y = some v := by
  obtain ⟨storage, i, hres, hwithin, -⟩ := hat
  rw [Body.value?, hres]
  exact hR.read hwithin

/-- A name is loaded from where it is kept. -/
theorem loadAt.pushes (hv : R.value? Γ m₀ y = some v) (hat : L.loadAt R Γ pos y p q)
    (hfits : R.Fits p q) : m₀.Pushes x p q v := by
  obtain ⟨storage, i, hres, -, hhas⟩ := hat
  have hfit := hfits hhas (Nat.le_refl _) (Nat.le_refl _)
  have hread : m₀.read? storage i = some v := by
    rwa [Body.value?, hres] at hv
  cases storage with
  | global =>
    cases hread
    have hcell : i % 65536 = i := Nat.mod_eq_of_lt hfit.1
    rw [← hcell]
    exact hR.pushes_cell hhas
  | frame =>
    obtain ⟨hlt, hget⟩ := Array.getElem?_eq_some_iff.mp hread
    refine hR.pushes hhas hfit fun vs m h => ?_
    have hbase : (m.fetched ⟨Storage.frame.load, i, 0⟩).frame.base = m₀.frame.base := by
      simp only [fetched, h.frame]
    have hstack : (m.fetched ⟨Storage.frame.load, i, 0⟩).stack = m₀.stack ++ vs.toArray := h.stack
    refine (execute_getLocal ?_).trans ?_
    · rw [hbase, hstack, Array.size_append]
      omega
    · rw [hbase, hstack, Array.getD_eq_getD_getElem?, Array.getElem?_append_left hlt,
        Array.getElem?_eq_getElem hlt, hget]
      rfl
  | builtin =>
    obtain ⟨b, hget, rfl⟩ := Option.map_eq_some_iff.mp hread
    exact hR.pushes hhas hfit fun _ _ _ => execute_getBuiltin hget
  | free =>
    refine hR.pushes hhas hfit fun vs m h => execute_getFree ?_
    simp only [fetched, h.frame]
    exact hread

/-- Names are loaded one after the other. -/
theorem loadsAt.makes (hat : L.loadsAt R Γ pos names p q) (hfits : R.Fits p q) :
    ∃ vs, List.Forall₂ (fun y v => R.value? Γ m₀ y = some v) names vs ∧
      m₀.MakesAll x p q names.length fun made => .ok (vs, made) := by
  induction names generalizing p with
  | nil =>
    obtain rfl : p = q := hat
    exact ⟨[], .nil, fun vs m h => .here ⟨rfl, by rwa [List.append_nil], rfl⟩⟩
  | cons y rest ih =>
    obtain ⟨k, hy, hrest⟩ := hat
    have hfirst : L.Stretch R [] 0 1 p k := loadAt.stretch hR.narrow hy
    have hothers : L.Stretch R [] 0 rest.length k q := loadsAt.stretch hR.narrow hrest
    obtain ⟨v, hv⟩ := loadAt.value hR hy
    have hmake := (loadAt.pushes hR hv hy (hfits.part (Nat.le_refl _) hothers.le)).makes
    obtain ⟨vs, hvs, hmakes⟩ := ih hrest (hfits.part hfirst.le (Nat.le_refl _))
    refine ⟨v :: vs, .cons hv hvs, fun us m h => ?_⟩
    refine (hmake us m h).next fun m₁ ⟨h₁, hmade₁⟩ => ?_
    refine (hmakes _ m₁ h₁).next fun m₂ ⟨hlength, h₂, hmade₂⟩ =>
      .here ⟨congrArg (· + 1) hlength, ?_, hmade₂.trans hmade₁⟩
    rwa [List.append_assoc] at h₂

/-- A function is a constant or, if it captures variables, a new closure over their values. -/
theorem functionAt.makes {id : FunctionId} {routine : Routine} {k : Nat}
    (hk : k < Compile.maxConstants) (hcount : names.length ≤ Compile.maxArgs)
    (hpool : L.pool[k]? = some (.function id routine)) (hat : L.functionAt R Γ pos k names p q)
    (hfits : R.Fits p q) :
    (names = [] ∧ m₀.Makes x p q fun made => .ok (.function id routine, made)) ∨
      ∃ free, List.Forall₂ (fun y v => R.value? Γ m₀ y = some v) names free ∧
        m₀.Makes x p q fun made => .ok (.closure ⟨x.maker, made⟩ routine free, made + 1) := by
  rw [← hR.pool] at hpool
  cases names with
  | nil =>
    refine .inl ⟨rfl, Machine.Pushes.makes ?_⟩
    exact hR.pushes hat ⟨hk, Nat.one_pos⟩ fun _ _ _ => execute_constant hpool
  | cons y rest =>
    obtain ⟨l, hloads, hclose⟩ := hat
    have hlt := hclose.lt
    obtain ⟨free, hfree, hmakes⟩ :=
      loadsAt.makes hR hloads (hfits.part (Nat.le_refl _) (Nat.le_of_lt hlt))
    have hfit : Instruction.Fits ⟨.closure, k, (y :: rest).length⟩ :=
      ⟨hk, Nat.lt_of_le_of_lt hcount (show Compile.maxArgs < 256 by decide)⟩
    refine .inr ⟨free, hfree, fun vs m h => (hmakes vs m h).next fun m₁ ⟨hlength, h₁, hmade⟩ => ?_⟩
    have hadv := hR.advance hclose hfit h₁
    rw [execute_closure hpool h₁.topMany (by simpa using hlength)] at hadv
    refine (h₁.closes hadv).next fun m₂ h₂ => .here ?_
    rw [hmade, show l + Instruction.size ⟨.closure, k, (y :: rest).length⟩ = q from
      hclose.2.symm] at h₂
    exact h₂

end Loads

section Operators

theorem unary_gives (op : UnaryOp) : ∃ f : Value → Except Trap Value, ∀ (m : Machine) s v,
    m.stack = s.push v →
      Gives { m with stack := s } (f v) ((execute x ⟨op.opcode, 0, 0⟩).run m) := by
  cases op with
  | neg =>
    refine ⟨Value.negate, fun m s v h => ?_⟩
    rw [show UnaryOp.neg.opcode = .negate from rfl, execute_negate h]
    exact gives_yielded _ _
  | not =>
    refine ⟨fun v => .ok (.bool !v.isTruthy), fun m s v h => ?_⟩
    rw [show UnaryOp.not.opcode = .not from rfl, execute_not h]
    exact gives_pushed _ _

theorem index_gives (m : Machine) (s : Array Value) (v w : Value)
    (h : m.stack = (s.push v).push w) :
    Gives { m with stack := s } (v.element w) ((execute x ⟨.index, 0, 0⟩).run m) :=
  execute_index h ▸ gives_looked _ _

theorem pair_gives {op : Opcode} (hop : op.isPair = true) :
    ∃ f : Value → Value → Except Trap Value, ∀ (m : Machine) s v w,
      m.stack = (s.push v).push w →
        Gives { m with stack := s } (f v w) ((execute x ⟨op, 0, 0⟩).run m) := by
  cases op with
  | arith op =>
    exact ⟨op.apply, fun m s v w h => execute_arith h ▸ gives_yielded _ _⟩
  | order c =>
    exact ⟨c.apply, fun m s v w h => execute_order h ▸ gives_yielded _ _⟩
  | equal =>
    exact ⟨fun v w => .ok (.bool (v.same w)), fun m s v w h => execute_equal h ▸ gives_pushed _ _⟩
  | notEqual =>
    exact ⟨fun v w => .ok (.bool !v.same w),
      fun m s v w h => execute_notEqual h ▸ gives_pushed _ _⟩
  | index => exact ⟨Value.element, index_gives⟩
  | _ => exact absurd hop Bool.false_ne_true

/-- After the value before `and` or `or` the run goes on behind the operation, or the value makes
room for the one behind. -/
theorem Frames.shortCircuits (hR : L.Frames R x m₀) {stay : Bool}
    (hop : op = .andJump ∧ stay = !v.isTruthy ∨ op = .orJump ∧ stay = v.isTruthy)
    (hhas : R.Has pos op a 0 p q) (hfit : Instruction.Fits ⟨op, a, 0⟩)
    (h : m₀.Amid (vs ++ [v]) p m) : ∃ m', m.advance x = .next m' ∧ m'.made = m.made ∧
      if stay then m₀.Amid (vs ++ [v]) a m' else m₀.Amid vs q m' := by
  have hadv := hR.advance hhas hfit h
  have hstays : m₀.Amid (vs ++ [v]) a ((m.fetched ⟨op, a, 0⟩).jumped a) :=
    ⟨h.globals, h.callers, h.signals, by simp only [jumped, fetched, h.frame], h.stack⟩
  have hleaves : m₀.Amid vs q { m.fetched ⟨op, a, 0⟩ with stack := m₀.stack ++ vs.toArray } :=
    ⟨h.globals, h.callers, h.signals, by
      simp only [fetched, h.frame, hhas.2, Instruction.size], rfl⟩
  rcases hop with ⟨rfl, rfl⟩ | ⟨rfl, rfl⟩
  · rw [execute_andJump h.top] at hadv
    cases hv : v.isTruthy with
    | true =>
      rw [hv] at hadv
      exact ⟨_, hadv, rfl, hleaves⟩
    | false =>
      rw [hv] at hadv
      exact ⟨_, hadv, rfl, hstays⟩
  · rw [execute_orJump h.top] at hadv
    cases hv : v.isTruthy with
    | true =>
      rw [hv] at hadv
      exact ⟨_, hadv, rfl, hstays⟩
    | false =>
      rw [hv] at hadv
      exact ⟨_, hadv, rfl, hleaves⟩

end Operators

section Expressions

variable (hR : L.Frames R x m₀)
include hR

theorem Frames.expr_le {e : Expr} (h : L.exprAt R Γ e p q) : p ≤ q :=
  have hstretch : L.Stretch R [] 0 1 p q := exprAt.stretch hR.modules hR.narrow e h
  hstretch.le

theorem Frames.exprs_le {items : List Expr} (h : L.exprsAt R Γ items p q) : p ≤ q :=
  have hstretch : L.Stretch R [] 0 items.length p q :=
    exprsAt.stretch hR.modules hR.narrow items h
  hstretch.le

theorem Frames.entries_le {pos : Pos} {entries : List (String × Expr)}
    (h : L.entriesAt R Γ pos entries p q) : p ≤ q :=
  have hstretch : L.Stretch R [] 0 (2 * entries.length) p q :=
    entriesAt.stretch hR.modules hR.narrow entries h
  hstretch.le

/-- Two values one after the other, and an instruction that takes both. -/
theorem Frames.pairs {first second : Nat → Except Trap (Value × Nat)}
    {f : Value → Value → Except Trap Value} {j k : Nat} (hfirst : m₀.Makes x p j first)
    (hsecond : m₀.Makes x j k second) (hhas : R.Has pos op 0 0 k q)
    (hfit : Instruction.Fits ⟨op, 0, 0⟩) (hf : ∀ (m : Machine) s v w,
      m.stack = (s.push v).push w →
        Gives { m with stack := s } (f v w) ((execute x ⟨op, 0, 0⟩).run m)) :
    m₀.Makes x p q fun made => do
      let (v, made) ← first made
      let (w, made) ← second made
      return (← f v w, made) := by
  intro vs m h
  refine (hfirst vs m h).bind fun ⟨v, made⟩ m₁ ⟨h₁, hmade₁⟩ => ?_
  dsimp only at h₁ hmade₁ ⊢
  rw [← hmade₁]
  refine (hsecond _ m₁ h₁).bind fun ⟨w, made⟩ m₂ ⟨h₂, hmade₂⟩ => ?_
  dsimp only at h₂ hmade₂ ⊢
  rw [List.append_assoc] at h₂
  exact (hR.operates hhas hfit h₂ (hf _ _ _ _ h₂.topTwo)).bind
    fun u m₃ ⟨h₃, hmade₃⟩ => .here ⟨h₃, hmade₃.trans hmade₂⟩

mutual

/-- The code of an expression without calls leaves a value or halts, and changes no variables. -/
theorem exprAt.makes {Γ : Names} {p q : Nat} : (e : Expr) → L.CallFree e → L.exprAt R Γ e p q →
    R.Fits p q → ∃ make, m₀.Makes x p q make
  | .lit _ l, _, hat, _ => ⟨_, (literalAt.pushes hR hat).makes⟩
  | .name _ y, _, hat, hfits => by
    obtain ⟨v, hv⟩ := loadAt.value hR hat
    exact ⟨_, (loadAt.pushes hR hv hat hfits).makes⟩
  | .array _ items, hfree, hat, hfits => by
    simp only [exprAt] at hat
    obtain ⟨-, k, hitems, hhas⟩ := hat
    have hlt := hhas.lt
    obtain ⟨make, hmake⟩ :=
      exprsAt.makes items hfree hitems (hfits.part (Nat.le_refl _) (Nat.le_of_lt hlt))
    refine ⟨fun made => do
      let (us, made) ← make made
      return (.array us, made), fun vs m h => ?_⟩
    refine (hmake vs m h).bind fun ⟨us, made⟩ m₁ ⟨hlength, h₁, hmade⟩ => ?_
    have hfit := hfits hhas (hR.exprs_le hitems) (Nat.le_refl _)
    refine (hR.operates (r := .ok (.array us)) hhas hfit h₁ ?_).next
      fun m₂ ⟨h₂, hmade₂⟩ => .here ⟨h₂, hmade₂.trans hmade⟩
    rw [execute_array h₁.topMany (by simpa using hlength)]
    exact gives_paid _ _
  | .map _ entries, hfree, hat, hfits => by
    simp only [exprAt] at hat
    obtain ⟨-, k, hentries, hhas⟩ := hat
    have hlt := hhas.lt
    obtain ⟨make, hmake⟩ :=
      entriesAt.makes entries hfree hentries (hfits.part (Nat.le_refl _) (Nat.le_of_lt hlt))
    refine ⟨fun made => do
      let (us, made) ← make made
      return (← Value.mapOf us [], made), fun vs m h => ?_⟩
    refine (hmake vs m h).bind fun ⟨us, made⟩ m₁ ⟨hlength, h₁, hmade⟩ => ?_
    have hfit := hfits hhas (hR.entries_le hentries) (Nat.le_refl _)
    refine (hR.operates (r := Value.mapOf us []) hhas hfit h₁ ?_).bind
      fun v m₂ ⟨h₂, hmade₂⟩ => .here ⟨h₂, hmade₂.trans hmade⟩
    rw [execute_map h₁.topMany (by simpa using hlength)]
    exact gives_yielded _ _
  | .unary _ op e, hfree, hat, hfits => by
    simp only [exprAt] at hat
    obtain ⟨k, he, hhas⟩ := hat
    have hlt := hhas.lt
    obtain ⟨make, hmake⟩ :=
      exprAt.makes e hfree he (hfits.part (Nat.le_refl _) (Nat.le_of_lt hlt))
    obtain ⟨f, hf⟩ := unary_gives (x := x) op
    refine ⟨fun made => do
      let (v, made) ← make made
      return (← f v, made), fun vs m h => ?_⟩
    refine (hmake vs m h).bind fun ⟨v, made⟩ m₁ ⟨h₁, hmade⟩ => ?_
    have hfit := hfits hhas (hR.expr_le he) (Nat.le_refl _)
    exact (hR.operates hhas hfit h₁ (hf _ _ _ h₁.top)).bind
      fun v m₂ ⟨h₂, hmade₂⟩ => .here ⟨h₂, hmade₂.trans hmade⟩
  | .binary _ op left right, hfree, hat, hfits => by
    simp only [exprAt] at hat
    split at hat
    · rename_i hop
      obtain ⟨-, k, j, hl, hhas, hr⟩ := hat
      have hlt := hhas.lt
      have hle := hR.expr_le hl
      have hle' := hR.expr_le hr
      obtain ⟨make, hmake⟩ := exprAt.makes left hfree.1 hl (hfits.part (Nat.le_refl _) (by omega))
      obtain ⟨other, hother⟩ :=
        exprAt.makes right hfree.2 hr (hfits.part (by omega) (Nat.le_refl _))
      refine ⟨fun made => do
        let (v, made) ← make made
        if op.stays v then return (v, made) else other made, fun vs m h => ?_⟩
      refine (hmake vs m h).bind fun ⟨v, made⟩ m₁ ⟨h₁, hmade₁⟩ => ?_
      dsimp only at h₁ hmade₁ ⊢
      have hjump : op.opcode = .andJump ∧ op.stays v = !v.isTruthy ∨
          op.opcode = .orJump ∧ op.stays v = v.isTruthy := by
        cases op with
        | or => exact .inr ⟨rfl, rfl⟩
        | and => exact .inl ⟨rfl, rfl⟩
        | equal | notEqual | order _ | arith _ => cases hop
      obtain ⟨m₂, hadv, hmade₂, hnext⟩ :=
        hR.shortCircuits hjump hhas (hfits hhas hle (by omega)) h₁
      refine .step hadv ?_
      cases hstays : op.stays v with
      | true =>
        rw [hstays] at hnext
        exact .here ⟨hnext, hmade₂.trans hmade₁⟩
      | false =>
        rw [hstays] at hnext
        rw [← hmade₁, ← hmade₂]
        exact hother vs m₂ hnext
    · rename_i hop
      obtain ⟨k, j, hl, hr, hhas⟩ := hat
      have hlt := hhas.lt
      have hle := hR.expr_le hl
      have hle' := hR.expr_le hr
      obtain ⟨make, hmake⟩ := exprAt.makes left hfree.1 hl (hfits.part (Nat.le_refl _) (by omega))
      obtain ⟨other, hother⟩ := exprAt.makes right hfree.2 hr (hfits.part (by omega) (by omega))
      have hpair : op.opcode.isPair = true := by
        cases op with
        | or | and => exact absurd rfl hop
        | equal | notEqual | order _ | arith _ => rfl
      obtain ⟨f, hf⟩ := pair_gives (x := x) hpair
      exact ⟨_, hR.pairs hmake hother hhas (hfits hhas (by omega) (Nat.le_refl _)) hf⟩
  | .call .., hfree, _, _ => hfree.elim
  | .index _ container index, hfree, hat, hfits => by
    simp only [exprAt] at hat
    obtain ⟨k, j, hc, hi, hhas⟩ := hat
    have hlt := hhas.lt
    have hle := hR.expr_le hc
    have hle' := hR.expr_le hi
    obtain ⟨make, hmake⟩ :=
      exprAt.makes container hfree.1 hc (hfits.part (Nat.le_refl _) (by omega))
    obtain ⟨other, hother⟩ := exprAt.makes index hfree.2 hi (hfits.part (by omega) (by omega))
    exact ⟨_, hR.pairs hmake hother hhas (hfits hhas (by omega) (Nat.le_refl _)) index_gives⟩
  | .field _ container y, hfree, hat, hfits => by
    simp only [exprAt] at hat
    obtain ⟨k, j, hc, hkey, hhas⟩ := hat
    have hlt := hhas.lt
    have hle := hR.expr_le hc
    have hle' := hkey.le
    obtain ⟨make, hmake⟩ :=
      exprAt.makes container hfree hc (hfits.part (Nat.le_refl _) (by omega))
    exact ⟨_, hR.pairs hmake (constantAt.pushes hR hkey).makes hhas
      (hfits hhas (by omega) (Nat.le_refl _)) index_gives⟩
  | .func _ params body, _, hat, hfits => by
    simp only [exprAt] at hat
    obtain ⟨k, R', hk, hpool, -, -, -, hsmall, -, -, hfunction⟩ := hat
    obtain ⟨-, hmake⟩ | ⟨free, -, hmake⟩ :=
      functionAt.makes hR hk hsmall.captured hpool hfunction hfits
    · exact ⟨_, hmake⟩
    · exact ⟨_, hmake⟩
  | .load _ name, ⟨entries, hentries⟩, hat, _ => by
    simp only [exprAt, importAt, hentries] at hat
    exact ⟨_, (constantAt.pushes hR hat).makes⟩

theorem exprsAt.makes {Γ : Names} {p q : Nat} : (items : List Expr) → L.CallFreeAll items →
    L.exprsAt R Γ items p q → R.Fits p q → ∃ make, m₀.MakesAll x p q items.length make
  | [], _, hat, _ => by
    simp only [exprsAt] at hat
    subst hat
    exact ⟨fun made => .ok ([], made),
      fun vs m h => .here ⟨rfl, by rwa [List.append_nil], rfl⟩⟩
  | e :: rest, hfree, hat, hfits => by
    simp only [exprsAt] at hat
    obtain ⟨k, he, hrest⟩ := hat
    obtain ⟨make, hmake⟩ :=
      exprAt.makes e hfree.1 he (hfits.part (Nat.le_refl _) (hR.exprs_le hrest))
    obtain ⟨makes, hmakes⟩ :=
      exprsAt.makes rest hfree.2 hrest (hfits.part (hR.expr_le he) (Nat.le_refl _))
    refine ⟨fun made => do
      let (v, made) ← make made
      let (us, made) ← makes made
      return (v :: us, made), fun vs m h => ?_⟩
    refine (hmake vs m h).bind fun ⟨v, made⟩ m₁ ⟨h₁, hmade₁⟩ => ?_
    dsimp only at hmade₁ ⊢
    rw [← hmade₁]
    refine (hmakes _ m₁ h₁).bind fun ⟨us, made⟩ m₂ ⟨hlength, h₂, hmade₂⟩ =>
      .here ⟨congrArg (· + 1) hlength, ?_, hmade₂⟩
    rwa [List.append_assoc] at h₂

theorem entriesAt.makes {Γ : Names} {pos : Pos} {p q : Nat} : (entries : List (String × Expr)) →
    L.CallFreeIn entries → L.entriesAt R Γ pos entries p q → R.Fits p q →
      ∃ make, m₀.MakesAll x p q (2 * entries.length) make
  | [], _, hat, _ => by
    simp only [entriesAt] at hat
    subst hat
    exact ⟨fun made => .ok ([], made),
      fun vs m h => .here ⟨rfl, by rwa [List.append_nil], rfl⟩⟩
  | (key, e) :: rest, hfree, hat, hfits => by
    simp only [entriesAt] at hat
    obtain ⟨j, k, hkey, he, hrest⟩ := hat
    have hconstant := hkey.le
    have hfirst := hR.expr_le he
    have hothers := hR.entries_le hrest
    obtain ⟨make, hmake⟩ := exprAt.makes e hfree.1 he (hfits.part hconstant hothers)
    obtain ⟨makes, hmakes⟩ :=
      entriesAt.makes rest hfree.2 hrest (hfits.part (by omega) (Nat.le_refl _))
    refine ⟨fun made => do
      let (v, made) ← make made
      let (us, made) ← makes made
      return (.string key :: v :: us, made), fun vs m h => ?_⟩
    refine ((constantAt.pushes hR hkey).makes vs m h).next fun m₁ ⟨h₁, hmade₁⟩ => ?_
    dsimp only at h₁ hmade₁
    rw [← hmade₁]
    refine (hmake _ m₁ h₁).bind fun ⟨v, made⟩ m₂ ⟨h₂, hmade₂⟩ => ?_
    dsimp only at h₂ hmade₂ ⊢
    rw [← hmade₂]
    refine (hmakes _ m₂ h₂).bind fun ⟨us, made⟩ m₃ ⟨hlength, h₃, hmade₃⟩ =>
      .here ⟨?_, ?_, hmade₃⟩
    · simp only [List.length_cons] at hlength ⊢
      omega
    · simpa using h₃

end

end Expressions

end Image

end ScriptEngine
