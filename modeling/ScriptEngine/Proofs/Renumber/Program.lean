import Mathlib.Data.List.Pairwise
import ScriptEngine.Proofs.Renumber.Run
import ScriptEngine.Proofs.Safety.Program
/-! A compiled program runs alike before and after its equal constants have been merged. -/
namespace ScriptEngine

open Encoding

namespace Bytecode

/-- Where merging moves the constants. -/
def moved (b : Bytecode) : Array Nat := (Merged.ofPool b.pool).moved

/-- Merging moves the constant at this place with all that is in it, if one is there: it is data or
a function. The functions inside arrays, maps and closures are left as they are. -/
def Movable (b : Bytecode) (k : Nat) : Prop :=
  ∀ v, b.pool[k]? = some v → v.Plain ∨ ∃ who r, v = .function who r

/-- Modules of one name are equal. -/
def Unambiguous (b : Bytecode) : Prop := ∀ name attrs attrs',
  .module name attrs ∈ b.pool → .module name attrs' ∈ b.pool → attrs = attrs'

end Bytecode

theorem Value.first_mem {xs : List Value} {v : Value} (h : v ∈ xs) : v.first xs ∈ xs := by
  unfold first
  split
  · exact h
  · rename_i key _
    cases hfind : xs.find? (ConstantKey.of? · = some key) with
    | none => exact h
    | some w => exact List.mem_of_find?_eq_some hfind

theorem Bytecode.Unambiguous.first {b : Bytecode} (h : b.Unambiguous) {v : Value}
    (hv : v ∈ b.pool) : v.first b.pool.toList = v := by
  have hmem : v.first b.pool.toList ∈ b.pool :=
    Array.mem_toList_iff.mp (Value.first_mem (Array.mem_toList_iff.mpr hv))
  cases v with
  | module name attrs =>
    have hkey := Value.of?_first b.pool.toList (.module name attrs)
    generalize (Value.module name attrs).first b.pool.toList = w at hmem hkey
    cases w with
    | module name' attrs' =>
      obtain rfl : name' = name := by simpa [ConstantKey.of?] using hkey
      rw [h name' attrs' attrs hmem hv]
    | _ => simp [ConstantKey.of?] at hkey
  | _ => exact Value.first_eq (by simp)

namespace Bytecode

variable {b : Bytecode} {v : Value} {k : Nat}

end Bytecode

theorem Value.plain_module {name : String} {attrs : List (String × Value)}
    (h : ∀ e ∈ attrs, e.2.Plain) : (module name attrs).Plain := by
  refine List.eq_nil_iff_forall_not_mem.mpr fun f hf => ?_
  obtain ⟨e, he, hfe⟩ := mem_functionsIn.mp hf
  rw [show e.2.functions = [] from h e he] at hfe
  cases hfe

namespace Image

variable {L : Image} {R : Body} {whole : List Stmt} {b : Bytecode}

/-- Data and functions are all that compiled code loads. -/
theorem Loadable.movable {v : Value} (h : L.Loadable v)
    (hattrs : ∀ name, ∀ e ∈ L.attrs name, e.2.Plain) : v.Plain ∨ ∃ who r, v = .function who r := by
  cases v with
  | function who r => exact Or.inr ⟨who, r, rfl⟩
  | module name attrs =>
    obtain rfl : attrs = L.attrs name := h
    exact Or.inl (Value.plain_module (hattrs name))
  | int | float | char | string => exact Or.inl rfl
  | _ => exact h.elim

/-- A jump leads to an instruction, or to the end, as the machine reads it. -/
theorem Sound.boundary {p : Nat} {i : Instruction} (h : L.Sound R whole p i)
    (hop : i.op.isJump = true) :
    Boundary Instruction.size R.code.instructions i.narrow.a := by
  obtain ⟨-, hmax, hbound, -⟩ := h.leads.jump hop
  have hmax : i.a ≤ 65536 := hmax
  have hnarrow : i.narrow.a = i.a % 65536 := by
    obtain ⟨op, t, n⟩ := i
    cases op <;> first | rfl | exact absurd hop Bool.false_ne_true
  rw [hnarrow]
  -- A jump past the last offset that two bytes tell comes out at the start.
  rcases Nat.lt_or_eq_of_le hmax with hlt | heq
  · rw [Nat.mod_eq_of_lt hlt]
    exact (boundary_map Item.instruction R.code.toList i.a).mpr hbound
  · rw [heq]
    exact boundary_zero

/-- A constant is data or a function, as the machine reads it. -/
theorem Sound.movable {p : Nat} {i : Instruction} (h : L.Sound R whole p i)
    (hop : i.op.loadsConstant = true) (hpool : L.pool = b.pool)
    (hattrs : ∀ name, ∀ e ∈ L.attrs name, e.2.Plain) : b.Movable i.narrow.a := by
  obtain ⟨op, k, n⟩ := i
  have hrefers := h.refers
  intro v hv
  rcases widths_of_loadsConstant hop with rfl | rfl
  · rw [Instruction.narrow_of_fits (h.fits nofun rfl), ← hpool] at hv
    obtain ⟨w, hw, hloadable⟩ := hrefers
    obtain rfl : w = v := Option.some.inj (hw.symm.trans hv)
    exact hloadable.movable hattrs
  · rw [Instruction.narrow_of_fits (h.fits nofun rfl), ← hpool] at hv
    obtain ⟨who, r, hr, -⟩ := hrefers
    exact Or.inr ⟨who, r, Option.some.inj (hv.symm.trans hr)⟩

end Image

/-- The name of a module. -/
def Value.moduleName? : Value → Option String
  | module name _ => some name
  | _ => none

/-- Two values are not modules of one name. -/
def Value.Apart (v w : Value) : Prop :=
  ∀ x, v.moduleName? = some x → ∀ y, w.moduleName? = some y → x ≠ y

instance : Std.Symm Value.Apart := ⟨fun _ _ h x hx y hy => (h y hy x hx).symm⟩

/-- The number that a program which runs to its end leaves in a global slot. -/
def Bytecode.leaves (b : Bytecode) (host : Host) (g : Globals) (slot : Nat) : Option Int64 :=
  match (Machine.idle g none).runFreely ⟨b, host, 0⟩ 50 with
  | (.finished, m) =>
    match m.globals.get? slot with
    | some (.int n) => some n
    | _ => none
  | _ => none

end ScriptEngine
