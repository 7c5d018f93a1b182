import ScriptEngine.Proofs.Positions.Closed
import ScriptEngine.Proofs.Positions.Map
import ScriptEngine.Proofs.Positions.Nodes
import ScriptEngine.Proofs.Renumber.Program
/-!
Errors of compiled programs. A run that fails tells the source position of the instruction that
failed, which is the position of the construct that the compiler made it for.
-/
namespace ScriptEngine

open Encoding

namespace Image

variable (L : Image) (main : Body) (text : List Stmt)

/-- The code of a program: its main routine, and that of its functions and modules. -/
def Part (R : Body) : Prop := R = main ∨ L.Defines R

/-- A program is laid out in bytecode, and holds no functions of others. -/
structure Program (b : Bytecode) : Prop where
  lays : ∃ Γ, L.Lays main Γ text
  modules : ∀ key f, L.modules key = some f → L.ModuleAt key f
  pool : b.pool = L.pool
  main : b.main = main.routine
  attrs : ∀ name, ∀ e ∈ L.attrs name, e.2.Plain

/-- The next instruction of the machine is one of the program, made for a construct at a position. -/
def Places (m : Machine) (p : Pos) : Prop :=
  ∃ R whole i, (R = main ∧ whole = text ∨ L.IsText R whole) ∧ R.routine = m.frame.routine ∧
    R.code.at? m.frame.ip = some (.plain i (some p)) ∧
    Instruction.at? m.frame.routine.code m.frame.ip = some i.narrow

/-- Some bodies of a program, whose code loads functions of these bodies only. -/
structure Closed (P : Body → Prop) : Prop where
  start : P main
  part : ∀ {R : Body}, P R → L.Part main R
  loads : ∀ {R : Body} {x : Nat} {i : Instruction} {pos : Option Pos} {v : Value}, P R →
    R.code.at? x = some (.plain i pos) → i.op.loadsConstant = true → L.pool[i.a]? = some v →
    v.Only (Value.Runs P)

variable {L main text} {b : Bytecode} {R : Body} {P : Body → Prop}

/-- What stands in the code of a program is a sound instruction of a text. It has a position, or
ends the code. -/
theorem Program.item (h : L.Program main text b) (hR : L.Part main R) {p : Nat} {item : Item}
    (hat : R.code.at? p = some item) :
    ∃ j pos whole, item = .plain j pos ∧ (R = main ∧ whole = text ∨ L.IsText R whole) ∧
      L.Sound R whole p j ∧ ((∃ q, pos = some q) ∨ Body.Ends j) := by
  obtain ⟨hexplains, whole, htext, htiled⟩ : R.Explains ∧ ∃ whole,
      (R = main ∧ whole = text ∨ L.IsText R whole) ∧ R.Tiled (L.Sound R whole) 0 R.code.size := by
    rcases hR with rfl | hdefines
    · obtain ⟨Γ, hlays⟩ := h.lays
      exact ⟨hlays.explains, text, Or.inl ⟨rfl, rfl⟩, hlays.tiled h.modules⟩
    · obtain ⟨whole, htext, htiled⟩ := hdefines.tiled h.modules
      exact ⟨hdefines.explains, whole, Or.inr htext, htiled⟩
  have hlt := placed_lt_extent Item.size_pos hat
  have hpos := item.size_pos
  have hsize := R.code.size_eq
  obtain ⟨j, pos, rfl, hsound⟩ := htiled.at? hat (Nat.zero_le p) (by omega)
  exact ⟨j, pos, whole, rfl, htext, hsound, hexplains p j pos hat⟩

/-- What code may load are functions of the program, and data. -/
theorem Program.loadable (h : L.Program main text b) {v : Value} (hv : L.Loadable v) :
    v.Only (Value.Runs (L.Part main)) := by
  cases v with
  | function who r =>
    obtain ⟨R, hroutine, -, hdefines⟩ := hv
    exact Value.only_function.mpr ⟨R, Or.inr hdefines, hroutine⟩
  | _ =>
    rcases hv.movable h.attrs with hplain | ⟨who, r, heq⟩
    · exact hplain.only
    · cases heq

/-- All code of a program loads functions of the program only. -/
theorem Program.closed (h : L.Program main text b) : L.Closed main (L.Part main) := by
  refine ⟨Or.inl rfl, id, fun {R x i pos v} hR hat hop hv => ?_⟩
  obtain ⟨j, _, whole, heq, -, hsound, -⟩ := h.item hR hat
  cases heq
  have hrefers := hsound.refers
  obtain ⟨op, k, n⟩ := i
  rcases widths_of_loadsConstant hop with rfl | rfl
  · obtain ⟨w, hw, hloadable⟩ := hrefers
    obtain rfl : w = v := Option.some.inj (hw.symm.trans hv)
    exact h.loadable hloadable
  · obtain ⟨who, r, hr, R', hroutine, -, hdefines⟩ := hrefers
    obtain rfl : .function who r = v := Option.some.inj (hr.symm.trans hv)
    exact Value.only_function.mpr ⟨R', Or.inr hdefines, hroutine⟩

/-- Sound code is sealed, as the machine reads it. -/
theorem sealed_of_tiled {whole : List Stmt} (h : R.Tiled (L.Sound R whole) 0 R.code.size) :
    R.Sealed := by
  have hat {p : Nat} {item : Item} (hitem : R.code.at? p = some item) :
      ∃ i pos, item = .plain i pos ∧ L.Sound R whole p i := by
    have hlt := placed_lt_extent Item.size_pos hitem
    have hpos := item.size_pos
    have hsize := R.code.size_eq
    exact h.at? hitem (Nat.zero_le p) (by omega)
  refine ⟨fun hitem => ?_, fun hitem hop => ?_⟩
  · obtain ⟨i, pos, hplain, -⟩ := hat hitem
    exact ⟨i, pos, hplain⟩
  · obtain ⟨_, _, heq, hsound⟩ := hat hitem
    cases heq
    exact (boundary_map Item.instruction R.code.toList _).mp (hsound.boundary hop)

/-- The bodies of a program are sealed. -/
theorem Program.sealed (h : L.Program main text b) (hR : L.Part main R) : R.Sealed := by
  rcases hR with rfl | hdefines
  · obtain ⟨Γ, hlays⟩ := h.lays
    exact sealed_of_tiled (hlays.tiled h.modules)
  · obtain ⟨whole, -, htiled⟩ := hdefines.tiled h.modules
    exact sealed_of_tiled htiled

theorem Program.closes (h : L.Program main text b) (hP : L.Closed main P) : b.Closes P where
  bodies hR := h.sealed (hP.part hR)
  loads {R p i pos v} hR hat hop hv := by
    obtain ⟨_, _, whole, heq, -, hsound, -⟩ := h.item (hP.part hR) hat
    cases heq
    have hnarrow : i.narrow = i := Instruction.narrow_of_fits <| hsound.fits
      (fun hglobal => by
        rcases widths_of_loadsConstant hop with hop | hop <;> rw [hop] at hglobal <;> cases hglobal)
      (by rcases widths_of_loadsConstant hop with hop | hop <;> rw [hop] <;> rfl)
    rw [hnarrow, h.pool] at hv
    exact hP.loads hR hat hop hv

end Image

section Steps

open Exec Machine

variable {L : Image} {main : Body} {text : List Stmt} {x : Setting} {m m' : Machine}
  {P : Body → Prop}

/-- The instructions that end code do not fail. -/
theorem Machine.Runs.ends (hm : m.Runs P) {j : Instruction} (hj : Body.Ends j)
    (e : Halt) (m' : Machine) : (Exec.execute x j.narrow).run (m.fetched j.narrow) ≠ .error e m' := by
  intro hrun
  rcases hj with rfl | rfl
  · have hret : (Exec.execute x ⟨.ret, 0, 0⟩).run (m.fetched ⟨.ret, 0, 0⟩) =
        (m.fetched ⟨.ret, 0, 0⟩).left .undefined := execute_retUndefined (by decide)
    have hbase : (m.fetched ⟨.ret, 0, 0⟩).frame.base ≤ maxStack := hm.frame.base
    rw [left_eq hbase] at hret
    have herror := hret.symm.trans hrun
    cases hcaller : (m.fetched ⟨.ret, 0, 0⟩).callers.back? <;> rw [hcaller] at herror <;>
      cases herror
  · cases hrun

/-- The next instruction of a machine is one of some bodies and stands at a position. It is not one
that just ends code. -/
def Machine.Points (P : Body → Prop) (m : Machine) (p : Pos) : Prop :=
  ∃ R i, P R ∧ R.routine = m.frame.routine ∧ R.code.at? m.frame.ip = some (.plain i (some p)) ∧
    Instruction.at? m.frame.routine.code m.frame.ip = some i.narrow ∧ ¬ Body.Ends i

theorem Image.Program.places (h : L.Program main text x.bytecode) (hP : L.Closed main P) {p : Pos}
    (hpoints : m.Points P p) : L.Places main text m p := by
  obtain ⟨R, i, hR, hroutine, hat, hread, -⟩ := hpoints
  obtain ⟨j, _, whole, heq, htext, -, -⟩ := h.item (hP.part hR) hat
  cases heq
  exact ⟨R, whole, i, htext, hroutine, hat, hread⟩

/-- Where a step fails, an instruction of one of the bodies has failed that stands at a position, and
the machine tells that position. -/
theorem Image.Program.halts (h : L.Program main text x.bytecode) (hP : L.Closed main P)
    (hlends : x.host.Lends) (hm : m.Runs P) {e : Halt} (hadv : m.advance x = .halted e m') :
    ∃ p, m.Points P p ∧ ∀ t, (m'.located x t).pos = some p := by
  have hcloses := h.closes hP
  rcases hm.ahead hcloses.bodies with ⟨R, i, pos, hR, hroutine, hat, hread⟩ | hend
  · obtain ⟨_, _, whole, heq, -, -, hexplained⟩ := h.item (hP.part hR) hat
    cases heq
    have hexec := hcloses.execute hlends hm hR hroutine hat
    rw [advance_of_at? hread] at hadv
    cases hrun : (Exec.execute x i.narrow).run (m.fetched i.narrow) with
    | ok flow m'' =>
      rw [hrun] at hadv
      cases flow <;> cases hadv
    | error e' m'' =>
      rw [hrun] at hadv hexec
      cases hadv
      have hends : ¬ Body.Ends i := fun hends => hm.ends hends _ _ hrun
      obtain ⟨p, rfl⟩ := hexplained.resolve_right hends
      refine ⟨p, ⟨R, i, hR, hroutine, hat, hread, hends⟩, fun t => ?_⟩
      rw [located, hexec.1, hexec.2, ← hroutine]
      exact Code.posAt_toRoutine hat rfl
  · have hticked : { m with clock := m.clock + 1 }.Runs P := hm.congr rfl rfl rfl rfl
    obtain ⟨flow, m'', hrun, -⟩ := leave_moves hticked Value.only_undefined
    rw [advance_of_end hend, ← run_leave, hrun] at hadv
    cases flow <;> cases hadv

end Steps

end ScriptEngine
