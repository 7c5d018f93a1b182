import ScriptEngine.Proofs.Renumber.Orderly
/-! Whole runs on renumbered states. -/
namespace ScriptEngine

open Encoding

variable {moved : Array Nat} {good : Nat → Prop} {x x' : Setting} {m : Machine} {is : List Instruction} {i : Instruction}
  {r : Routine} {f : Frame}

/-! Instructions in a row -/

/-- Reading and moving the constants may be done in either order. -/
theorem Instruction.narrow_redirect (i : Instruction) :
    (i.redirect moved).narrow = i.narrow.redirect moved := by
  obtain ⟨op, a, b⟩ := i
  by_cases hop : op.loadsConstant = true
  · have hmin (n : Nat) : min n 65535 % 65536 = min n 65535 := Nat.mod_eq_of_lt (by omega)
    rcases widths_of_loadsConstant hop with rfl | rfl <;>
      simp [redirect, narrow, Opcode.loadsConstant, Opcode.widths, hmin]
  · simp [redirect, narrow, hop]

theorem Routine.Row.size (h : r.Row good is) : r.code.size = extent Instruction.size is :=
  size_of_encode h.code

theorem Routine.Row.size_redirect (h : r.Row good is) :
    (r.redirect moved).code.size = r.code.size := by
  have hcode : (r.redirect moved).code.size = _ := size_of_encode (toList_redirectCode h.code)
  rw [h.size, hcode, extent_map]
  simp

theorem Routine.Row.at? (h : r.Row good is) {p : Nat} (hi : placed Instruction.size is p = some i) :
    Instruction.at? r.code p = some i.narrow :=
  Instruction.at?_of_placed h.code hi

theorem Routine.Row.at?_redirect (h : r.Row good is) {p : Nat}
    (hi : placed Instruction.size is p = some i) :
    Instruction.at? (r.redirect moved).code p = some (i.narrow.redirect moved) := by
  rw [← Instruction.narrow_redirect]
  refine Instruction.at?_of_placed (toList_redirectCode h.code) ?_
  rw [placed_map]
  simp [hi]

theorem Instruction.narrow_lt (h : i.narrow.op.loadsConstant = true) : i.narrow.a < 65536 := by
  obtain ⟨op, a, b⟩ := i
  rcases widths_of_loadsConstant h with rfl | rfl <;> exact Nat.mod_lt a (by decide : 0 < 65536)

/-! Steps -/

/-- What becomes of a machine, renumbered. -/
def Advance.renumber (moved : Array Nat) : Advance → Advance
  | next m => next (m.renumber moved)
  | finished m => finished (m.renumber moved)
  | halted h m => halted h (m.renumber moved)

theorem Advance.renumber_eq (a : Advance) : (Guise.renumber moved).advance a = a.renumber moved := by
  cases a <;> rfl

namespace Machine.Orderly

variable (moved) in
/-- The instruction that a machine comes to next, or the end of its code. -/
theorem next (h : m.Orderly good) :
    (∃ is i, m.frame.routine.Row good is ∧ placed Instruction.size is m.frame.ip = some i) ∨
      (m.renumber moved).frame.routine.code.size ≤ m.frame.ip ∧
        m.frame.routine.code.size ≤ m.frame.ip := by
  obtain ⟨is, hrow, hbound⟩ := h.frame.row
  rcases hbound.placed_or_end Instruction.size_pos with ⟨i, hi⟩ | hend
  · exact Or.inl ⟨is, i, hrow, hi⟩
  · have hsize : m.frame.routine.code.size ≤ m.frame.ip := by rw [hrow.size, hend]
    exact Or.inr ⟨hrow.size_redirect.trans_le hsize, hsize⟩

theorem fetched (h : m.Orderly good) {is : List Instruction} (hrow : m.frame.routine.Row good is)
    (hi : placed Instruction.size is m.frame.ip = some i) :
    (m.fetched i.narrow).Orderly good ∧
      (i.op.isJump = true → Exec.Continues good i.narrow.a (m.fetched i.narrow).frame) ∧
      (i.op.loadsConstant = true → good i.narrow.a) := by
  have hmem : i ∈ is := by
    obtain ⟨pre, post, rfl, _⟩ := (placed_eq_some Instruction.size_pos).mp hi
    simp
  refine ⟨⟨h.globals, h.stack, ⟨⟨is, hrow, ?_⟩, h.frame.free⟩, h.callers⟩,
    fun hop => ⟨⟨is, hrow, hrow.jumps i hmem hop⟩, h.frame.free⟩, hrow.constants i hmem⟩
  simp only [Machine.fetched, Instruction.size_narrow]
  exact boundary_next Instruction.size_pos hi

/-- A step in the one setting is a step in the other. -/
theorem advance_renumber (hx : Setting.Moves moved good x x') (h : m.Orderly good) :
    (m.renumber moved).advance x' = (m.advance x).renumber moved := by
  rcases h.next moved with ⟨is, i, hrow, hi⟩ | ⟨hend', hend⟩
  · obtain ⟨-, -, hconstant⟩ := h.fetched hrow hi
    have hat' : Instruction.at? (m.frame.routine.redirect moved).code m.frame.ip = _ :=
      hrow.at?_redirect hi
    rw [← Advance.renumber_eq]
    exact Guise.advance_machine hx.hosts (hrow.at? hi) hat'
      (hx.redirected Instruction.narrow_lt hconstant) fun _ => Guise.renumber_global
  · rw [← Advance.renumber_eq]
    exact Guise.advance_machine_of_end (G := .renumber moved) hend hend'

theorem advance (hx : x.Supplies good) (h : m.Orderly good) : (m.advance x).state.Orderly good := by
  rcases h.next #[] with ⟨is, i, hrow, hi⟩ | ⟨-, hend⟩
  · obtain ⟨hfetched, hjump, hconstant⟩ := h.fetched hrow hi
    rw [Machine.advance_of_at? (hrow.at? hi), Advance.state_of]
    exact Exec.execute_orderly hx _ hfetched hjump hconstant
  · rw [Machine.advance_of_end hend, Advance.state_of, ← Exec.run_leave]
    refine (Exec.leave_keeps Value.only_undefined).endState ?_ trivial
    exact ⟨h.globals, h.stack, h.frame, h.callers⟩

/-! Runs -/

/-- A run in the one setting is a run in the other, and the machine stays orderly. -/
theorem loop_supplied (hx : x.Supplies good) (hmoves : Setting.Moves moved good x x')
    (stop stop' : Machine → Bool) (hstop : ∀ m : Machine, stop' (m.renumber moved) = stop m)
    (steps : Nat) (h : m.Orderly good) :
    (m.renumber moved).loop x' stop' steps =
        ((m.loop x stop steps).1, (m.loop x stop steps).2.renumber moved) ∧
      (m.loop x stop steps).2.Orderly good := by
  induction steps generalizing m with
  | zero => exact ⟨rfl, h⟩
  | succ steps ih =>
    have hnext := h.advance hx
    simp only [Machine.loop, hstop, h.advance_renumber hmoves]
    split
    · exact ⟨rfl, h⟩
    · cases hadv : m.advance x with
      | next m' =>
        rw [hadv] at hnext
        exact ih hnext
      | finished m' | halted e m' =>
        rw [hadv] at hnext
        exact ⟨rfl, hnext⟩

/-- So is that of a whole program. -/
theorem loop (hx : x.Orderly good) (hmoves : Setting.Moves moved good x x')
    (stop stop' : Machine → Bool) (hstop : ∀ m : Machine, stop' (m.renumber moved) = stop m)
    (steps : Nat) (h : m.Orderly good) :
    (m.renumber moved).loop x' stop' steps =
        ((m.loop x stop steps).1, (m.loop x stop steps).2.renumber moved) ∧
      (m.loop x stop steps).2.Orderly good :=
  h.loop_supplied hx.toSupplies hmoves stop stop' hstop steps

/-- A machine starts orderly if its globals are. -/
theorem start (hx : x.Orderly good) (h : m.globals.Orderly good) : (m.start x).Orderly good := by
  obtain ⟨is, hrow⟩ := hx.main
  refine ⟨h, fun v hv => ?_, ⟨⟨is, hrow, boundary_zero⟩, by simp [Machine.start]⟩,
    by simp [Machine.start]⟩
  rw [(Array.mem_replicate.mp hv).2]
  exact Value.only_undefined

end Machine.Orderly

end ScriptEngine
