import ScriptEngine.Proofs.Machine.Steady
/-!
What a program reads from a global cell that it has not written yet: each instruction leaves all
cells alone but the one that it writes, so what the run found there is still there.
-/
namespace ScriptEngine

/-- An instruction stores a value in a cell. -/
def Instruction.Writes (i : Instruction) (cell : Nat) : Prop := i.op = .setGlobal ∧ i.a = cell

namespace Machine

/-- The instruction that a machine carries out next. -/
def next? (m : Machine) : Option Instruction := Instruction.at? m.frame.routine.code m.frame.ip

/-- The states of a run as long as a cell is not written. -/
inductive Spares (x : Setting) (cell : Nat) (m : Machine) : Machine → Prop where
  | refl : Spares x cell m m
  | step {m' m'' : Machine} (h : Spares x cell m m')
    (hspares : ∀ i, m'.next? = some i → ¬ i.Writes cell) (hstep : m'.advance x = .next m'') :
    Spares x cell m m''

variable {x : Setting} {m m' : Machine} {i : Instruction} {cell : Nat}

/-- A step at a place where no instruction is. -/
theorem advance_of_none (h : m.next? = none) :
    (m.advance x).state.globals = m.globals := by
  by_cases hend : m.frame.routine.code.size ≤ m.frame.ip
  · rw [advance_of_end hend, Advance.state_of, ← Exec.run_leave]
    exact (Exec.leave_steady _ _).globals
  · have hlt : m.frame.ip < m.frame.routine.code.size := Nat.lt_of_not_le hend
    have hat : Instruction.at? m.frame.routine.code m.frame.ip = none := h
    rw [advance_eq, Advance.state_of]
    simp only [Exec.step, Exec.fetch, bind_assoc]
    rw [Exec.run_bind, Exec.run_get]
    simp only [hlt, if_true, hat]
    rfl

/-- An instruction that does not write a cell leaves it alone. -/
theorem execute_spares (h : ¬ i.Writes cell) (m : Machine) :
    (EndState ((Exec.execute x i).run m)).globals.get? cell = m.globals.get? cell := by
  by_cases hop : i.op = .setGlobal
  · obtain ⟨op, a, b⟩ := i
    obtain rfl : op = .setGlobal := hop
    have hne : a ≠ cell := fun ha => h ⟨rfl, ha⟩
    have hpop := (Exec.pop_steady m).globals
    simp only [Exec.execute, Exec.perform, bind_assoc]
    rw [Exec.run_bind]
    cases hrun : Exec.pop.run m with
    | error e m' =>
      rw [hrun] at hpop
      exact congrArg (·.get? cell) hpop
    | ok v m' =>
      rw [hrun] at hpop
      change (m'.globals.set a v).get? cell = _
      rw [Globals.get?_set, if_neg hne]
      exact congrArg (·.get? cell) hpop
  · exact congrArg (·.get? cell) (Exec.execute_steady hop m).globals

/-- So does a step. -/
theorem advance_spares (h : ∀ i, m.next? = some i → ¬ i.Writes cell) :
    (m.advance x).state.globals.get? cell = m.globals.get? cell := by
  cases hi : m.next? with
  | none => rw [advance_of_none hi]
  | some i =>
    rw [advance_of_at? hi, Advance.state_of, execute_spares (h i hi)]
    rfl

/-- So does a run. -/
theorem Spares.kept (h : Spares x cell m m') : m'.globals.get? cell = m.globals.get? cell := by
  induction h with
  | refl => rfl
  | step _ hspares hstep ih =>
    have hkept := advance_spares (x := x) hspares
    rw [hstep] at hkept
    exact hkept.trans ih

/-- An instruction that reads a cell that was not written pushes what was there at first. -/
theorem Spares.read {b : Nat} (h : Spares x cell m m') (hi : m'.next? = some ⟨.getGlobal, cell, b⟩) :
    m'.advance x = Advance.of ((m'.fetched ⟨.getGlobal, cell, b⟩).pushed
      ((m.globals.get? cell).getD .undefined)) := by
  rw [advance_of_at? hi, Exec.execute_getGlobal]
  change Advance.of (pushed _ ((m'.globals.get? cell).getD _)) = _
  rw [h.kept]

end Machine

end ScriptEngine
