import ScriptEngine.Machine.Step
/-! Whole runs. A run makes at most as many steps as it is given. -/
namespace ScriptEngine

/-- How a run ends. -/
inductive Ending where
  | finished
  | halted (h : Halt)
  /-- The run was told to stop. -/
  | stopped
  /-- The steps ran out. -/
  | unfinished
  deriving DecidableEq, Repr

namespace Machine

/-- Steps until the program ends; before each step `stop` may end the run. -/
def loop (x : Setting) (stop : Machine → Bool) : (steps : Nat) → Machine → Ending × Machine
  | 0, m => (.unfinished, m)
  | steps + 1, m =>
    if stop m then (.stopped, m)
    else
      match m.advance x with
      | .next m => loop x stop steps m
      | .finished m => (.finished, m)
      | .halted h m => (.halted h, m)

/-- Runs the program from its start. Globals, budget and the place of the last instruction are as an
earlier run left them. -/
def run (x : Setting) (stop : Machine → Bool) (steps : Nat) (m : Machine) : Ending × Machine :=
  (m.start x).loop x stop steps

/-- Runs the program to its end. -/
def runFreely (x : Setting) (steps : Nat) (m : Machine) : Ending × Machine :=
  m.run x (fun _ => false) steps

end Machine

/-- What a run comes to for its host. -/
inductive Outcome where
  | done
  | failed (e : RuntimeError)
  | panicked (p : Panic)
  | unfinished
  deriving DecidableEq, Repr

/-- The outcome for a machine left in a state; a run that was stopped has been aborted. -/
def Ending.outcome (x : Setting) (m : Machine) : Ending → Outcome
  | finished => .done
  | halted (.trap t) => .failed (m.located x t)
  | halted (.panic p) => .panicked p
  | stopped => .failed (m.located x .aborted)
  | unfinished => .unfinished

end ScriptEngine
