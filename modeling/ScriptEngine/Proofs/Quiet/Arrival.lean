import ScriptEngine.Proofs.Layout.Outline
import ScriptEngine.Proofs.Machine.Execute
import ScriptEngine.Proofs.Machine.Loop
/-!
Runs that leave all variables alone. From a state with the variables of another one and with some
operands above them, such a run arrives at a state of that kind or halts in one. What it comes to is
told by a result without effects, unless the machine has no more room or nothing left to pay with.
-/
namespace ScriptEngine

/-- The trap tells nothing but that the machine has come to a limit. -/
def Trap.IsLimit (t : Trap) : Prop := t = .stackOverflow ∨ t = .allocationLimit

namespace Machine

/-- A machine is about to go on at `p` in the frame of `m₀`, with its variables and some operands. -/
structure Amid (m₀ : Machine) (vs : List Value) (p : Nat) (m : Machine) : Prop where
  globals : m.globals = m₀.globals
  callers : m.callers = m₀.callers
  signals : m.signals = m₀.signals
  frame : m.frame = { m₀.frame with ip := p }
  stack : m.stack = m₀.stack ++ vs.toArray

/-- The run halts for a reason, with the variables of `m₀`. -/
def Fails (x : Setting) (m₀ m : Machine) (t : Trap) : Prop :=
  ∃ k m' vs p, m.loop x (fun _ => false) k = (.halted (.trap t), m') ∧ m₀.Amid vs p m'

/-- What the run comes to: it arrives at a state that `Q` describes, or halts for the reason told,
unless a limit ends it before. -/
def Comes {α : Type} (x : Setting) (m₀ m : Machine) (r : Except Trap α)
    (Q : α → Machine → Prop) : Prop :=
  (∃ t, t.IsLimit ∧ m₀.Fails x m t) ∨ match r with
    | .ok a => ∃ k m', m.loop x (fun _ => false) k = (.unfinished, m') ∧ Q a m'
    | .error t => m₀.Fails x m t

variable {α β : Type} {x : Setting} {m₀ m m' : Machine} {r : Except Trap α}
  {Q Q' : α → Machine → Prop} {Q₂ : β → Machine → Prop} {vs us : List Value} {p q k : Nat}
  {t : Trap} {a : α}

/-- A machine without operands of its own. -/
theorem Amid.refl (h : m.frame.ip = p) : m.Amid [] p m :=
  ⟨rfl, rfl, rfl, by rw [← h], by simp⟩

theorem Fails.before (h : m₀.Fails x m' t) (hrun : m.loop x (fun _ => false) k = (.unfinished, m')) :
    m₀.Fails x m t := by
  obtain ⟨j, m'', vs, p, hend, hm''⟩ := h
  exact ⟨k + j, m'', vs, p, (loop_add hrun).trans hend, hm''⟩

namespace Comes

theorem here (h : Q a m) : m₀.Comes x m (.ok a) Q := .inr ⟨0, m, rfl, h⟩

/-- What a run comes to that goes on from where another one is. -/
theorem after (hrun : m.loop x (fun _ => false) k = (.unfinished, m')) (h : m₀.Comes x m' r Q) :
    m₀.Comes x m r Q := by
  rcases h with ⟨t, ht, h⟩ | h
  · exact .inl ⟨t, ht, h.before hrun⟩
  · refine .inr ?_
    match r, h with
    | .ok a, ⟨j, m'', hmore, hm''⟩ => exact ⟨k + j, m'', (loop_add hrun).trans hmore, hm''⟩
    | .error t, h => exact h.before hrun

theorem step (hadv : m.advance x = .next m') (h : m₀.Comes x m' r Q) : m₀.Comes x m r Q :=
  after (loop_next rfl hadv 0) h

theorem halt (hadv : m.advance x = .halted (.trap t) m') (h : m₀.Amid vs p m') :
    m₀.Comes x m (.error t) Q := .inr ⟨1, m', vs, p, loop_one rfl hadv, h⟩

theorem limit (hadv : m.advance x = .halted (.trap t) m') (ht : t.IsLimit) (h : m₀.Amid vs p m') :
    m₀.Comes x m r Q := .inl ⟨t, ht, 1, m', vs, p, loop_one rfl hadv, h⟩

/-- Runs one after the other. -/
theorem bind {f : α → Except Trap β} (h : m₀.Comes x m r Q)
    (next : ∀ a m', Q a m' → m₀.Comes x m' (f a) Q₂) : m₀.Comes x m (r >>= f) Q₂ := by
  rcases h with h | h
  · exact .inl h
  · match r, h with
    | .ok a, ⟨k, m', hrun, hm'⟩ => exact after hrun (next a m' hm')
    | .error t, h => exact .inr h

/-- A run that fails for no reason goes on from where it arrives. -/
theorem next {r' : Except Trap β} (h : m₀.Comes x m (.ok a) Q)
    (h' : ∀ m', Q a m' → m₀.Comes x m' r' Q₂) : m₀.Comes x m r' Q₂ := by
  rcases h with h | ⟨k, m', hrun, hm'⟩
  · exact .inl h
  · exact after hrun (h' m' hm')

/-- What is left to do behind a run. -/
theorem onward (h : m₀.Comes x m r Q) (h' : ∀ a m', Q a m' → m₀.Comes x m' (.ok a) Q') :
    m₀.Comes x m r Q' := by
  match r, h with
  | .ok a, h => exact h.next fun m' hm' => h' a m' hm'
  | .error t, h => exact h

end Comes

/-- What an instruction comes to that pushes the value told or fails: there may also be no room for
the value or nothing to pay for it with. -/
inductive Gives (m : Machine) (r : Except Trap Value) : Done → Prop where
  | limit {t : Trap} (budget : Option Nat) (ht : t.IsLimit) :
    Gives m r (.error (.trap t) { m with budget })
  | value {v : Value} (budget : Option Nat) (h : r = .ok v) :
    Gives m r (.ok .proceed { m with budget, stack := m.stack.push v })
  | trap {t : Trap} (h : r = .error t) : Gives m r (.error (.trap t) m)

theorem gives_pushed (m : Machine) (v : Value) : m.Gives (.ok v) (m.pushed v) := by
  unfold pushed
  split
  · exact .limit m.budget (.inl rfl)
  · exact .value m.budget rfl

theorem gives_paid (m : Machine) (v : Value) : m.Gives (.ok v) (m.paid v) := by
  unfold paid
  split
  · exact gives_pushed m v
  · exact .limit m.budget (.inr rfl)
  · rename_i left _
    unfold pushed
    split
    · exact .limit (some left) (.inl rfl)
    · exact .value (some left) rfl

theorem gives_looked (m : Machine) (r : Except Trap Value) : m.Gives r (m.looked r) := by
  cases r with
  | ok v => exact gives_pushed m v
  | error t => exact .trap rfl

theorem gives_yielded (m : Machine) (r : Except Trap Value) : m.Gives r (m.yielded r) := by
  cases r with
  | ok v => exact gives_paid m v
  | error t => exact .trap rfl

/-- An instruction takes some operands, and leaves a value in their place. -/
theorem Amid.replaced {i : Instruction} {d : Done} {r : Except Trap Value}
    (h : m₀.Amid (vs ++ us) p m) (hadv : m.advance x = .of d)
    (hd : Gives { m.fetched i with stack := m₀.stack ++ vs.toArray } r d) :
    m₀.Comes x m r fun v m' => m₀.Amid (vs ++ [v]) (p + i.size) m' ∧ m'.made = m.made := by
  have hframe : (m.fetched i).frame = { m₀.frame with ip := p + i.size } := by
    simp only [fetched, h.frame]
  have bare (budget : Option Nat) : m₀.Amid vs (p + i.size)
      { m.fetched i with stack := m₀.stack ++ vs.toArray, budget } :=
    ⟨h.globals, h.callers, h.signals, hframe, rfl⟩
  cases hd with
  | limit budget ht => exact .limit hadv ht (bare budget)
  | @value v budget hr =>
    subst hr
    refine .step hadv (.here ⟨⟨h.globals, h.callers, h.signals, hframe, ?_⟩, rfl⟩)
    simp
  | trap hr =>
    subst hr
    exact .halt hadv (bare m.budget)

/-- A closure is pushed once it has been paid for. -/
theorem closed_eq (m : Machine) (maker : Nat) (routine : Routine) (free : List Value) :
    (∃ budget, m.closed maker routine free =
      { m with budget, made := m.made + 1 }.pushed (.closure ⟨maker, m.made⟩ routine free)) ∨
      m.closed maker routine free = .error (.trap .allocationLimit) m := by
  unfold closed
  dsimp only
  split
  · exact .inl ⟨m.budget, rfl⟩
  · exact .inr rfl
  · rename_i left _
    exact .inl ⟨some left, rfl⟩

/-- An instruction makes a closure over some operands, and leaves it in their place. -/
theorem Amid.closes {i : Instruction} {maker : Nat} {routine : Routine} {free : List Value}
    (h : m₀.Amid (vs ++ us) p m) (hadv : m.advance x =
      .of ({ m.fetched i with stack := m₀.stack ++ vs.toArray }.closed maker routine free)) :
    m₀.Comes x m (.ok (.closure ⟨maker, m.made⟩ routine free)) fun v m' =>
      m₀.Amid (vs ++ [v]) (p + i.size) m' ∧ m'.made = m.made + 1 := by
  have hframe : (m.fetched i).frame = { m₀.frame with ip := p + i.size } := by
    simp only [fetched, h.frame]
  have bare (budget : Option Nat) (made : Nat) : m₀.Amid vs (p + i.size)
      { m.fetched i with stack := m₀.stack ++ vs.toArray, budget, made } :=
    ⟨h.globals, h.callers, h.signals, hframe, rfl⟩
  obtain ⟨budget, hclosed⟩ | hclosed := closed_eq
    { m.fetched i with stack := m₀.stack ++ vs.toArray } maker routine free
  · rw [hclosed, pushed] at hadv
    split at hadv
    · exact .limit hadv (.inl rfl) (bare budget (m.made + 1))
    · refine .step hadv (.here ⟨⟨h.globals, h.callers, h.signals, hframe, ?_⟩, rfl⟩)
      change (m₀.stack ++ vs.toArray).push (.closure ⟨maker, m.made⟩ routine free) = _
      simp
  · rw [hclosed] at hadv
    exact .limit hadv (.inr rfl) (bare m.budget m.made)

/-- The topmost operand lies on top of the stack. -/
theorem Amid.top {v : Value} {i : Instruction} (h : m₀.Amid (vs ++ [v]) p m) :
    (m.fetched i).stack = (m₀.stack ++ vs.toArray).push v := by
  change m.stack = _
  rw [h.stack]
  simp

theorem Amid.topTwo {v w : Value} {i : Instruction} (h : m₀.Amid (vs ++ [v, w]) p m) :
    (m.fetched i).stack = ((m₀.stack ++ vs.toArray).push v).push w := by
  change m.stack = _
  rw [h.stack]
  simp

theorem Amid.topThree {u v w : Value} {i : Instruction} (h : m₀.Amid (vs ++ [u, v, w]) p m) :
    (m.fetched i).stack = (((m₀.stack ++ vs.toArray).push u).push v).push w := by
  change m.stack = _
  rw [h.stack]
  simp

theorem Amid.topMany {i : Instruction} (h : m₀.Amid (vs ++ us) p m) :
    (m.fetched i).stack = (m₀.stack ++ vs.toArray) ++ us.toArray := by
  change m.stack = _
  rw [h.stack]
  simp

end Machine

end ScriptEngine
