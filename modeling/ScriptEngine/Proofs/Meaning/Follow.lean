import ScriptEngine.Proofs.Machine.Execute
import ScriptEngine.Proofs.Machine.Loop
import ScriptEngine.Proofs.Meaning.Tree
/-!
What the result of an evaluation says about a run of the machine. Where the evaluation yields
something, the run arrives at a state that fits; where it fails, the run fails alike; where it needs
more than it was given, the run takes at least as many steps. None of this is said of runs that
overflow the stack.
-/
namespace ScriptEngine.Machine

/-- The run ends because there is no more room on the stack. -/
def Overflows (x : Setting) (m : Machine) : Prop :=
  ∃ k m', m.loop x (fun _ => false) k = (.halted (.trap .stackOverflow), m')

/-- The run from a machine fits the result of an evaluation: `Q` describes where it arrives, and `F`
what a failure leaves. -/
def Agrees {α : Type} (x : Setting) (F : Store → Machine → Prop) (n : Nat)
    (Q : α → Store → Machine → Prop) (m : Machine) (r : EStateM.Result Stop Store α) : Prop :=
  m.Overflows x ∨ match r with
    | .ok a st => ∃ k m', m.loop x (fun _ => false) k = (.unfinished, m') ∧ Q a st m'
    | .error (.trap t) st =>
      ∃ k m', m.loop x (fun _ => false) k = (.halted (.trap t), m') ∧ F st m'
    | .error .unfinished _ => (m.loop x (fun _ => false) n).1 = .unfinished
    | .error .stuck _ => False

variable {α β : Type} {x : Setting} {F : Store → Machine → Prop} {n k : Nat}
  {Q Q' : α → Store → Machine → Prop} {Q₂ : β → Store → Machine → Prop} {m m' m₁ : Machine}
  {r : EStateM.Result Stop Store α} {st : Store} {a : α}

theorem Overflows.before (h : m'.Overflows x)
    (hrun : m.loop x (fun _ => false) k = (.unfinished, m')) : m.Overflows x := by
  obtain ⟨j, m'', hend⟩ := h
  exact ⟨k + j, m'', (loop_add hrun).trans hend⟩

namespace Agrees

theorem here (h : Q a st m) : m.Agrees x F n Q (.ok a st) := .inr ⟨0, m, rfl, h⟩

theorem fewer (h : m.Agrees x F n Q r) (hk : k ≤ n) : m.Agrees x F k Q r := by
  rcases h with h | h
  · exact .inl h
  · refine .inr ?_
    match r, h with
    | .ok a st, h => exact h
    | .error (.trap t) st, h => exact h
    | .error .unfinished st, h => exact unfinished_of_le hk h

/-- What a run fits that goes on from where another one arrives. -/
theorem after (hrun : m.loop x (fun _ => false) k = (.unfinished, m'))
    (h : m'.Agrees x F n Q r) : m.Agrees x F (k + n) Q r := by
  rcases h with h | h
  · exact .inl (h.before hrun)
  · refine .inr ?_
    match r, h with
    | .ok a st, ⟨j, m'', hmore, hm''⟩ => exact ⟨k + j, m'', (loop_add hrun).trans hmore, hm''⟩
    | .error (.trap t) st, ⟨j, m'', hmore, hm''⟩ =>
      exact ⟨k + j, m'', (loop_add hrun).trans hmore, hm''⟩
    | .error .unfinished st, h => exact (congrArg Prod.fst (loop_add hrun)).trans h

/-- A run that arrives at a state goes on from there. -/
theorem next {r' : EStateM.Result Stop Store β} (h : m.Agrees x F n Q (.ok a st))
    (h' : ∀ m', Q a st m' → m'.Agrees x F n Q₂ r') : m.Agrees x F n Q₂ r' := by
  rcases h with h | ⟨k, m', hloop, hm'⟩
  · exact .inl h
  · exact (after hloop (h' m' hm')).fewer (Nat.le_add_left ..)

/-- What is left to do behind an evaluation. -/
theorem onward (h : m.Agrees x F n Q r)
    (h' : ∀ a st m', Q a st m' → m'.Agrees x F n Q' (.ok a st)) : m.Agrees x F n Q' r := by
  match r, h with
  | .ok a st, h => exact h.next fun m' hm' => h' a st m' hm'
  | .error (.trap t) st, h => exact h
  | .error .unfinished st, h => exact h
  | .error .stuck st, h => exact h

theorem mono (h : m.Agrees x F n Q r) (hQ : ∀ a st m', Q a st m' → Q' a st m') :
    m.Agrees x F n Q' r := h.onward fun a st m' hm' => here (hQ a st m' hm')

/-- Evaluations one after the other. -/
theorem bind {c : Eval α} {f : α → Eval β} (h : m.Agrees x F n Q (c.run st))
    (hf : ∀ a st' m', Q a st' m' → m'.Agrees x F n Q₂ ((f a).run st')) :
    m.Agrees x F n Q₂ ((c >>= f).run st) := by
  have hrun : (c >>= f).run st = match c.run st with
      | .ok a st' => (f a).run st'
      | .error e st' => .error e st' := by
    simp only [EStateM.run, Bind.bind, EStateM.bind]
    cases c st <;> rfl
  rw [hrun]
  cases hc : c.run st with
  | ok a st' =>
    rw [hc] at h
    exact h.next fun m' hm' => hf a st' m' hm'
  | error e st' =>
    rw [hc] at h
    rcases h with h | h
    · exact .inl h
    · refine .inr ?_
      match e, h with
      | .trap t, h => exact h
      | .unfinished, h => exact h

theorem overflow (h : m.advance x = .halted (.trap .stackOverflow) m') : m.Agrees x F n Q r :=
  .inl ⟨1, m', loop_one rfl h⟩

theorem halt {t : Trap} (h : m.advance x = .halted (.trap t) m') (hF : F st m') :
    m.Agrees x F n Q (.error (.trap t) st) := .inr ⟨1, m', loop_one rfl h, hF⟩

/-- A step comes before. -/
theorem step_succ (h : m.advance x = .next m') (h' : m'.Agrees x F n Q r) :
    m.Agrees x F (n + 1) Q r := by
  rw [Nat.add_comm]
  exact after (loop_next rfl h 0) h'

theorem step (h : m.advance x = .next m') (h' : m'.Agrees x F n Q r) : m.Agrees x F n Q r :=
  (step_succ h h').fewer (Nat.le_succ n)

theorem pushed {v : Value} (h : m.advance x = .of (m₁.pushed v))
    (h' : { m₁ with stack := m₁.stack.push v }.Agrees x F n Q r) : m.Agrees x F n Q r := by
  unfold Machine.pushed at h
  split at h
  · exact overflow h
  · exact step h h'

/-- An operation with a value or a trap. -/
theorem looked {e : Except Trap Value} {g : Value → α} (h : m.advance x = .of (m₁.looked e))
    (hfail : F st m₁)
    (hQ : ∀ v, e = .ok v → Q (g v) st { m₁ with stack := m₁.stack.push v }) :
    m.Agrees x F n Q ((Eval.lift (e.map g)).run st) := by
  cases e with
  | ok v => exact pushed h (here (hQ v rfl))
  | error t => exact halt h hfail

end Agrees

end ScriptEngine.Machine
