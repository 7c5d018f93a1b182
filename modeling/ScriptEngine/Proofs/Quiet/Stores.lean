import ScriptEngine.Proofs.Quiet.Expressions
/-!
Stores to variables. The code puts the topmost operand in the place of the variable, and all other
places keep what they hold.
-/
namespace ScriptEngine

/-- A machine with another value in a place. -/
def Machine.put (m : Machine) (storage : Storage) (i : Nat) (v : Value) : Machine :=
  match storage with
  | .global => { m with globals := m.globals.set i v }
  | .frame => { m with stack := m.stack.setIfInBounds (m.frame.base + i) v }
  | .builtin | .free => m

variable {m m' : Machine} {storage storage' : Storage} {i j p : Nat} {v : Value} {R : Body}

/-- What code can store to is there. -/
def Machine.Stores (m : Machine) (storage : Storage) (i : Nat) : Prop :=
  storage = .frame ∧ m.frame.base + i < m.stack.size ∨ storage = .global

theorem Machine.read?_put_same (h : m.Stores storage i) :
    (m.put storage i v).read? storage i = some v := by
  rcases h with ⟨rfl, hlt⟩ | rfl
  · simp [put, read?, hlt]
  · simp [put, read?, Globals.get?_set]

theorem Machine.read?_put_ne (hne : (storage', j) ≠ (storage, i)) :
    (m.put storage i v).read? storage' j = m.read? storage' j := by
  cases storage <;> cases storage' <;>
    simp_all [put, read?, Globals.get?_set, Array.getElem?_setIfInBounds_ne, eq_comm]

theorem Machine.Amid.read? (h : m.Amid [] p m') : m'.read? storage i = m.read? storage i := by
  have hstack : m'.stack = m.stack := by simpa using h.stack
  cases storage <;> simp only [Machine.read?, h.globals, h.frame, hstack]

theorem Body.Framed.put (h : R.Framed m) : R.Framed (m.put storage i v) := by
  obtain ⟨hroutine, hfree, hslots⟩ := h
  cases storage
  case frame => exact ⟨hroutine, hfree, by simpa [Machine.put] using hslots⟩
  all_goals exact ⟨hroutine, hfree, hslots⟩

theorem Body.Framed.amid (h : R.Framed m) (hm : m.Amid [] p m') : R.Framed m' := by
  have hstack : m'.stack = m.stack := by simpa using hm.stack
  obtain ⟨hroutine, hfree, hslots⟩ := h
  exact ⟨by rw [hm.frame]; exact hroutine, by rw [hm.frame]; exact hfree,
    by rw [hm.frame, hstack]; exact hslots⟩

namespace Image

open Machine Exec

variable {L : Image} {x : Setting} {m₀ : Machine} {Γ : Names} {q : Nat} {pos : Pos}

/-- The topmost value is stored in a global cell, whose number is cut to two bytes. -/
theorem Frames.fills_cell {w : Value} (hR : L.Frames R x m₀)
    (hhas : R.Has (some pos) .setGlobal i 0 p q) (h : m₀.Amid [w] p m) :
    ∃ m', m.advance x = .next m' ∧ (m₀.put .global (i % 65536) w).Amid [] q m' ∧
      m'.made = m.made := by
  have hat : Instruction.at? m.frame.routine.code m.frame.ip = some ⟨.setGlobal, i % 65536, 0⟩ :=
    hR.finds hhas h.frame
  have htop : (m.fetched ⟨.setGlobal, i % 65536, 0⟩).stack = m₀.stack.push w := by
    simpa [fetched] using h.stack
  have hadv := advance_of_at? (x := x) hat
  rw [execute_setGlobal htop] at hadv
  refine ⟨_, hadv, ⟨?_, h.callers, h.signals, ?_, ?_⟩, rfl⟩
  · exact congrArg (Globals.set · _ w) h.globals
  · simp only [fetched, h.frame, hhas.2, Instruction.size, put]
  · simp [put]

/-- The topmost value is stored in a variable. -/
theorem fillAt.comes {y : String} (hR : L.Frames R x m₀) (hat : L.fillAt R Γ pos y p q)
    (hfits : R.Fits p q) :
    ∃ storage i, Γ.resolve R.captured y = some (storage, i) ∧ m₀.Stores storage i ∧
      ∀ w m, m₀.Amid [w] p m → ∃ m', m.advance x = .next m' ∧
        (m₀.put storage i w).Amid [] q m' ∧ m'.made = m.made := by
  obtain ⟨i, ⟨hres, hi, hhas⟩ | ⟨hres, -, hhas⟩⟩ := hat
  · have hslots := hR.slots
    refine ⟨.frame, i, hres, .inl ⟨rfl, by omega⟩, fun w m h => ?_⟩
    have hadv := hR.advance hhas (hfits hhas (Nat.le_refl _) (Nat.le_refl _)) h
    have hbase : (m.fetched ⟨.setLocal, i, 0⟩).frame.base = m₀.frame.base := by
      simp only [fetched, h.frame]
    have htop : (m.fetched ⟨.setLocal, i, 0⟩).stack = m₀.stack.push w := by
      have hstack : (m.fetched ⟨.setLocal, i, 0⟩).stack = m₀.stack ++ [w].toArray := h.stack
      simpa using hstack
    rw [execute_setLocal htop (by rw [hbase]; omega), hbase] at hadv
    refine ⟨_, hadv, ⟨h.globals, h.callers, h.signals, ?_, ?_⟩, rfl⟩
    · simp only [fetched, h.frame, hhas.2, Instruction.size, put]
    · simp [put]
  · have hcell : i % 65536 = i :=
      Nat.mod_eq_of_lt (hfits hhas (Nat.le_refl _) (Nat.le_refl _)).1
    exact ⟨.global, i, hres, .inr rfl, fun w m h => hcell ▸ hR.fills_cell hhas h⟩

/-- What is left on the stack is stored in a variable. -/
theorem Frames.stores {y : String} {l : Nat} (hR : L.Frames R x m₀)
    (hat : L.fillAt R Γ pos y l q) (hfits : R.Fits l q) :
    ∃ storage i, Γ.resolve R.captured y = some (storage, i) ∧ m₀.Stores storage i ∧
      ∀ {p make}, m₀.Makes x p l make → ∀ m, m₀.Amid [] p m →
        m₀.Comes x m (make m.made) fun c m' =>
          (m₀.put storage i c.1).Amid [] q m' ∧ m'.made = c.2 := by
  obtain ⟨storage, i, hres, hstores, hstore⟩ := fillAt.comes hR hat hfits
  refine ⟨storage, i, hres, hstores, fun hmake m h => ?_⟩
  refine (hmake [] m h).onward fun c m₁ ⟨h₁, hmade₁⟩ => ?_
  obtain ⟨m₂, hadv, h₂, hmade₂⟩ := hstore c.1 m₁ h₁
  exact .step hadv (.here ⟨h₂, hmade₂.trans hmade₁⟩)

end Image

end ScriptEngine
