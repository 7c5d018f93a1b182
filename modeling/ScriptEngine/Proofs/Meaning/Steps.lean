import ScriptEngine.Proofs.Meaning.State
/-! Single instructions of laid out code, told by the operands that lie on top of the stack. -/
namespace ScriptEngine.Image

open Machine Exec

variable {L : Image} {W : World} {x : Setting} {A : Activation} {s : Array Value} {m : Machine}
  {vs us : List Value} {p q t n a b : Nat} {st : Store} {pos : Option Pos} {op : Opcode}
  {u v w : Value}

/-- The instruction where the frame is in its body is carried out. -/
theorem advance_has (hA : A.Runs) (hframe : m.frame = { A.frame with ip := p })
    (hhas : A.body.Has pos op a b p q) (hjump : op.isJump = true → b = 0) :
    m.advance x = .of ((execute x ⟨op, a, b⟩).run (m.fetched ⟨op, a, b⟩)) := by
  refine advance_of_at? ?_
  rw [hframe]
  change Instruction.at? A.frame.routine.code p = _
  rw [hA.routine]
  exact hA.readable pos op a b p q hhas hjump

namespace Loaded

/-- The next instruction is carried out. -/
theorem advance (h : L.Loaded A s vs p st m) (hA : A.Runs) (hhas : A.body.Has pos op a b p q)
    (hjump : op.isJump = true → b = 0) :
    m.advance x = .of ((execute x ⟨op, a, b⟩).run (m.fetched ⟨op, a, b⟩)) :=
  advance_has hA h.frame hhas hjump

/-- The last operands lie on top of the stack. -/
theorem split (h : L.Loaded A s (vs ++ us) p st m) : ∃ ws zs : List Value,
    ws.map Value.bare = vs ∧ zs.map Value.bare = us ∧
    m.stack = (s ++ ws.toArray) ++ zs.toArray ∧ (∀ w ∈ ws, w.Only (L.Known st)) ∧
    ∀ z ∈ zs, z.Only (L.Known st) := by
  obtain ⟨all, hall, honly, hstack⟩ := h.stack
  obtain ⟨ws, zs, rfl, rfl, rfl⟩ := List.map_eq_append_iff.mp hall
  exact ⟨ws, zs, rfl, rfl, by simp [hstack], fun w hw => honly w (List.mem_append_left _ hw),
    fun z hz => honly z (List.mem_append_right _ hz)⟩

theorem push (h : L.Loaded A s vs p st m) (hw : w.Only (L.Known st)) :
    L.Loaded A s (vs ++ [w.bare]) p st { m with stack := m.stack.push w } :=
  { h with
    stack := by
      obtain ⟨ws, rfl, honly, hstack⟩ := h.stack
      refine ⟨ws ++ [w], by simp, fun v hv => ?_, by simp [hstack]⟩
      rcases List.mem_append.mp hv with hv | hv
      · exact honly v hv
      · exact List.mem_singleton.mp hv ▸ hw
    reflects := { h.reflects with } }

/-- The machine with some operands only, about to go on elsewhere. -/
theorem back (h : L.Loaded A s us p st m) {ws : List Value} (hws : ∀ w ∈ ws, w.Only (L.Known st))
    {i : Instruction} : L.Loaded A s (ws.map Value.bare) t st
      ({ m.fetched i with stack := s ++ ws.toArray }.jumped t) where
  frame := by
    simp only [jumped, fetched, h.frame]
  callers := h.callers
  stack := ⟨ws, rfl, hws, rfl⟩
  slots := h.slots
  free := h.free
  reflects := { h.reflects with }
  grown := h.grown

/-- The operands are taken by the instruction, and the next one is at `q`. -/
theorem take (h : L.Loaded A s us p st m) (hhas : A.body.Has pos op a b p q) {ws : List Value}
    (hws : ∀ w ∈ ws, w.Only (L.Known st)) : L.Loaded A s (ws.map Value.bare) q st
      { m.fetched ⟨op, a, b⟩ with stack := s ++ ws.toArray } := by
  have hback := h.back (t := q) hws (i := ⟨op, a, b⟩)
  have hsame : { m.fetched ⟨op, a, b⟩ with stack := s ++ ws.toArray }.jumped q =
      { m.fetched ⟨op, a, b⟩ with stack := s ++ ws.toArray } := by
    simp only [jumped, fetched, h.frame, hhas.2, Instruction.size]
  rwa [hsame] at hback

/-- All operands are taken. -/
theorem drop (h : L.Loaded A s us p st m) (hhas : A.body.Has pos op a b p q) :
    L.Loaded A s [] q st { m.fetched ⟨op, a, b⟩ with stack := s } := by
  have hnone : ∀ w ∈ ([] : List Value), w.Only (L.Known st) := by simp
  simpa using h.take hhas hnone

/-- An instruction that takes operands and has a value or fails. -/
theorem looked {e : Except Trap Value} (h : L.Loaded A s (vs ++ us) p st m) (hA : A.Runs)
    (hhas : A.body.Has pos op a b p q) (hjump : op.isJump = false)
    (hexec : ∀ s' (zs : List Value), zs.map Value.bare = us → (∀ z ∈ zs, z.Only (L.Known st)) →
      (m.fetched ⟨op, a, b⟩).stack = s' ++ zs.toArray →
      ∃ f, (execute x ⟨op, a, b⟩).run (m.fetched ⟨op, a, b⟩) =
          { m.fetched ⟨op, a, b⟩ with stack := s' }.looked f ∧
        f.map Value.bare = e ∧ Computes (L.Known st) f) :
    m.Agrees x L.Shares n (fun v => L.Loaded A s (vs ++ [v]) q) ((Eval.lift e).run st) := by
  obtain ⟨ws, zs, rfl, hzs, hstack, hws, honly⟩ := h.split
  obtain ⟨f, hrun, rfl, hcomputes⟩ := hexec _ zs hzs honly hstack
  have htake := h.take hhas hws
  have hstep := h.advance (x := x) hA hhas (by simp [hjump])
  rw [hrun] at hstep
  refine .looked (Q := fun v => L.Loaded A s (ws.map Value.bare ++ [v]) q) hstep
    { h.reflects with } fun v hv => ?_
  exact htake.push (hcomputes.only v hv)

/-- An instruction that pushes a value. -/
theorem pushed (h : L.Loaded A s vs p st m) (hA : A.Runs) (hhas : A.body.Has pos op a b p q)
    (hjump : op.isJump = false) (hexec : (execute x ⟨op, a, b⟩).run (m.fetched ⟨op, a, b⟩) =
      (m.fetched ⟨op, a, b⟩).pushed w) (hw : w.Only (L.Known st)) :
    m.Agrees x L.Shares n (fun v => L.Loaded A s (vs ++ [v]) q) (.ok w.bare st) := by
  rw [← List.append_nil vs] at h
  refine h.looked (e := .ok w.bare) hA hhas hjump fun s' zs hzs _ hstack => ?_
  obtain rfl := List.map_eq_nil_iff.mp hzs
  obtain rfl : (m.fetched ⟨op, a, b⟩).stack = s' := by simpa using hstack
  exact ⟨.ok w, hexec, rfl, .ok hw⟩

end Loaded

theorem one_of_bare {zs : List Value} (h : zs.map Value.bare = [v]) :
    ∃ z, zs = [z] ∧ z.bare = v := by
  match zs, h with
  | [z], h => exact ⟨z, rfl, (List.cons.inj h).1⟩

/-- A single operand. -/
theorem Loaded.top (h : L.Loaded A s [v] p st m) :
    ∃ z : Value, z.bare = v ∧ z.Only (L.Known st) ∧ m.stack = s.push z := by
  obtain ⟨ws, hws, honly, hstack⟩ := h.stack
  obtain ⟨z, rfl, rfl⟩ := one_of_bare hws
  exact ⟨z, rfl, honly z List.mem_cons_self, by simpa using hstack⟩

/-- Without a limit nothing is paid. -/
theorem paid_free (h : m.budget = none) :
    { m with stack := s }.paid v = { m with stack := s }.looked (.ok v) := by
  simp only [paid, h, Machine.looked]

theorem yielded_free (h : m.budget = none) (e : Except Trap Value) :
    { m with stack := s }.yielded e = { m with stack := s }.looked e := by
  cases e with
  | ok v => exact paid_free h
  | error t => rfl

section Operators

theorem two_of_bare {zs : List Value} (h : zs.map Value.bare = [v, w]) :
    ∃ y z, zs = [y, z] ∧ y.bare = v ∧ z.bare = w := by
  match zs, h with
  | [y, z], h =>
    obtain ⟨hy, hz⟩ := List.cons.inj h
    exact ⟨y, z, rfl, hy, (List.cons.inj hz).1⟩

theorem three_of_bare {zs : List Value} (h : zs.map Value.bare = [u, v, w]) :
    ∃ a b c, zs = [a, b, c] ∧ a.bare = u ∧ b.bare = v ∧ c.bare = w := by
  match zs, h with
  | [a, b, c], h =>
    obtain ⟨ha, hbc⟩ := List.cons.inj h
    obtain ⟨hb, hc⟩ := List.cons.inj hbc
    exact ⟨a, b, c, rfl, ha, hb, (List.cons.inj hc).1⟩

/-- An operator with one operand. -/
theorem Loaded.unary {f : Value → Except Trap Value} (h : L.Loaded A s (vs ++ [v]) p st m)
    (hA : A.Runs) (hhas : A.body.Has pos op 0 0 p q) (hjump : op.isJump = false)
    (hexec : ∀ (m : Machine) s' z, m.budget = none → m.stack = s'.push z →
      (execute x ⟨op, 0, 0⟩).run m = { m with stack := s' }.looked (f z))
    (hbare : ∀ z, f z.bare = (f z).map Value.bare)
    (hcomputes : ∀ z, Computes (L.Known st) (f z)) :
    m.Agrees x L.Shares n (fun v => L.Loaded A s (vs ++ [v]) q) ((Eval.lift (f v)).run st) := by
  refine h.looked hA hhas hjump fun s' zs hzs honly hstack => ?_
  obtain ⟨z, rfl, rfl⟩ := one_of_bare hzs
  exact ⟨f z, hexec _ s' z h.reflects.budget (by simpa using hstack), (hbare z).symm, hcomputes z⟩

/-- An operator with two operands. -/
theorem Loaded.binary {f : Value → Value → Except Trap Value}
    (h : L.Loaded A s (vs ++ [v, w]) p st m) (hA : A.Runs) (hhas : A.body.Has pos op 0 0 p q)
    (hjump : op.isJump = false)
    (hexec : ∀ (m : Machine) s' y z, m.budget = none → m.stack = (s'.push y).push z →
      (execute x ⟨op, 0, 0⟩).run m = { m with stack := s' }.looked (f y z))
    (hbare : ∀ y z, f y.bare z.bare = (f y z).map Value.bare)
    (hcomputes : ∀ y z, y.Only (L.Known st) → z.Only (L.Known st) →
      Computes (L.Known st) (f y z)) :
    m.Agrees x L.Shares n (fun v => L.Loaded A s (vs ++ [v]) q) ((Eval.lift (f v w)).run st) := by
  refine h.looked hA hhas hjump fun s' zs hzs honly hstack => ?_
  obtain ⟨y, z, rfl, rfl, rfl⟩ := two_of_bare hzs
  refine ⟨f y z, hexec _ s' y z h.reflects.budget ?_, (hbare y z).symm,
    hcomputes y z (honly y (by simp)) (honly z (by simp))⟩
  exact Array.toList_inj.mp (by simp [hstack])

/-- An operator with three operands. -/
theorem Loaded.ternary {f : Value → Value → Value → Except Trap Value}
    (h : L.Loaded A s (vs ++ [u, v, w]) p st m) (hA : A.Runs) (hhas : A.body.Has pos op 0 0 p q)
    (hjump : op.isJump = false)
    (hexec : ∀ (m : Machine) s' a b c, m.budget = none → m.stack = ((s'.push a).push b).push c →
      (execute x ⟨op, 0, 0⟩).run m = { m with stack := s' }.looked (f a b c))
    (hbare : ∀ a b c, f a.bare b.bare c.bare = (f a b c).map Value.bare)
    (hcomputes : ∀ a b c, a.Only (L.Known st) → c.Only (L.Known st) →
      Computes (L.Known st) (f a b c)) :
    m.Agrees x L.Shares n (fun v => L.Loaded A s (vs ++ [v]) q)
      ((Eval.lift (f u v w)).run st) := by
  refine h.looked hA hhas hjump fun s' zs hzs honly hstack => ?_
  obtain ⟨a, b, c, rfl, rfl, rfl, rfl⟩ := three_of_bare hzs
  refine ⟨f a b c, hexec _ s' a b c h.reflects.budget ?_, (hbare a b c).symm,
    hcomputes a b c (honly a (by simp)) (honly c (by simp))⟩
  exact Array.toList_inj.mp (by simp [hstack])

end Operators

/-- A condition is tested: the run goes on behind the test or elsewhere. -/
theorem Loaded.jumpFalsy (h : L.Loaded A s (vs ++ [v]) p st m) (hA : A.Runs)
    (hhas : A.body.Has pos .jumpFalsy t 0 p q) : ∃ m', m.advance x = .next m' ∧
      L.Loaded A s vs (if v.isTruthy then q else t) st m' := by
  obtain ⟨ws, zs, rfl, hzs, hstack, hws, honly⟩ := h.split
  obtain ⟨z, rfl, rfl⟩ := one_of_bare hzs
  have hstep := h.advance (x := x) hA hhas (fun _ => rfl)
  rw [execute_jumpFalsy (s := s ++ ws.toArray) (v := z) (by simpa [fetched] using hstack)] at hstep
  have htruthy : z.bare.isTruthy = z.isTruthy := Value.disguises_bare.isTruthy_eq z
  refine ⟨_, hstep, ?_⟩
  rw [htruthy]
  cases hz : z.isTruthy with
  | true => exact h.take hhas hws
  | false => exact h.back hws

/-- The value before `and` or `or` stays as the result of the operation, or it makes room for the
value behind. -/
theorem Loaded.shortCircuit (h : L.Loaded A s (vs ++ [v]) p st m) (hA : A.Runs) {stay : Bool}
    (hhas : A.body.Has pos op t 0 p q)
    (hop : op = .andJump ∧ stay = !v.isTruthy ∨ op = .orJump ∧ stay = v.isTruthy) :
    ∃ m', m.advance x = .next m' ∧
      if stay then L.Loaded A s (vs ++ [v]) t st m' else L.Loaded A s vs q st m' := by
  obtain ⟨ws, zs, rfl, hzs, hstack, hws, honly⟩ := h.split
  obtain ⟨z, rfl, rfl⟩ := one_of_bare hzs
  have hstep := h.advance (x := x) hA hhas (fun _ => rfl)
  have htop : (m.fetched ⟨op, t, 0⟩).stack = (s ++ ws.toArray).push z := by
    simpa [fetched] using hstack
  have hstay : L.Loaded A s (ws.map Value.bare ++ [z.bare]) t st
      ((m.fetched ⟨op, t, 0⟩).jumped t) := by
    have hall (w : Value) (hw : w ∈ ws ++ [z]) : w.Only (L.Known st) :=
      (List.mem_append.mp hw).elim (hws w) (honly w)
    have hback := h.back (t := t) hall (i := ⟨op, t, 0⟩)
    have hsame : { m.fetched ⟨op, t, 0⟩ with stack := s ++ (ws ++ [z]).toArray } =
        m.fetched ⟨op, t, 0⟩ := by
      simp [fetched, hstack]
    rw [hsame] at hback
    simpa using hback
  have hleave := h.take hhas hws
  have htruthy : z.bare.isTruthy = z.isTruthy := Value.disguises_bare.isTruthy_eq z
  rw [htruthy] at hop
  rcases hop with ⟨rfl, rfl⟩ | ⟨rfl, rfl⟩
  · rw [execute_andJump htop] at hstep
    refine ⟨_, hstep, ?_⟩
    cases hz : z.isTruthy with
    | true => exact hleave
    | false => exact hstay
  · rw [execute_orJump htop] at hstep
    refine ⟨_, hstep, ?_⟩
    cases hz : z.isTruthy with
    | true => exact hstay
    | false => exact hleave

theorem Loaded.jump (h : L.Loaded A s [] p st m) (hA : A.Runs)
    (hhas : A.body.Has pos .jump t 0 p q) : ∃ m', m.advance x = .next m' ∧
      L.Loaded A s [] t st m' := by
  have hstep := h.advance (x := x) hA hhas (fun _ => rfl)
  rw [execute_jump] at hstep
  obtain ⟨ws, hws, -, hstack⟩ := h.stack
  obtain rfl := List.map_eq_nil_iff.mp hws
  refine ⟨_, hstep, ?_⟩
  have hnone : ∀ w ∈ ([] : List Value), w.Only (L.Known st) := by simp
  have hback := h.back (t := t) hnone (i := ⟨.jump, t, 0⟩)
  have hsame : { m.fetched ⟨.jump, t, 0⟩ with stack := s ++ ([] : List Value).toArray } =
      m.fetched ⟨.jump, t, 0⟩ := by
    simp [fetched, hstack]
  rwa [hsame] at hback

/-- The value of an expression statement is dropped. -/
theorem Loaded.pop (h : L.Loaded A s [v] p st m) (hA : A.Runs)
    (hhas : A.body.Has pos .pop 0 0 p q) : ∃ m', m.advance x = .next m' ∧
      L.Loaded A s [] q st m' := by
  obtain ⟨z, rfl, -, hstack⟩ := h.top
  have hstep := h.advance (x := x) hA hhas (fun _ => rfl)
  rw [execute_pop (show (m.fetched ⟨.pop, 0, 0⟩).stack = s.push z from hstack)] at hstep
  exact ⟨_, hstep, h.drop hhas⟩

end ScriptEngine.Image
