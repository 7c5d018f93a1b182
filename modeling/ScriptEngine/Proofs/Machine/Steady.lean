import ScriptEngine.Proofs.Machine.Execute
/-!
Only one instruction writes globals, and it does not fail: what an instruction that fails or ends
the program leaves are the globals it found. Signals are only added, and the clock counts steps.
-/
namespace ScriptEngine

/-- The state that part of an instruction ends in. -/
def EndState {α : Type} : EStateM.Result Halt Machine α → Machine
  | .ok _ m => m
  | .error _ m => m

namespace Machine

/-- A later state in the same step: signals may have been added. -/
structure Grows (m m' : Machine) : Prop where
  signals : ∃ new, m'.signals.toList = m.signals.toList ++ new
  clock : m'.clock = m.clock

/-- A later state with the same globals. -/
structure Mild (m m' : Machine) : Prop extends Grows m m' where
  globals : m'.globals = m.globals

variable {m m' m'' : Machine}

theorem Grows.trans (h : Grows m m') (h' : Grows m' m'') : Grows m m'' := by
  obtain ⟨⟨new, hnew⟩, hclock⟩ := h
  obtain ⟨⟨more, hmore⟩, hclock'⟩ := h'
  exact ⟨⟨new ++ more, by rw [hmore, hnew, List.append_assoc]⟩, hclock'.trans hclock⟩

theorem Mild.trans (h : Mild m m') (h' : Mild m' m'') : Mild m m'' :=
  ⟨h.toGrows.trans h'.toGrows, h'.globals.trans h.globals⟩

/-- Nothing has changed that counts here. -/
theorem Mild.of_eq (hs : m'.signals = m.signals) (hc : m'.clock = m.clock)
    (hg : m'.globals = m.globals) : Mild m m' :=
  ⟨⟨⟨[], by rw [hs, List.append_nil]⟩, hc⟩, hg⟩

theorem Mild.refl (m : Machine) : Mild m m := .of_eq rfl rfl rfl

end Machine

namespace Exec

open Machine

variable {α β : Type} {x : Setting} {a b : Nat}

/-- Part of an instruction that leaves the globals alone. -/
def Steady (c : Exec α) : Prop := ∀ m, Mild m (EndState (c.run m))

namespace Steady

theorem pure (y : α) : Steady (pure y) := Mild.refl

theorem throw (h : Halt) : Steady (throw h : Exec α) := Mild.refl

theorem bind {c : Exec α} {f : α → Exec β} (hc : Steady c) (hf : ∀ y, Steady (f y)) :
    Steady (c >>= f) := by
  intro m
  have hm := hc m
  rw [run_bind]
  cases hrun : c.run m with
  | ok y m' =>
    rw [hrun] at hm
    exact hm.trans (hf y m')
  | error h m' =>
    rw [hrun] at hm
    exact hm

/-- The rest of a part may look at the state. -/
theorem get {f : Machine → Exec α} (h : ∀ m, Steady (f m)) : Steady (get >>= f) :=
  fun m => h m m

theorem modify {f : Machine → Machine} (h : ∀ m, Mild m (f m)) : Steady (modify f) :=
  fun m => h m

end Steady

theorem invalid_steady : Steady (invalid : Exec α) := .get fun _ => .throw _

theorem lift_steady (r : Except Trap α) : Steady (lift r) :=
  match r with
  | .ok y => .pure y
  | .error _ => .throw _

theorem push_steady (v : Value) : Steady (push v) := by
  refine .get fun m => ?_
  split
  · exact .throw _
  · exact .modify fun _ => .of_eq rfl rfl rfl

theorem peek_steady : Steady peek := by
  refine .get fun m => ?_
  split
  · exact .pure _
  · exact invalid_steady

theorem pop_steady : Steady pop :=
  peek_steady.bind fun _ => .bind (.modify fun _ => .of_eq rfl rfl rfl) fun _ => .pure _

theorem popMany_steady (n : Nat) : Steady (popMany n) := by
  refine .get fun m => ?_
  dsimp only
  split
  · exact invalid_steady
  · exact fun _ => .of_eq rfl rfl rfl

theorem allocate_steady : Steady allocate := by
  refine .get fun m => ?_
  split
  · exact .pure _
  · exact .throw _
  · exact .modify fun _ => .of_eq rfl rfl rfl

theorem pushNew_steady (v : Value) : Steady (pushNew v) :=
  allocate_steady.bind fun _ => push_steady v

theorem jump_steady (target : Nat) : Steady (jump target) := .modify fun _ => .of_eq rfl rfl rfl

theorem localPlace_steady (slot : Nat) : Steady (localPlace slot) := by
  refine .get fun m => ?_
  dsimp only
  split
  · exact .pure _
  · exact invalid_steady

theorem leave_steady (v : Value) : Steady (leave v) := by
  refine .get fun m => ?_
  split
  · exact .pure _
  · exact .bind (.modify fun _ => .of_eq rfl rfl rfl) fun _ => (push_steady v).bind fun _ => .pure _

theorem enter_steady (place args : Nat) (r : Routine) (free : List Value) :
    Steady (enter place args r free) := by
  unfold enter
  split
  · exact .throw _
  · refine .get fun m => ?_
    split
    · exact .throw _
    · refine .get fun m => ?_
      split
      · exact .throw _
      · exact .modify fun _ => .of_eq rfl rfl rfl

theorem answer_steady (place : Nat) (v : Value) : Steady (answer place v) :=
  .bind (.modify fun _ => .of_eq rfl rfl rfl) fun _ => pushNew_steady v

theorem call_steady (args : Nat) : Steady (call x args) := by
  refine .get fun m => ?_
  dsimp only
  split
  · exact invalid_steady
  · refine .get fun m => ?_
    split
    · exact enter_steady _ _ _ _
    · exact enter_steady _ _ _ _
    · refine .bind (fun _ => .of_eq rfl rfl rfl) fun vs => ?_
      split
      · exact answer_steady _ _
      · exact .throw _
    · refine .bind (fun _ => .of_eq rfl rfl rfl) fun vs => ?_
      split
      · exact answer_steady _ _
      · exact .throw _
      · exact .throw _
      · refine .bind (.modify fun _ => ⟨⟨⟨_, Array.toList_push⟩, rfl⟩, rfl⟩) fun _ => ?_
        exact answer_steady _ _
    · exact .throw _

theorem close_steady (index captured : Nat) : Steady (close x index captured) := by
  unfold close
  split
  · refine (popMany_steady captured).bind fun free => allocate_steady.bind fun _ => ?_
    exact .bind (fun _ => .of_eq rfl rfl rfl) fun _ => push_steady _
  · exact invalid_steady

/-- Every instruction but one leaves the globals alone. -/
theorem perform_steady (op : Opcode) (h : op ≠ .setGlobal) : Steady (perform x op a b) := by
  cases op with
  | constant =>
    simp only [perform]
    split
    · exact push_steady _
    · exact invalid_steady
  | undefined => exact push_steady _
  | pushTrue => exact push_steady _
  | pushFalse => exact push_steady _
  | pop => exact pop_steady.bind fun _ => .pure _
  | arith op =>
    exact pop_steady.bind fun _ => pop_steady.bind fun _ => (lift_steady _).bind pushNew_steady
  | order c =>
    exact pop_steady.bind fun _ => pop_steady.bind fun _ => (lift_steady _).bind pushNew_steady
  | equal => exact pop_steady.bind fun _ => pop_steady.bind fun _ => push_steady _
  | notEqual => exact pop_steady.bind fun _ => pop_steady.bind fun _ => push_steady _
  | negate => exact pop_steady.bind fun _ => (lift_steady _).bind pushNew_steady
  | not => exact pop_steady.bind fun _ => push_steady _
  | jump => exact jump_steady a
  | jumpFalsy =>
    refine pop_steady.bind fun v => ?_
    split
    · exact .pure _
    · exact jump_steady a
  | andJump =>
    refine peek_steady.bind fun v => ?_
    split
    · exact pop_steady.bind fun _ => .pure _
    · exact jump_steady a
  | orJump =>
    refine peek_steady.bind fun v => ?_
    split
    · exact jump_steady a
    · exact pop_steady.bind fun _ => .pure _
  | getGlobal => exact .get fun _ => push_steady _
  | setGlobal => exact absurd rfl h
  | getLocal => exact (localPlace_steady a).bind fun _ => .get fun _ => push_steady _
  | setLocal =>
    exact pop_steady.bind fun _ => (localPlace_steady a).bind fun _ => .modify fun _ => .of_eq rfl rfl rfl
  | getBuiltin =>
    simp only [perform]
    split
    · exact push_steady _
    · exact invalid_steady
  | getFree =>
    refine .get fun m => ?_
    split
    · exact push_steady _
    · exact invalid_steady
  | array => exact (popMany_steady a).bind fun _ => pushNew_steady _
  | map => exact (popMany_steady (2 * a)).bind fun _ => (lift_steady _).bind pushNew_steady
  | index =>
    exact pop_steady.bind fun _ => pop_steady.bind fun _ => (lift_steady _).bind push_steady
  | setIndex =>
    exact pop_steady.bind fun _ => pop_steady.bind fun _ => pop_steady.bind fun _ =>
      (lift_steady _).bind pushNew_steady
  | call => exact call_steady a
  | closure => exact close_steady a b
  | ret => exact .pure _
  | suspend => exact .pure _

theorem fetch_steady : Steady fetch := by
  refine .get fun m => ?_
  dsimp only
  split
  · split
    · exact .bind (.modify fun _ => .of_eq rfl rfl rfl) fun _ => .pure _
    · exact .throw _
  · exact .pure _

/-- Whatever does not go on leaves the globals alone. -/
def Settles (c : Exec Flow) : Prop :=
  ∀ m, (∃ m', c.run m = .ok .proceed m' ∧ Grows m m') ∨ Mild m (EndState (c.run m))

theorem Steady.settles {c : Exec Flow} (h : Steady c) : Settles c := fun m => Or.inr (h m)

theorem Steady.bind_settles {c : Exec α} {f : α → Exec Flow} (hc : Steady c)
    (hf : ∀ y, Settles (f y)) : Settles (c >>= f) := by
  intro m
  have hm := hc m
  rw [run_bind]
  cases hrun : c.run m with
  | ok y m' =>
    rw [hrun] at hm
    obtain ⟨m'', hnext, hgrows⟩ | hmild := hf y m'
    · exact Or.inl ⟨m'', hnext, hm.toGrows.trans hgrows⟩
    · exact Or.inr (hm.trans hmild)
  | error h m' =>
    rw [hrun] at hm
    exact Or.inr hm

/-- That holds for the instructions that end a frame as well. -/
theorem execute_steady {i : Instruction} (h : i.op ≠ .setGlobal) : Steady (execute x i) := by
  obtain ⟨op, a, b⟩ := i
  cases op with
  | ret =>
    simp only [execute]
    split
    · exact pop_steady.bind leave_steady
    · exact leave_steady _
  | suspend => exact .pure _
  | _ => exact (perform_steady _ h).bind fun _ => .pure _

theorem execute_settles (i : Instruction) : Settles (execute x i) := by
  by_cases hset : i.op = .setGlobal
  · obtain ⟨op, a, b⟩ := i
    obtain rfl : op = .setGlobal := hset
    simp only [execute, perform, bind_assoc]
    exact pop_steady.bind_settles fun v m =>
      Or.inl ⟨_, rfl, ⟨[], (List.append_nil _).symm⟩, rfl⟩
  · exact (execute_steady hset).settles

theorem step_settles : Settles (step x) := by
  refine fetch_steady.bind_settles fun i? => ?_
  cases i? with
  | some i => exact execute_settles i
  | none => exact (leave_steady _).settles

end Exec

/-- The state that a step leads to. -/
def Advance.state : Advance → Machine
  | .next m | .finished m | .halted _ m => m

theorem Advance.state_of (done : Done) : (Advance.of done).state = EndState done := by
  cases done with
  | ok flow m => cases flow <;> rfl
  | error e m => rfl

namespace Machine

variable {x : Setting} {m m' : Machine} {h : Halt}

/-- In a step signals are added and the clock moves on by one; only a step after which the program
goes on changes the globals. -/
theorem advance_settles (x : Setting) (m : Machine) :
    Grows { m with clock := m.clock + 1 } (m.advance x).state ∧
      ((∀ m', m.advance x ≠ .next m') → (m.advance x).state.globals = m.globals) := by
  have hsettles := Exec.step_settles (x := x) { m with clock := m.clock + 1 }
  unfold advance
  revert hsettles
  cases (Exec.step x).run { m with clock := m.clock + 1 } with
  | ok flow m' =>
    rintro (⟨m'', hnext, hgrows⟩ | hmild)
    · cases hnext
      exact ⟨hgrows, fun hne => absurd rfl (hne m')⟩
    · cases flow <;> exact ⟨hmild.toGrows, fun _ => hmild.globals⟩
  | error e m' =>
    rintro (⟨m'', hnext, -⟩ | hmild)
    · cases hnext
    · exact ⟨hmild.toGrows, fun _ => hmild.globals⟩

theorem globals_of_halted (hadv : m.advance x = .halted h m') : m'.globals = m.globals := by
  have hsettles := (advance_settles x m).2
  rw [hadv] at hsettles
  exact hsettles fun _ => nofun

theorem globals_of_finished (hadv : m.advance x = .finished m') : m'.globals = m.globals := by
  have hsettles := (advance_settles x m).2
  rw [hadv] at hsettles
  exact hsettles fun _ => nofun

end Machine

end ScriptEngine
