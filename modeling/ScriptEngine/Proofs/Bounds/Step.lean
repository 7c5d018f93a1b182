import ScriptEngine.Proofs.Bounds.Follows
/-!
Whole instructions with and without guards, and the place in the source that an error names.
-/
namespace ScriptEngine.Checked

open Vm

variable {x : Setting} {a b : Nat}

/-! The next instruction -/

theorem operandAt_extract (code : Array UInt8) (k width place : Nat) :
    operandAt (code.extract k code.size) width place = operandAt code width (k + place) := by
  induction width generalizing place with
  | zero => rfl
  | succ width ih =>
    have hbyte : (code.extract k code.size).getD place 0 = code.getD (k + place) 0 := by
      simp only [Array.getD_eq_getD_getElem?, Array.getElem?_extract]
      by_cases h : place < code.size - k
      · simp [h]
      · have hout : code.size ≤ k + place := by omega
        simp [h, hout]
    simp only [operandAt, hbyte, ih]
    rfl

theorem operandsAt_extract (op : Opcode) (code : Array UInt8) (k : Nat) :
    op.operandsAt (code.extract k code.size) 0 = op.operandsAt code k := by
  unfold Opcode.operandsAt
  split <;> simp only [operandAt_extract, Nat.add_zero, Nat.zero_add]

theorem fetch_follows :
    Follows x (Kept x (Option Instruction)) (Exec.fetch x) ScriptEngine.Exec.fetch := by
  refine .get fun g hg => ?_
  obtain ⟨callers, frame, hframes⟩ := hg.frames_eq
  simp only [hframes, Array.back?_push, (plain_frames hframes).1]
  have hcode : (frame.plain x).routine.code = (frame.callee.routine x).code := rfl
  have hip : (frame.plain x).ip = frame.ip := rfl
  simp only [hcode, hip]
  by_cases h : frame.ip < (frame.callee.routine x).code.size
  · simp only [h, if_true, Instruction.at?, Array.getElem?_eq_getElem h, Option.bind_eq_bind,
      Option.bind_some]
    cases hop : Opcode.ofByte? (frame.callee.routine x).code[frame.ip] with
    | none => exact Follows.trap _ g hg
    | some op =>
      simp only [Option.bind_some, Option.pure_def]
      rw [suffix_eq h]
      simp only [Exec.access, pure_bind, operandsAt_extract]
      have hnext := hg.reframe hframes (rfl : { frame with ip := frame.ip + op.size }.callee = _)
      refine ⟨rfl, ?_, by simp [plain, hframes, Activation.plain, Instruction.size]⟩
      simp only [hframes, Array.pop_push]
      exact ⟨hnext.active, hnext.depth, hnext.main_iff, hnext.room⟩
  · simp only [h, if_false, Array.getElem?_eq_none (Nat.le_of_not_lt h)]
    exact Follows.pure none g hg

/-! Calls -/

theorem enter_follows (callee : Callee) {place args : Nat} {r : Routine} {free : List Value}
    (hr : callee.routine x = r) (hfree : callee.free = free) (hmain : callee ≠ .main) :
    Follows x (Kept x Unit) (Exec.enter place args r callee)
      (ScriptEngine.Exec.enter place args r free) := by
  intro g hg
  obtain ⟨callers, frame, hframes⟩ := hg.frames_eq
  have hsize : (g.plain x).callers.size + 1 = g.frames.size := by
    simp [(plain_frames hframes).2, hframes]
  unfold Exec.enter ScriptEngine.Exec.enter
  by_cases hp : r.params = args
  · simp only [hp, ne_eq, not_true_eq_false, if_false]
    rw [EStateM.run_bind, EStateM.run_bind, EStateM.run_get, EStateM.run_get]
    dsimp only
    rw [hsize]
    by_cases hdeep : Machine.maxFrames ≤ g.frames.size
    · simp only [hdeep, if_true]
      exact Follows.trap _ g hg
    · simp only [hdeep, if_false]
      rw [EStateM.run_bind, EStateM.run_bind, EStateM.run_get, EStateM.run_get]
      dsimp only
      rw [plain_stack]
      by_cases hroom : Machine.maxStack < g.stack.size + (r.locals - args)
      · simp only [hroom, if_true]
        exact Follows.trap _ g hg
      · simp only [hroom, if_false]
        refine ⟨rfl, ⟨?_, ?_, ?_, ?_⟩, ?_⟩
        · simp
        · simp
          omega
        · intro i hi
          have := hg.active
          simp only [Array.getElem_push]
          split
          · exact hg.main_iff i _
          · refine iff_of_false hmain ?_
            omega
        · simp
          omega
        · subst hr hfree
          simp [plain, hframes, Activation.plain]
  · simp only [hp, ne_eq, not_false_eq_true, if_true]
    exact Follows.trap _ g hg

theorem answer_follows (place : Nat) (v : Value) :
    Follows x (Kept x Unit) (Exec.answer place v) (ScriptEngine.Exec.answer place v) :=
  .bind (.modify fun _ hg => (hg.shrink place).shows) fun _ => pushNew_follows v

/-- The rest of a part looks at the values above a place of the stack. -/
theorem Same.popFrom {α : Type} {R : α → Vm → Machine → Prop} {g : Vm} (hg : g.Bounded x)
    {place : Nat} (h : place ≤ g.stack.size) {f : List Value → Exec α}
    {k : List Value → ScriptEngine.Exec α} (hf : ∀ vs, Follows x R (f vs) (k vs)) :
    Same x R ((Exec.popFrom place >>= f).run g)
      ((ScriptEngine.Exec.popFrom place >>= k).run (g.plain x)) := by
  have hrun : (Exec.popFrom place).run g =
      .ok (g.stack.extract place g.stack.size).toList { g with stack := g.stack.shrink place } := by
    simp only [Exec.popFrom]
    rw [EStateM.run_bind, EStateM.run_get]
    dsimp only
    rw [suffix_eq h]
    rfl
  rw [EStateM.run_bind, EStateM.run_bind, hrun]
  exact hf _ _ (hg.shrink place)

theorem call_follows (args : Nat) :
    Follows x (Kept x Unit) (Exec.call x args) (ScriptEngine.Exec.call x args) := by
  refine .get fun g hg => ?_
  rw [plain_stack]
  by_cases h : g.stack.size < args + 1
  · simp only [h, if_true]
    exact invalid_follows g hg
  · simp only [h, if_false]
    have hplace : g.stack.size - (args + 1) < g.stack.size := by omega
    have hcallee : g.stack.getD (g.stack.size - (args + 1)) .undefined =
        g.stack[g.stack.size - (args + 1)] := by
      simp [Array.getD, hplace]
    rw [EStateM.run_bind, EStateM.run_bind, EStateM.run_get, EStateM.run_get]
    dsimp only
    rw [plain_stack, hcallee, read_eq hplace]
    simp only [Exec.access, pure_bind]
    cases g.stack[g.stack.size - (args + 1)] with
    | function id r => exact enter_follows (.function r) rfl rfl (by simp) g hg
    | closure id r free => exact enter_follows (.closure r free) rfl rfl (by simp) g hg
    | builtin f =>
      refine Same.popFrom hg hplace fun vs => ?_
      cases f.call vs with
      | ok v => exact answer_follows _ v
      | error e => exact .trap _
    | native id name =>
      refine Same.popFrom hg hplace fun vs => ?_
      cases hreply : x.host.call id name vs with
      | value v => exact answer_follows _ v
      | refused e => exact .trap _
      | panic p => exact .panic hreply
      | signal s =>
        exact .bind (.modify fun g hg =>
          ⟨⟨hg.active, hg.depth, hg.main_iff, hg.room⟩, rfl⟩) fun _ => answer_follows _ _
    | _ => exact Follows.trap _ g hg

theorem close_follows (index captured : Nat) :
    Follows x (Kept x Unit) (Exec.close x index captured)
      (ScriptEngine.Exec.close x index captured) := by
  unfold Exec.close ScriptEngine.Exec.close
  cases x.bytecode.pool[index]? with
  | none => exact invalid_follows
  | some v =>
    cases v with
    | function id r =>
      refine (popMany_follows captured).bind fun free => allocate_follows.bind fun _ => ?_
      refine .bind (fun g hg => ?_) fun serial => push_follows _
      exact ⟨rfl, ⟨hg.active, hg.depth, hg.main_iff, hg.room⟩, rfl⟩
    | _ => exact invalid_follows

/-! Instructions -/

theorem getFree_follows :
    Follows x (Kept x Unit) (Exec.perform x .getFree a b)
      (ScriptEngine.Exec.perform x .getFree a b) := by
  refine .get fun g hg => ?_
  obtain ⟨callers, ⟨callee, ip, base⟩, hframes⟩ := hg.frames_eq
  simp only [hframes, Array.back?_push, (plain_frames hframes).1, Activation.plain]
  cases callee with
  | closure r free =>
    simp only [Callee.free]
    cases free[a]? with
    | some v => exact push_follows v g hg
    | none => exact invalid_follows g hg
  | _ => exact invalid_follows g hg

theorem perform_follows (op : Opcode) :
    Follows x (Kept x Unit) (Exec.perform x op a b) (ScriptEngine.Exec.perform x op a b) := by
  cases op with
  | constant =>
    simp only [Exec.perform, ScriptEngine.Exec.perform]
    cases x.bytecode.pool[a]? with
    | some v => exact push_follows v
    | none => exact invalid_follows
  | undefined => exact push_follows _
  | pushTrue => exact push_follows _
  | pushFalse => exact push_follows _
  | pop => exact pop_follows.bind fun _ => .pure ()
  | arith op =>
    exact pop_follows.bind fun right => pop_follows.bind fun left =>
      (arith_follows op left right).bind pushNew_follows
  | order c =>
    exact pop_follows.bind fun right => pop_follows.bind fun left =>
      (lift_follows (c.apply left right)).bind pushNew_follows
  | equal => exact pop_follows.bind fun right => pop_follows.bind fun left => push_follows _
  | notEqual => exact pop_follows.bind fun right => pop_follows.bind fun left => push_follows _
  | negate => exact pop_follows.bind fun v => (lift_follows v.negate).bind pushNew_follows
  | not => exact pop_follows.bind fun v => push_follows _
  | jump => exact jump_follows a
  | jumpFalsy =>
    refine pop_follows.bind fun v => ?_
    split
    · exact .pure ()
    · exact jump_follows a
  | andJump =>
    refine peek_follows.bind fun v => ?_
    split
    · exact pop_follows.bind fun _ => .pure ()
    · exact jump_follows a
  | orJump =>
    refine peek_follows.bind fun v => ?_
    split
    · exact jump_follows a
    · exact pop_follows.bind fun _ => .pure ()
  | getGlobal => exact .get fun g hg => push_follows _ g hg
  | setGlobal => exact pop_follows.bind fun v => setGlobal_follows a v
  | getLocal => exact getLocal_follows a
  | setLocal => exact setLocal_follows a
  | getBuiltin =>
    simp only [Exec.perform, ScriptEngine.Exec.perform]
    cases Builtin.all[a]? with
    | some f => exact push_follows _
    | none => exact invalid_follows
  | getFree => exact getFree_follows
  | array => exact (popMany_follows a).bind fun _ => pushNew_follows _
  | map =>
    exact (popMany_follows (2 * a)).bind fun items =>
      (lift_follows (Value.mapOf items [])).bind pushNew_follows
  | index =>
    exact pop_follows.bind fun index => pop_follows.bind fun container =>
      (element_follows container index).bind push_follows
  | setIndex =>
    exact pop_follows.bind fun value => pop_follows.bind fun index => pop_follows.bind
      fun container => (replaceElement_follows container index value).bind pushNew_follows
  | call => exact call_follows a
  | closure => exact close_follows a b
  | ret => exact .pure ()
  | suspend => exact .pure ()

/-- A state without its frames: what a finished run leaves behind. -/
def unframed (m : Machine) : Machine := { m with frame := default, callers := #[] }

/-- States belong together as long as the program goes on; in the end they do apart from their
frames. -/
def Onward (x : Setting) : Flow → Vm → Machine → Prop
  | .proceed, g, m => g.Shows x m
  | .finish, g, m => unframed (g.plain x) = unframed m

/-- The callers of a frame other than the first are bounded, too. -/
theorem Vm.Bounded.outer {g : Vm} (hg : g.Bounded x) {callers : Array Activation}
    {frame : Activation} (hframes : g.frames = callers.push frame) (hmore : callers.size ≠ 0)
    (n : Nat) : { g with frames := callers, stack := g.stack.shrink n }.Bounded x where
  active := by
    show 0 < callers.size
    omega
  depth := by
    have := hg.depth
    simp only [hframes, Array.size_push] at this
    exact Nat.le_of_succ_le this
  main_iff i hi := by
    have hlt : i < callers.size := hi
    have := hg.main_iff i (by simp [hframes]; omega)
    simpa [hframes, Array.getElem_push, hlt] using this
  room := (hg.shrink n).room

theorem leave_follows (v : Value) :
    Follows x (Onward x) (Exec.leave v) (ScriptEngine.Exec.leave v) := by
  refine .get fun g hg => ?_
  obtain ⟨callers, frame, hframes⟩ := hg.frames_eq
  have hmain : frame.callee = .main ↔ callers.size = 0 := by
    have := hg.main_iff callers.size (by simp [hframes])
    simpa [hframes] using this
  rw [(plain_frames hframes).2]
  simp only [hframes, Array.back?_push]
  rw [EStateM.run_bind, EStateM.run_modify]
  dsimp only
  rw [hframes, Array.pop_push]
  by_cases hone : callers.size = 0
  · have hcallers : callers = #[] := Array.eq_empty_of_size_eq_zero hone
    rw [hmain.mpr hone]
    have hback : ((#[] : Array Activation).map (·.plain x)).back? = none := by simp
    subst hcallers
    simp only [hback]
    exact ⟨rfl, rfl⟩
  · obtain ⟨outer, rest, hrest⟩ := Array.eq_push_of_size_ne_zero hone
    have hback : (callers.map (·.plain x)).back? = some (rest.plain x) := by simp [hrest]
    have hproceed : Follows x (Onward x) (pure .proceed) (pure .proceed) :=
      fun g hg => ⟨rfl, hg.shows⟩
    have hpush := (push_follows v).bind (fun _ => hproceed) _
      (hg.outer hframes hone (frame.base - 1))
    have hplain : { g with frames := callers, stack := g.stack.shrink (frame.base - 1) }.plain x =
        { g.plain x with
          stack := g.stack.shrink ((g.plain x).frame.base - 1), frame := rest.plain x
          callers := (g.plain x).callers.pop } := by
      simp [plain, hframes, hrest, Activation.plain]
    rw [hplain] at hpush
    simp only [hback]
    cases hcallee : frame.callee with
    | main => exact absurd (hmain.mp hcallee) hone
    | _ => exact hpush

theorem execute_follows (i : Instruction) :
    Follows x (Onward x) (Exec.execute x i) (ScriptEngine.Exec.execute x i) := by
  obtain ⟨op, a, b⟩ := i
  have hproceed : Follows x (Onward x) (pure .proceed) (pure .proceed) :=
    fun g hg => ⟨rfl, hg.shows⟩
  cases op with
  | ret =>
    simp only [Exec.execute, ScriptEngine.Exec.execute]
    split
    · exact pop_follows.bind leave_follows
    · exact leave_follows _
  | suspend => exact fun g hg => ⟨rfl, rfl⟩
  | _ => exact (perform_follows _).bind fun _ => hproceed

theorem step_follows : Follows x (Onward x) (Exec.step x) (ScriptEngine.Exec.step x) := by
  refine fetch_follows.bind fun i? => ?_
  cases i? with
  | some i => exact execute_follows i
  | none => exact leave_follows _

end ScriptEngine.Checked
