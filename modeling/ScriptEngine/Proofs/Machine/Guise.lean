import ScriptEngine.Proofs.Layout.Outline
import ScriptEngine.Proofs.Machine.Execute
import ScriptEngine.Proofs.Merge.Redirect
import ScriptEngine.Proofs.Value.Disguise
/-!
The machine with other functions in the place of those that it holds. Each part of an instruction does
the same there, with the states and values that it leaves disguised.
-/
namespace ScriptEngine

/-- An answer with its value replaced. -/
def Reply.map (φ : Value → Value) : Reply → Reply
  | .value v => .value (φ v)
  | other => other

/-- A disguise for all that a machine holds. The code of functions may be other code, but for a frame
of the same size. -/
structure Guise where
  who : FunctionId → FunctionId
  routine : Routine → Routine
  value : Value → Value
  globals : Globals → Globals
  disguises : Value.Disguises who routine (List.map value) value
  params : ∀ r, (routine r).params = r.params
  locals : ∀ r, (routine r).locals = r.locals

namespace Guise

def frame (G : Guise) (f : Frame) : Frame :=
  { f with routine := G.routine f.routine, free := f.free.map G.value }

def machine (G : Guise) (m : Machine) : Machine :=
  { m with
    globals := G.globals m.globals
    stack := m.stack.map G.value
    frame := G.frame m.frame
    callers := m.callers.map G.frame }

def advance (G : Guise) : Advance → Advance
  | .next m => .next (G.machine m)
  | .finished m => .finished (G.machine m)
  | .halted h m => .halted h (G.machine m)

/-- What a part of an instruction comes to, with its state and its value disguised. -/
def done {α : Type} (G : Guise) (f : α → α) :
    EStateM.Result Halt Machine α → EStateM.Result Halt Machine α
  | .ok y m => .ok (f y) (G.machine m)
  | .error h m => .error h (G.machine m)

/-- The disguise of globals is that of their values. -/
structure Global (G : Guise) : Prop where
  get? : ∀ g i, (G.globals g).get? i = (g.get? i).map G.value
  set : ∀ g i v, (G.globals g).set i (G.value v) = G.globals (g.set i v)

/-- The host of the second setting answers in disguise, and its closures are those of the first one. -/
structure Hosts (G : Guise) (x x' : Setting) : Prop where
  host : ∀ id name args,
    x'.host.call id name (args.map G.value) = (x.host.call id name args).map G.value
  maker : ∀ n, G.who ⟨x.maker, n⟩ = ⟨x'.maker, n⟩

/-- Two instructions are alike but for the places of the constants that they name. -/
structure Matches (G : Guise) (x x' : Setting) (i i' : Instruction) : Prop where
  op : i'.op = i.op
  b : i'.b = i.b
  plain : i.op.loadsConstant = false → i'.a = i.a
  constant : i.op.loadsConstant = true →
    x'.bytecode.pool[i'.a]? = (x.bytecode.pool[i.a]?).map G.value

variable (G : Guise)

theorem getD_machine (m : Machine) (place : Nat) :
    (G.machine m).stack.getD place .undefined = G.value (m.stack.getD place .undefined) := by
  rw [Array.getD_eq_getD_getElem?, Array.getD_eq_getD_getElem?]
  simp only [machine, Array.getElem?_map, G.disguises.getD_eq]

theorem advance_of (d : Done) : Advance.of (G.done id d) = G.advance (Advance.of d) := by
  cases d with
  | ok flow m => cases flow <;> rfl
  | error h m => rfl

end Guise

/-- On disguised states the one part does what the other does, in disguise. -/
def Mirrors {α : Type} (G : Guise) (f : α → α) (c c' : Exec α) : Prop :=
  ∀ m, c'.run (G.machine m) = G.done f (c.run m)

namespace Mirrors

variable {α β : Type} {G : Guise} {f : α → α} {g : β → β}

theorem pure (y : α) : Mirrors G f (pure y) (pure (f y)) := fun _ => rfl

theorem throw (h : Halt) : Mirrors G f (throw h) (throw h) := fun _ => rfl

theorem trap (t : Trap) : Mirrors G f (Exec.trap t) (Exec.trap t) := fun _ => rfl

theorem bind {c c' : Exec β} {k k' : β → Exec α} (h : Mirrors G g c c')
    (hk : ∀ y, Mirrors G f (k y) (k' (g y))) : Mirrors G f (c >>= k) (c' >>= k') := by
  intro m
  rw [Exec.run_bind, Exec.run_bind, h m]
  cases c.run m with
  | ok y m' => exact hk y m'
  | error h m' => rfl

/-- The rest of a part may look at the state. -/
theorem get {k k' : Machine → Exec α}
    (h : ∀ m, (k' (G.machine m)).run (G.machine m) = G.done f ((k m).run m)) :
    Mirrors G f (get >>= k) (get >>= k') := fun m => h m

theorem modify {k k' : Machine → Machine} (h : ∀ m, k' (G.machine m) = G.machine (k m)) :
    Mirrors G id (modify k) (modify k') := fun m => congrArg _ (h m)

theorem ite {p : Prop} [Decidable p] {c c' d d' : Exec α} (h : Mirrors G f c c')
    (h' : Mirrors G f d d') : Mirrors G f (if p then c else d) (if p then c' else d') := by
  split
  · exact h
  · exact h'

end Mirrors

namespace Exec

variable {α : Type} {G : Guise} {f : α → α}

theorem invalid_mirrors : Mirrors G f invalid invalid := .get fun _ => rfl

theorem lift_mirrors (e : Except Trap Value) :
    Mirrors G G.value (lift e) (lift (e.map G.value)) :=
  match e with
  | .ok v => .pure v
  | .error t => .trap t

theorem push_mirrors (v : Value) : Mirrors G id (push v) (push (G.value v)) := by
  refine .get fun m => ?_
  have hsize : (G.machine m).stack.size = m.stack.size := Array.size_map
  rw [hsize]
  refine Mirrors.ite (.trap _) (.modify fun m => ?_) m
  simp [Guise.machine]

/-- A value without functions is the same in disguise. -/
theorem push_kept {v : Value} (hv : v.dress G.who G.routine (List.map G.value) G.value = v) :
    Mirrors G id (push v) (push v) := by
  have hpush := push_mirrors (G := G) v
  rwa [← G.disguises.kept hv] at hpush

theorem peek_mirrors : Mirrors G G.value peek peek := by
  refine .get fun m => ?_
  have hback : (G.machine m).stack.back? = m.stack.back?.map G.value := Array.back?_map
  rw [hback]
  cases m.stack.back? with
  | none => exact invalid_mirrors m
  | some v => rfl

theorem pop_mirrors : Mirrors G G.value pop pop :=
  peek_mirrors.bind fun v =>
    .bind (g := id) (.modify fun m => by simp [Guise.machine]) fun _ => .pure v

theorem popFrom_mirrors (place : Nat) :
    Mirrors G (List.map G.value) (popFrom place) (popFrom place) := by
  intro m
  simp [popFrom, Guise.machine, Guise.done, Array.shrink_eq_take]

theorem popMany_mirrors (n : Nat) : Mirrors G (List.map G.value) (popMany n) (popMany n) := by
  refine .get fun m => ?_
  have hsize : (G.machine m).stack.size = m.stack.size := Array.size_map
  simp only [hsize]
  exact Mirrors.ite invalid_mirrors (popFrom_mirrors _) m

theorem allocate_mirrors : Mirrors G id allocate allocate := by
  refine .get fun m => ?_
  have hbudget : (G.machine m).budget = m.budget := rfl
  rw [hbudget]
  cases m.budget with
  | none => rfl
  | some left =>
    cases left with
    | zero => rfl
    | succ left => rfl

theorem pushNew_mirrors (v : Value) : Mirrors G id (pushNew v) (pushNew (G.value v)) :=
  allocate_mirrors.bind fun _ => push_mirrors v

theorem jump_mirrors (target : Nat) : Mirrors G id (jump target) (jump target) :=
  .modify fun _ => rfl

theorem localPlace_mirrors (slot : Nat) : Mirrors G id (localPlace slot) (localPlace slot) := by
  refine .get fun m => ?_
  have hsize : (G.machine m).stack.size = m.stack.size := Array.size_map
  simp only [hsize]
  exact Mirrors.ite (.pure (f := id) _) invalid_mirrors m

theorem leave_mirrors (v : Value) : Mirrors G id (leave v) (leave (G.value v)) := by
  refine .get fun m => ?_
  have hback : (G.machine m).callers.back? = m.callers.back?.map G.frame := Array.back?_map
  rw [hback]
  cases m.callers.back? with
  | none => rfl
  | some caller =>
    refine Mirrors.bind (g := id) (.modify fun m => ?_) (fun _ => (push_mirrors v).bind fun _ =>
      .pure (f := id) Flow.proceed) m
    simp [Guise.machine, Guise.frame, Array.shrink_eq_take]

theorem leave_undefined_mirrors : Mirrors G id (leave .undefined) (leave .undefined) := by
  have hleave := leave_mirrors (G := G) .undefined
  rwa [← G.disguises.kept rfl] at hleave

theorem enter_mirrors (place args : Nat) (r : Routine) (free : List Value) :
    Mirrors G id (enter place args r free)
      (enter place args (G.routine r) (free.map G.value)) := by
  unfold enter
  rw [G.params]
  refine Mirrors.ite (.trap _) (.get fun m => ?_)
  have hcallers : (G.machine m).callers.size = m.callers.size := Array.size_map
  rw [hcallers]
  refine Mirrors.ite (.trap _) (.get fun m => ?_) m
  have hsize : (G.machine m).stack.size = m.stack.size := Array.size_map
  rw [hsize, G.locals]
  refine Mirrors.ite (.trap _) (.modify fun m => ?_) m
  have hslots : G.value .undefined = .undefined := (G.disguises.kept rfl).symm
  simp [Guise.machine, Guise.frame, hslots]

theorem answer_mirrors (place : Nat) (v : Value) :
    Mirrors G id (answer place v) (answer place (G.value v)) :=
  .bind (g := id) (.modify fun m => by simp [Guise.machine, Array.shrink_eq_take])
    fun _ => pushNew_mirrors v

theorem answer_undefined_mirrors (place : Nat) :
    Mirrors G id (answer place .undefined) (answer place .undefined) := by
  have hanswer := answer_mirrors (G := G) place .undefined
  rwa [← G.disguises.kept rfl] at hanswer

variable {x x' : Setting}

theorem call_mirrors (hx : G.Hosts x x') (args : Nat) :
    Mirrors G id (call x args) (call x' args) := by
  refine .get fun m => ?_
  have hsize : (G.machine m).stack.size = m.stack.size := Array.size_map
  simp only [hsize]
  refine Mirrors.ite invalid_mirrors (.get fun m' => ?_) m
  rw [G.getD_machine, G.disguises.eq]
  cases m'.stack.getD (m.stack.size - (args + 1)) .undefined with
  | function who r => exact enter_mirrors _ args r [] m'
  | closure who r free => exact enter_mirrors _ args r free m'
  | builtin b =>
    refine (popFrom_mirrors _).bind (fun vs => ?_) m'
    rw [G.disguises.call_eq]
    cases b.call vs with
    | ok v => exact answer_mirrors _ v
    | error e => exact .trap _
  | native who name =>
    refine (popFrom_mirrors _).bind (fun vs => ?_) m'
    rw [hx.host who name vs]
    cases x.host.call who name vs with
    | value v => exact answer_mirrors _ v
    | refused e => exact .trap _
    | panic p => exact .throw _
    | signal s =>
      exact .bind (g := id) (.modify fun _ => rfl) fun _ => answer_undefined_mirrors _
  | _ => exact Mirrors.trap _ m'

theorem close_mirrors (hx : G.Hosts x x') {index index' : Nat}
    (hindex : x'.bytecode.pool[index']? = (x.bytecode.pool[index]?).map G.value)
    (captured : Nat) : Mirrors G id (close x index captured) (close x' index' captured) := by
  unfold close
  rw [hindex]
  cases x.bytecode.pool[index]? with
  | none => exact invalid_mirrors
  | some v =>
    rw [Option.map_some, G.disguises.eq]
    cases v with
    | function who r =>
      refine (popMany_mirrors captured).bind fun free => allocate_mirrors.bind fun _ =>
        Mirrors.bind (g := id) (fun _ => rfl) fun serial => ?_
      have hpush : Mirrors G id _ (push (G.value (.closure ⟨x.maker, serial⟩ r free))) :=
        push_mirrors _
      rwa [G.disguises.eq, Value.dress, hx.maker] at hpush
    | _ => exact invalid_mirrors

variable {a b : Nat}

/-- Instructions that name no constant do the same in both settings. -/
theorem perform_mirrors (hx : G.Hosts x x') (op : Opcode) (hop : op.loadsConstant = false)
    (hglobal : op.isGlobal = true → G.Global) :
    Mirrors G id (perform x op a b) (perform x' op a b) := by
  cases op with
  | constant | closure => exact absurd hop (by decide)
  | undefined | pushTrue | pushFalse => exact push_kept rfl
  | pop => exact pop_mirrors.bind fun _ => .pure (f := id) _
  | arith op =>
    refine pop_mirrors.bind fun r => pop_mirrors.bind fun l => ?_
    rw [G.disguises.arith]
    exact (lift_mirrors _).bind pushNew_mirrors
  | order c =>
    refine pop_mirrors.bind fun r => pop_mirrors.bind fun l => ?_
    rw [G.disguises.order]
    exact (lift_mirrors _).bind pushNew_mirrors
  | equal | notEqual =>
    refine pop_mirrors.bind fun r => pop_mirrors.bind fun l => ?_
    rw [G.disguises.same_eq]
    exact push_kept rfl
  | negate =>
    refine pop_mirrors.bind fun v => ?_
    rw [G.disguises.negate_eq]
    exact (lift_mirrors _).bind pushNew_mirrors
  | not =>
    refine pop_mirrors.bind fun v => ?_
    rw [G.disguises.isTruthy_eq]
    exact push_kept rfl
  | jump => exact jump_mirrors a
  | jumpFalsy =>
    refine pop_mirrors.bind fun v => ?_
    rw [G.disguises.isTruthy_eq]
    exact .ite (.pure (f := id) _) (jump_mirrors a)
  | andJump =>
    refine peek_mirrors.bind fun v => ?_
    rw [G.disguises.isTruthy_eq]
    exact .ite (pop_mirrors.bind fun _ => .pure (f := id) _) (jump_mirrors a)
  | orJump =>
    refine peek_mirrors.bind fun v => ?_
    rw [G.disguises.isTruthy_eq]
    exact .ite (jump_mirrors a) (pop_mirrors.bind fun _ => .pure (f := id) _)
  | getGlobal =>
    refine .get fun m => ?_
    have hslot : ((G.machine m).globals.get? a).getD .undefined =
        G.value ((m.globals.get? a).getD .undefined) := by
      rw [← G.disguises.getD_eq, ← (hglobal rfl).get?]
      rfl
    rw [hslot]
    exact push_mirrors _ m
  | setGlobal =>
    refine pop_mirrors.bind fun v => .modify fun m => ?_
    simp [Guise.machine, (hglobal rfl).set]
  | getLocal =>
    refine (localPlace_mirrors a).bind fun place => .get fun m => ?_
    simp only [id, G.getD_machine]
    exact push_mirrors _ m
  | setLocal =>
    refine pop_mirrors.bind fun v => (localPlace_mirrors a).bind fun place => .modify fun m => ?_
    simp [Guise.machine]
  | getBuiltin =>
    simp only [perform]
    cases Builtin.all[a]? with
    | none => exact invalid_mirrors
    | some f => exact push_kept rfl
  | getFree =>
    refine .get fun m => ?_
    have hfree : (G.machine m).frame.free[a]? = (m.frame.free[a]?).map G.value :=
      List.getElem?_map
    rw [hfree]
    cases m.frame.free[a]? with
    | none => exact invalid_mirrors m
    | some v => exact push_mirrors v m
  | array =>
    refine (popMany_mirrors a).bind fun items => ?_
    have hpush : Mirrors G id _ (pushNew (G.value (.array items))) := pushNew_mirrors _
    rwa [G.disguises.eq, Value.dress] at hpush
  | map =>
    refine (popMany_mirrors (2 * a)).bind fun items => ?_
    have hmap : Value.mapOf (items.map G.value) [] = (Value.mapOf items []).map G.value :=
      G.disguises.mapOf_eq items []
    rw [hmap]
    exact (lift_mirrors _).bind pushNew_mirrors
  | index =>
    refine pop_mirrors.bind fun index => pop_mirrors.bind fun container => ?_
    rw [G.disguises.element_eq]
    exact (lift_mirrors _).bind push_mirrors
  | setIndex =>
    refine pop_mirrors.bind fun value => pop_mirrors.bind fun index =>
      pop_mirrors.bind fun container => ?_
    rw [G.disguises.replaceElement_eq]
    exact (lift_mirrors _).bind pushNew_mirrors
  | call => exact call_mirrors hx a
  | ret | suspend => exact .pure (f := id) _

/-- Every instruction, its constant renamed, does the same in both settings. -/
theorem execute_mirrors (hx : G.Hosts x x') {i i' : Instruction} (hi : G.Matches x x' i i')
    (hglobal : i.op.isGlobal = true → G.Global) :
    Mirrors G id (execute x i) (execute x' i') := by
  obtain ⟨op, a, b⟩ := i
  obtain ⟨op', a', b'⟩ := i'
  obtain ⟨hsame, hb, hplain, hconstant⟩ := hi
  obtain rfl : op = op' := hsame.symm
  obtain rfl : b = b' := hb.symm
  by_cases hop : op.loadsConstant = true
  · have hpool := hconstant hop
    rcases widths_of_loadsConstant hop with rfl | rfl
    · refine Mirrors.bind (g := id) ?_ fun _ => .pure (f := id) _
      simp only [perform, hpool]
      cases x.bytecode.pool[a]? with
      | none => exact invalid_mirrors
      | some v => exact push_mirrors v
    · exact (close_mirrors hx hpool b).bind fun _ => .pure (f := id) _
  · obtain rfl : a = a' := (hplain (Bool.eq_false_iff.mpr hop)).symm
    have hperform := perform_mirrors (a := a) (b := b) hx op (Bool.eq_false_iff.mpr hop) hglobal
    cases op with
    | ret =>
      simp only [execute]
      split
      · exact pop_mirrors.bind leave_mirrors
      · exact leave_undefined_mirrors
    | suspend => exact .pure (f := id) _
    | constant | closure => exact absurd rfl hop
    | _ => exact hperform.bind fun _ => .pure (f := id) _

end Exec

namespace Guise

variable {G : Guise} {x x' : Setting} {m : Machine} {i i' : Instruction}

/-- A step that carries out an instruction is the same step in disguise. -/
theorem advance_machine (hx : G.Hosts x x')
    (hat : Instruction.at? m.frame.routine.code m.frame.ip = some i)
    (hat' : Instruction.at? (G.routine m.frame.routine).code m.frame.ip = some i')
    (hi : G.Matches x x' i i') (hglobal : i.op.isGlobal = true → G.Global) :
    (G.machine m).advance x' = G.advance (m.advance x) := by
  have hsize : i'.size = i.size := by
    unfold Instruction.size
    rw [hi.op]
  rw [Machine.advance_of_at? hat, Machine.advance_of_at? (m := G.machine m) hat', ← G.advance_of,
    ← Exec.execute_mirrors hx hi hglobal]
  simp [Machine.fetched, machine, frame, hsize]

/-- So is a step behind the end of the code. -/
theorem advance_machine_of_end (hend : m.frame.routine.code.size ≤ m.frame.ip)
    (hend' : (G.routine m.frame.routine).code.size ≤ m.frame.ip) :
    (G.machine m).advance x' = G.advance (m.advance x) := by
  rw [Machine.advance_of_end hend, Machine.advance_of_end (m := G.machine m) hend',
    ← G.advance_of, ← Exec.run_leave, ← Exec.run_leave, ← Exec.leave_undefined_mirrors]
  rfl

end Guise

end ScriptEngine
