import ScriptEngine.Proofs.Machine.Loop
import ScriptEngine.Proofs.Positions.Step
import ScriptEngine.Proofs.Safety.Program
/-!
Bodies that keep to themselves: what they jump to is their own, and what they load are functions of
such bodies. A machine that runs them never comes to run any others, in whatever becomes of an
artifact.
-/
namespace ScriptEngine

open Encoding Exec Machine

/-- A body of instructions, with all jumps to instructions of its own. -/
structure Body.Sealed (R : Body) : Prop where
  plain : ∀ {p : Nat} {item : Item}, R.code.at? p = some item → ∃ i pos, item = .plain i pos
  jumps : ∀ {p : Nat} {i : Instruction} {pos : Option Pos}, R.code.at? p = some (.plain i pos) →
    i.op.isJump = true → R.Bound i.narrow.a

/-- Some sealed bodies, which load functions of these bodies only. -/
structure Bytecode.Closes (b : Bytecode) (P : Body → Prop) : Prop where
  bodies : ∀ {R : Body}, P R → R.Sealed
  loads : ∀ {R : Body} {p : Nat} {i : Instruction} {pos : Option Pos} {v : Value}, P R →
    R.code.at? p = some (.plain i pos) → i.op.loadsConstant = true →
    b.pool[i.narrow.a]? = some v → v.Only (Value.Runs P)

/-- An artifact whose main routine and whose functions are of some bodies. -/
structure Artifact.Running (P : Body → Prop) (a : Artifact) : Prop where
  closes : a.bytecode.Closes P
  main : ∃ R, P R ∧ R.routine = a.bytecode.main
  room : a.bytecode.main.locals ≤ maxStack
  globals : ∀ i v, a.globals.get? i = some v → v.Only (Value.Runs P)

variable {P : Body → Prop} {x : Setting} {m m' : Machine} {a b : Artifact}

/-- What a machine comes to next: an instruction of the body that it runs, or the end of the code. -/
theorem Machine.Runs.ahead (h : m.Runs P) (hbodies : ∀ {R : Body}, P R → R.Sealed) :
    (∃ R i pos, P R ∧ R.routine = m.frame.routine ∧
      R.code.at? m.frame.ip = some (.plain i pos) ∧
      Instruction.at? m.frame.routine.code m.frame.ip = some i.narrow) ∨
    m.frame.routine.code.size ≤ m.frame.ip := by
  obtain ⟨R, hR, hroutine, hbound⟩ := h.frame.body
  have hcode : m.frame.routine.code = R.code.bytes := by
    rw [← hroutine]
    rfl
  rcases hbound.placed_or_end Item.size_pos with ⟨item, hitem⟩ | hend
  · obtain ⟨i, pos, rfl⟩ := (hbodies hR).plain hitem
    refine Or.inl ⟨R, i, pos, hR, hroutine, hitem, ?_⟩
    rw [hcode]
    exact Code.at?_bytes hitem
  · refine Or.inr ?_
    rw [hcode, Code.size_bytes, R.code.size_eq]
    exact Nat.le_of_eq hend.symm

namespace Bytecode.Closes

/-- An instruction of some bodies keeps to them. If it fails the machine still shows where it was. -/
theorem execute (h : x.bytecode.Closes P) (hlends : x.host.Lends) (hm : m.Runs P) {R : Body}
    (hR : P R) (hroutine : R.routine = m.frame.routine) {i : Instruction} {pos : Option Pos}
    (hat : R.code.at? m.frame.ip = some (.plain i pos)) :
    match (Exec.execute x i.narrow).run (m.fetched i.narrow) with
    | .ok _ m' => m'.Runs P
    | .error _ m' => m'.frame.routine = m.frame.routine ∧ m'.lastIp = m.frame.ip := by
  let s : Site := ⟨(m.fetched i.narrow).frame, m.frame.ip⟩
  -- The frame may be at any instruction of the body.
  have hframe {p : Nat} (hp : R.Bound p) : ({ m.frame with ip := p } : Frame).Runs P :=
    ⟨⟨R, hR, hroutine, hp⟩, hm.frame.free, hm.frame.base⟩
  have hnext : R.Bound (m.frame.ip + i.size) := boundary_next Item.size_pos hat
  have hfetched : (m.fetched i.narrow).Runs P :=
    ⟨hm.globals, hm.stack, hm.room, hframe hnext, hm.callers⟩
  have hjump (hop : i.narrow.op.isJump = true) :
      ({ s.frame with ip := i.narrow.a } : Frame).Runs P :=
    hframe ((h.bodies hR).jumps hat hop)
  have hconstant (hop : i.narrow.op.loadsConstant = true) (v : Value)
      (hv : x.bytecode.pool[i.narrow.a]? = some v) : v.Only (Value.Runs P) :=
    h.loads hR hat hop hv
  have hrun := execute_moves (s := s) hlends i.narrow hjump hconstant _ hfetched ⟨rfl, rfl⟩
  revert hrun
  cases (Exec.execute x i.narrow).run (m.fetched i.narrow) with
  | ok flow m' => exact id
  | error e m' =>
    intro hs
    exact ⟨by rw [hs.frame]; rfl, hs.lastIp⟩

theorem next (h : x.bytecode.Closes P) (hlends : x.host.Lends) (hm : m.Runs P)
    (hadv : m.advance x = .next m') : m'.Runs P := by
  rcases hm.ahead h.bodies with ⟨R, i, pos, hR, hroutine, hat, hread⟩ | hend
  · have hexec := h.execute hlends hm hR hroutine hat
    rw [advance_of_at? hread] at hadv
    cases hrun : (Exec.execute x i.narrow).run (m.fetched i.narrow) with
    | error e m'' =>
      rw [hrun] at hadv
      cases hadv
    | ok flow m'' =>
      rw [hrun] at hadv hexec
      cases flow with
      | finish => cases hadv
      | proceed =>
        cases hadv
        exact hexec
  · have hticked : { m with clock := m.clock + 1 }.Runs P := hm.congr rfl rfl rfl rfl
    obtain ⟨flow, m'', hrun, hm''⟩ := leave_moves hticked Value.only_undefined
    rw [advance_of_end hend, ← run_leave, hrun] at hadv
    cases flow with
    | finish => cases hadv
    | proceed =>
      cases hadv
      exact hm''

theorem reaches (h : x.bytecode.Closes P) (hlends : x.host.Lends) (hm : m.Runs P)
    (hreach : Reaches x m m') : m'.Runs P := by
  induction hreach with
  | refl => exact hm
  | step _ hstep ih => exact h.next hlends ih hstep

/-- However a run ends, what it leaves in the globals is of the same bodies. One that was stopped may
be continued. -/
theorem loop (h : x.bytecode.Closes P) (hlends : x.host.Lends) (hm : m.Runs P)
    (stop : Machine → Bool) (steps : Nat) :
    (∀ i v, (m.loop x stop steps).2.globals.get? i = some v → v.Only (Value.Runs P)) ∧
    ((m.loop x stop steps).1 = .stopped → (m.loop x stop steps).2.Runs P) := by
  induction steps generalizing m with
  | zero => exact ⟨hm.globals, by rintro ⟨⟩⟩
  | succ steps ih =>
    simp only [Machine.loop]
    split
    · exact ⟨hm.globals, fun _ => hm⟩
    · cases hadv : m.advance x with
      | next m' => exact ih (h.next hlends hm hadv)
      | finished m' =>
        refine ⟨?_, by rintro ⟨⟩⟩
        dsimp only
        rw [globals_of_finished hadv]
        exact hm.globals
      | halted e m' =>
        refine ⟨?_, by rintro ⟨⟩⟩
        dsimp only
        rw [globals_of_halted hadv]
        exact hm.globals

end Bytecode.Closes

namespace Artifact

/-- A run starts in the main routine, with empty slots for its variables. -/
theorem Running.start (h : a.Running P) (c : Conditions) :
    ((a.machine c).start (a.setting c)).Runs P := by
  obtain ⟨R, hR, hroutine⟩ := h.main
  refine ⟨h.globals, fun v hv => ?_, ?_, ⟨⟨R, hR, hroutine, boundary_zero⟩, ?_, ?_⟩, ?_⟩
  · rw [(Array.mem_replicate.mp hv).2]
    exact Value.only_undefined
  · simpa [Machine.start, Artifact.setting] using h.room
  · simp [Machine.start]
  · exact Nat.zero_le _
  · simp [Machine.start]

theorem Running.after (h : a.Running P) {m : Machine}
    (hm : ∀ i v, m.globals.get? i = some v → v.Only (Value.Runs P))
    (result : Except ScriptError Unit) : (a.after m result).artifact.Running P :=
  ⟨h.closes, h.main, h.room, hm⟩

theorem Later.running (h : a.Running P) (hlater : a.Later (Value.Runs P) b) : b.Running P := by
  induction hlater with
  | new => exact h
  | @run b _ c hlends ih =>
    exact ih.after (ih.closes.loop (x := b.setting c) hlends (ih.start c) _ _).1 _
  | @runWithCancel b _ c hlends number token latency ih =>
    unfold Artifact.runWithCancel
    dsimp only
    split
    · exact ih.after ih.globals _
    · obtain ⟨hglobals, hstopped⟩ := ih.closes.loop (x := b.setting c) hlends (ih.start c)
        (fun m => ((token.receive number m.signals).cause? m.clock).isSome) c.steps
      split
      · rename_i hstop _
        exact ih.after
          (ih.closes.loop (x := b.setting c) hlends (hstopped hstop) _ latency).1 _
      · exact ih.after hglobals _
  | @set b b' _ name v hv hset ih =>
    unfold Artifact.setValue at hset
    split at hset
    · rename_i slot hslot
      cases hset
      refine ⟨ih.closes, ih.main, ih.room, fun i w hw => ?_⟩
      simp only [Globals.get?_set] at hw
      split at hw
      · cases hw
        exact hv
      · exact ih.globals i w hw
    · cases hset

/-- Runs and new globals leave the bytecode as it is. -/
theorem Later.bytecode_eq {Q : Value → Prop} (h : a.Later Q b) : b.bytecode = a.bytecode := by
  induction h with
  | new => rfl
  | run _ c _ ih => exact ih
  | @runWithCancel b _ c _ number token latency ih =>
    unfold Artifact.runWithCancel
    dsimp only
    split
    · exact ih
    · split <;> exact ih
  | @set b b' _ name v _ hset ih =>
    unfold Artifact.setValue at hset
    split at hset <;> cases hset
    exact ih

end Artifact

end ScriptEngine
