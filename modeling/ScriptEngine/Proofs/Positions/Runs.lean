import ScriptEngine.Proofs.Machine.Loop
import ScriptEngine.Proofs.Positions.Program
/-!
Runs of compiled programs that fail. Whatever calls, returns, closures and loops came before, the
error has the position of the instruction that failed, before equal constants are merged and after.
-/
namespace ScriptEngine

open Machine

section Runs

variable {L : Image} {main : Body} {text : List Stmt} {x : Setting} {m m' : Machine}

theorem Machine.Reaches.trans {m'' : Machine} (h : Reaches x m m') (h' : Reaches x m' m'') :
    Reaches x m m'' := by
  induction h' with
  | refl => exact h
  | step _ hstep ih => exact ih.step hstep

theorem Machine.reaches_of_loop {stop : Machine → Bool} {k : Nat}
    (h : m.loop x stop k = (.unfinished, m')) : Reaches x m m' := by
  induction k generalizing m with
  | zero =>
    cases h
    exact .refl
  | succ k ih =>
    simp only [loop] at h
    split at h
    · cases h
    · cases hadv : m.advance x with
      | next m'' =>
        rw [hadv] at h
        exact (Reaches.refl.step hadv).trans (ih h)
      | finished m'' =>
        rw [hadv] at h
        cases h
      | halted e m'' =>
        rw [hadv] at h
        cases h

namespace Image.Program

variable {P : Body → Prop}

/-- An error is that of a state of the run, whose next instruction fails with it. The error tells the
position of that instruction, and the file of the bytecode. -/
theorem fails (h : L.Program main text x.bytecode) (hP : L.Closed main P) (hlends : x.host.Lends)
    (hm : m.Runs P) {stop : Machine → Bool} {steps : Nat} {crash : Panic → ScriptError}
    (hcrash : ∀ p e, crash p ≠ .runtime e) {e : RuntimeError} (haborted : e.trap ≠ .aborted)
    (he : Artifact.result crash ((m.loop x stop steps).1.outcome x (m.loop x stop steps).2) =
      .error (.runtime e)) :
    ∃ before after p, Reaches x m before ∧ before.advance x = .halted (.trap e.trap) after ∧
      before.Points P p ∧ e.pos = some p ∧ e.file = x.bytecode.file := by
  rcases hloop : m.loop x stop steps with ⟨ending, last⟩
  rw [hloop] at he
  cases ending with
  | finished => cases he
  | unfinished => cases he
  | stopped =>
    cases he
    exact absurd rfl haborted
  | halted halt =>
    cases halt with
    | panic p =>
      simp only [Ending.outcome, Artifact.result, Except.error.injEq] at he
      exact absurd he (hcrash p e)
    | trap t =>
      cases he
      obtain ⟨k, before, -, hrun, -, hlast⟩ := last_of_halted hloop
      have hreach := reaches_of_loop hrun
      have hbefore := (h.closes hP).reaches hlends hm hreach
      obtain ⟨p, hpoints, hpos⟩ := h.halts hP hlends hbefore hlast
      exact ⟨before, last, p, hreach, hlast, hpoints, hpos t, rfl⟩

end Image.Program

/-- An error is that of a state of the run, whose next instruction fails with it. The program has
that instruction for a construct at the error's position. -/
def Image.Blames (L : Image) (main : Body) (text : List Stmt) (x : Setting) (start : Machine)
    (e : RuntimeError) : Prop :=
  ∃ m m' p, Reaches x start m ∧ m.advance x = .halted (.trap e.trap) m' ∧
    L.Places main text m p ∧ e.pos = some p

end Runs

section Artifacts

variable {L : Image} {main : Body} {text : List Stmt} {a b : Artifact}

/-- In all that becomes of an artifact every run that fails, unless it is told to stop, tells the
position of the instruction that failed. -/
def Artifact.Pinpoints (L : Image) (main : Body) (text : List Stmt) (a : Artifact) : Prop :=
  ∀ b, a.Later (Value.Runs (L.Part main)) b → ∀ c : Conditions, c.host.Lends →
    (∀ e, (b.run c).result = .error (.runtime e) → e.trap ≠ .aborted →
      L.Blames main text (b.setting c) ((b.machine c).start (b.setting c)) e) ∧
    ∀ number token latency e,
      (b.runWithCancel c number token latency).result = .error (.runtime e) → e.trap ≠ .aborted →
        L.Blames main text (b.setting c) ((b.machine c).start (b.setting c)) e

/-- An artifact of a program, with globals of the program. -/
structure Artifact.Of (L : Image) (main : Body) (text : List Stmt) (a : Artifact) : Prop where
  program : L.Program main text a.bytecode
  globals : ∀ i v, a.globals.get? i = some v → v.Only (Value.Runs (L.Part main))

variable {P : Body → Prop}

theorem Image.Program.running (h : L.Program main text a.bytecode) (hP : L.Closed main P)
    (hglobals : ∀ i v, a.globals.get? i = some v → v.Only (Value.Runs P)) : a.Running P where
  closes := h.closes hP
  main := ⟨main, hP.start, h.main.symm⟩
  room := by
    obtain ⟨Γ, hlays⟩ := h.lays
    have hlocals : main.routine.locals = 0 := hlays.locals
    rw [h.main, hlocals]
    exact Nat.zero_le _
  globals := hglobals

/-- A run that ends in an error tells the position of the instruction that failed, which is one of
the bodies. -/
theorem Artifact.Running.fails (h : a.Running P) (hprogram : L.Program main text a.bytecode)
    (hP : L.Closed main P) (c : Conditions) (hlends : c.host.Lends) {e : RuntimeError}
    (haborted : e.trap ≠ .aborted)
    (he : (a.run c).result = .error (.runtime e) ∨ ∃ number token latency,
      (a.runWithCancel c number token latency).result = .error (.runtime e)) :
    ∃ before after p, Reaches (a.setting c) ((a.machine c).start (a.setting c)) before ∧
      before.advance (a.setting c) = .halted (.trap e.trap) after ∧ before.Points P p ∧
      e.pos = some p ∧ e.file = a.bytecode.file := by
  have hstart := h.start c
  rcases he with he | ⟨number, token, latency, he⟩
  · exact hprogram.fails (x := a.setting c) hP hlends hstart (fun _ _ hp => by cases hp) haborted he
  · unfold Artifact.runWithCancel at he
    dsimp only at he
    split at he
    · cases he
    · split at he
      · cases he
      · exact hprogram.fails (x := a.setting c) hP hlends hstart (fun _ _ hp => by cases hp)
          haborted he

theorem Artifact.Of.pinpoints (h : a.Of L main text) : a.Pinpoints L main text := by
  intro b hlater c hlends
  have hP := h.program.closed
  have hprogram : L.Program main text b.bytecode := hlater.bytecode_eq ▸ h.program
  have hb := hlater.running (h.program.running hP h.globals)
  have hblames {e : RuntimeError} (haborted : e.trap ≠ .aborted)
      (he : (b.run c).result = .error (.runtime e) ∨ ∃ number token latency,
        (b.runWithCancel c number token latency).result = .error (.runtime e)) :
      L.Blames main text (b.setting c) ((b.machine c).start (b.setting c)) e := by
    obtain ⟨before, after, p, hreach, hlast, hpoints, hpos, -⟩ :=
      hb.fails hprogram hP c hlends haborted he
    exact ⟨before, after, p, hreach, hlast, hprogram.places (x := b.setting c) hP hpoints, hpos⟩
  exact ⟨fun e he haborted => hblames haborted (.inl he),
    fun number token latency e he haborted => hblames haborted (.inr ⟨number, token, latency, he⟩)⟩

theorem Script.Laid.of {s : Script} (h : s.Laid a text L main) (hs : s.Plain) :
    a.Of L main text := by
  obtain ⟨moved, hcomplete⟩ := h.complete
  refine ⟨⟨⟨_, h.lays⟩, hcomplete.modules, h.pool.symm, h.main.symm, h.attrs_plain hs⟩,
    fun i v hv => ?_⟩
  rw [h.globals] at hv
  exact (hs.globals hv).only

end Artifacts

/-- Runtime errors point at the instruction that failed. When a program compiles, every run of it
that fails, but for one that is told to stop, tells the position with which the compiler made the
instruction that failed, in the function that was running. So does every run of the bytecode whose
equal constants have not been merged. -/
theorem errors_point_at_their_instruction {s : Script} {maker : Nat} {a : Artifact} (hs : s.Plain)
    (h : (s.compile maker).1 = .ok a) :
    ∃ text, (∃ L main, s.Laid a text L main ∧ a.Pinpoints L main text) ∧
      ∃ c L main, (ScriptEngine.compile (s.compileOptions maker) s.file text).1 = .ok c ∧
        a.bytecode = c.bytecode.merge ∧ L.pool = c.bytecode.pool ∧
        main.routine = c.bytecode.main ∧ L.Lays main s.names text ∧ L.Complete s.pool ∧
        { a with bytecode := c.bytecode }.Pinpoints L main text := by
  obtain ⟨text, L, main, hlaid⟩ := script_laid h
  refine ⟨text, ⟨L, main, hlaid, (hlaid.of hs).pinpoints⟩, ?_⟩
  obtain ⟨body, c, hparse, hok, rfl⟩ := Script.compile_artifact h
  obtain rfl : body = text := Except.ok.inj (hparse.symm.trans hlaid.parsed)
  have hcompile : ScriptEngine.compile (s.compileOptions maker) s.file body = (.ok c, _) :=
    Prod.ext hok rfl
  obtain ⟨hfits, hΓ⟩ := Layout.script_fits s
  obtain ⟨L, main, -, -, -, hpool, -, hmain, hlays, hcomplete, -, hattrs, -⟩ :=
    Layout.compile_laid (o := s.compileOptions maker) hfits hΓ hcompile
  have hof : { s.artifact c with bytecode := c.bytecode }.Of L main body := by
    refine ⟨⟨⟨_, hlays⟩, hcomplete.modules, hpool.symm, hmain.symm, fun name e he => ?_⟩,
      fun i v hv => (hs.globals hv).only⟩
    rw [hattrs] at he
    exact Registry.attributes_all (hs.attrs name) he
  refine ⟨c, L, main, hok, rfl, hpool, hmain, hlays, ?_, hof.pinpoints⟩
  simpa [Script.compileOptions] using hcomplete

/-- Two functions of the same code, the second of which fails when it is called again. -/
def twinScript : Script :=
  .ofSource "f := func(n) { return 10 / n }\ng := func(n) { return 10 / n }\nf(g(2) - 4)\ng(0)".toUTF8
    Script.defaultFile Script.defaultExtension

/-- The runtime error that a run ends with, if it ends with one. -/
def Aftermath.runtimeError? (r : Aftermath) : Option RuntimeError :=
  match r.result with
  | .error (.runtime e) => some e
  | _ => none

theorem Aftermath.result_of_runtimeError? {r : Aftermath} {e : RuntimeError}
    (h : r.runtimeError? = some e) : r.result = .error (.runtime e) := by
  unfold runtimeError? at h
  split at h
  · rename_i hresult
    rw [hresult, Option.some.inj h]
  · cases h

theorem errors_point_at_their_instruction_twin :
    ∃ a text L main e, (twinScript.compile 0).1 = .ok a ∧ twinScript.Laid a text L main ∧
      (a.run ⟨bareHost, 100, 0, 0⟩).result = .error (.runtime e) ∧ e.trap = .divisionByZero ∧
      e.pos = some ⟨56, 2, 26⟩ ∧
      L.Blames main text (a.setting ⟨bareHost, 100, 0, 0⟩)
        ((a.machine ⟨bareHost, 100, 0, 0⟩).start (a.setting ⟨bareHost, 100, 0, 0⟩)) e := by
  have hok : ((twinScript.compile 0).1.toOption.any fun a =>
      (a.run ⟨bareHost, 100, 0, 0⟩).runtimeError?.any fun e =>
        decide (e.trap = .divisionByZero ∧ e.pos = some ⟨56, 2, 26⟩)) = true := by decide +kernel
  have hplain : twinScript.Plain := Script.plain_ofSource _ _ _
  obtain ⟨a, h, hok⟩ := Compile.eq_ok_of_any hok
  obtain ⟨e, hfails, hok⟩ := (Option.any_eq_true _ _).mp hok
  obtain ⟨htrap, hpos⟩ := of_decide_eq_true hok
  have hresult := Aftermath.result_of_runtimeError? hfails
  obtain ⟨text, ⟨L, main, hlaid, hpoints⟩, -⟩ := errors_point_at_their_instruction hplain h
  refine ⟨a, text, L, main, e, h, hlaid, hresult, htrap, hpos, ?_⟩
  refine (hpoints a .new ⟨bareHost, 100, 0, 0⟩ bareHost_lends).1 e hresult ?_
  rw [htrap]
  simp

end ScriptEngine
