import ScriptEngine.Proofs.Positions.Runs
/-!
Which source a runtime error comes from. The position of an error is that of a node of the source
that the failing function was written in, be it the main program's or a module's; the file of an
error is always the main program's. So the two name the same place for code of the main program, and
for that of a module only if the module goes by the name of the main file.
-/
namespace ScriptEngine

open Machine

namespace Image

variable (L : Image) (main : Body) (text : List Stmt)

/-- The tree of a unit: that of the main program, or that of a module under the name that its errors
of parsing and compiling have. -/
def IsTree : Option String → List Stmt → Prop
  | none, tree => tree = text
  | some key, tree => ∃ source, L.IsSource key source ∧ parse key source = .ok tree

/-- All code of a body of the program is made for nodes of the tree of its unit. -/
structure Stems (R : Body) (tree : List Stmt) : Prop where
  source : L.IsTree text R.unit tree
  part : L.Part main R
  made : ∀ {x : Nat} {i : Instruction} {pos : Option Pos}, R.code.at? x = some (.plain i pos) →
    L.Made (Stmt.AnyNode · tree) R x i ∨ Body.Ends i

/-- The bodies of the program that are made for a source. -/
def Sourced (R : Body) : Prop := ∃ tree, L.Stems main text R tree

/-- An error of a run, traced to the source of the instruction that failed. It has the position of a
node of that source, and the name of the main file. -/
def Traces (file : String) (x : Setting) (start : Machine) (e : RuntimeError) : Prop :=
  ∃ before after R i tree p, Reaches x start before ∧
    before.advance x = .halted (.trap e.trap) after ∧ R.routine = before.frame.routine ∧
    L.Stems main text R tree ∧ R.code.at? before.frame.ip = some (.plain i (some p)) ∧
    e.pos = some p ∧ Stmt.AnyNode p tree ∧ e.file = file ∧
    (e.file = R.unit.getD file ↔ R.unit = none ∨ R.unit = some file)

variable {L main text} {N : Pos → Prop} {R : Body} {Γ : Names} {pos : Pos} {x : Nat}
  {i : Instruction} {place : Option Pos} {b : Bytecode} {v : Value}

theorem bodyAt.made {body : Block} (hN : ∀ p, body.HasNode p → N p) (h : L.bodyAt R Γ pos body)
    (hx : R.code.at? x = some (.plain i place)) : L.Made N R x i ∨ Body.Ends i := by
  obtain ⟨_, stmts⟩ := body
  obtain ⟨m, hstmts, hend⟩ := h
  have hret : Body.Ends ⟨.ret, 0, 0⟩ := .inl rfl
  have hmade := stmtsAt.made stmts (fun _ h => hN _ (.inr h)) hstmts
  split at hend
  · exact hmade.or_ends none hret (.inl hend) hx
  · exact hmade.or_ends _ hret (.inr hend) hx

theorem moduleBodyAt.made {tree : List Stmt} (h : L.moduleBodyAt R tree)
    (hx : R.code.at? x = some (.plain i place)) :
    L.Made (Stmt.AnyNode · tree) R x i ∨ Body.Ends i := by
  obtain ⟨m, hstmts, hend⟩ := h
  have hret : Body.Ends ⟨.ret, 0, 0⟩ := .inl rfl
  have hmade := stmtsAt.made tree (fun _ h => h) hstmts
  split at hend
  · exact hmade.or_ends none hret (.inl hend) hx
  · exact hmade.or_ends _ hret (.inr hend) hx

theorem Lays.stems (h : L.Lays main Γ text) : L.Stems main text main text := by
  refine ⟨?_, Or.inl rfl, fun hx => ?_⟩
  · rw [h.unit]
    rfl
  · obtain ⟨m, hstmts, hend⟩ := h.code
    exact (stmtsAt.made text (fun _ h => h) hstmts).or_ends _ (.inr rfl) (.inr hend) hx

/-- The code of a module is made for the module's text. -/
theorem ModuleAt.sourced {key : String} (h : L.ModuleAt key v) :
    v.Only (Value.Runs (L.Sourced main text)) := by
  obtain ⟨hsource, -, tree, R, hparse, rfl, -, hunit, -, -, hsmall, hbody⟩ := h
  refine Value.only_function.mpr ⟨R, ⟨tree, ?_, Or.inr ⟨hsmall, Or.inr ⟨tree, hbody⟩⟩,
    fun hx => hbody.made hx⟩, rfl⟩
  rw [hunit]
  exact ⟨_, hsource, hparse⟩

/-- A function that code makes is written in the same source as the code. -/
theorem Stems.written {tree : List Stmt} (h : L.Stems main text R tree) {who : FunctionId}
    {r : Routine} (hr : L.Written (Stmt.AnyNode · tree) R.unit r) :
    (Value.function who r).Only (Value.Runs (L.Sourced main text)) := by
  obtain ⟨R', Γ, pos, body, rfl, hunit, hsmall, hbody, -, hnodes⟩ := hr
  refine Value.only_function.mpr ⟨R', ⟨tree, ?_, Or.inr ⟨hsmall, Or.inl ⟨Γ, pos, body, hbody⟩⟩,
    fun hx => hbody.made hnodes hx⟩, rfl⟩
  rw [hunit]
  exact h.source

/-- Code that is made for a source loads functions that are made for a source. -/
theorem Program.sourced (h : L.Program main text b) : L.Closed main (L.Sourced main text) := by
  refine ⟨?_, fun ⟨_, hstems⟩ => hstems.part, fun {R x i pos v} ⟨tree, hstems⟩ hat hop hv => ?_⟩
  · obtain ⟨Γ, hlays⟩ := h.lays
    exact ⟨text, hlays.stems⟩
  · rcases hstems.made hat with hmade | hends
    · rcases hmade.loads hop v hv with ⟨key, hkey⟩ | hv
      · exact (h.modules key v hkey).sourced
      · cases v with
        | function who r => exact hstems.written hv
        | module name attrs =>
          obtain rfl : attrs = L.attrs name := hv
          exact Value.only_module.mpr fun e he => (h.attrs name e he).only
        | int | float | char | string => exact Value.Plain.only rfl
        | _ => exact hv.elim
    · rcases hends with rfl | rfl <;> cases hop

end Image

/-- The file of a runtime error is that of the main program, whichever source the code that failed
was written in; the position is that of a node of that source. When a program compiles, this holds
of every run of it that fails, but for one that is told to stop. -/
theorem errors_name_the_main_file {s : Script} {maker : Nat} {a : Artifact} (hs : s.Plain)
    (h : (s.compile maker).1 = .ok a) :
    ∃ text L main, s.Laid a text L main ∧
      ∀ b, a.Later (Value.Runs (L.Sourced main text)) b → ∀ c : Conditions, c.host.Lends →
        ∀ e, e.trap ≠ .aborted →
          ((b.run c).result = .error (.runtime e) ∨ ∃ number token latency,
            (b.runWithCancel c number token latency).result = .error (.runtime e)) →
          L.Traces main text s.file (b.setting c) ((b.machine c).start (b.setting c)) e := by
  obtain ⟨text, L, main, hlaid⟩ := script_laid h
  refine ⟨text, L, main, hlaid, fun b hlater c hlends e haborted he => ?_⟩
  have hof := hlaid.of hs
  have hP := hof.program.sourced
  have ha : a.Running (L.Sourced main text) := by
    refine hof.program.running hP fun i v hv => ?_
    rw [hlaid.globals] at hv
    exact (hs.globals hv).only
  have hprogram : L.Program main text b.bytecode := hlater.bytecode_eq ▸ hof.program
  obtain ⟨before, after, p, hreach, hlast, hpoints, hpos, hfile⟩ :=
    hlater.running ha |>.fails hprogram hP c hlends haborted he
  obtain ⟨R, i, ⟨tree, hstems⟩, hroutine, hat, -, hends⟩ := hpoints
  have hnode : Stmt.AnyNode p tree := by
    obtain ⟨q, hq, hq'⟩ := ((hstems.made hat).resolve_right hends).node
    rw [hat] at hq'
    cases hq'
    exact hq
  have hname : e.file = s.file := by rw [hfile, hlater.bytecode_eq, hlaid.file]
  refine ⟨before, after, R, i, tree, p, hreach, hlast, hroutine, hstems, hat, hpos, hnode, hname, ?_⟩
  rw [hname]
  cases R.unit with
  | none => simp
  | some key => simp [eq_comm]

/-- A program with a module that fails. -/
def failingImport : Script :=
  { Script.ofSource "x := import(\"m\")".toUTF8 Script.defaultFile Script.defaultExtension with
    registry := (∅ : Registry).insert "m" (.script "export 1/0") }

/-- Where the nodes of a program are that only defines a name by an import. -/
def importNodes? : List Stmt → Option (Pos × Pos)
  | [.define p _ (.load q _)] => some (p, q)
  | _ => none

theorem not_anyNode_of_importNodes? {text : List Stmt} {p q pos : Pos}
    (h : importNodes? text = some (p, q)) (hp : p ≠ pos) (hq : q ≠ pos) :
    ¬ Stmt.AnyNode pos text := by
  unfold importNodes? at h
  split at h
  · cases h
    simp [Stmt.AnyNode, Stmt.HasNode, Expr.HasNode, hp.symm, hq.symm]
  · cases h

/-- The error names the main file, which has nothing at the position. -/
theorem errors_name_the_main_file_import :
    ∃ a text L main e, (failingImport.compile 0).1 = .ok a ∧ failingImport.Laid a text L main ∧
      (a.run ⟨bareHost, 100, 0, 0⟩).result = .error (.runtime e) ∧ e.trap = .divisionByZero ∧
      e.file = "(main)" ∧ e.pos = some ⟨8, 1, 9⟩ ∧ ¬ Stmt.AnyNode ⟨8, 1, 9⟩ text ∧
      L.Traces main text "(main)" (a.setting ⟨bareHost, 100, 0, 0⟩)
        ((a.machine ⟨bareHost, 100, 0, 0⟩).start (a.setting ⟨bareHost, 100, 0, 0⟩)) e := by
  have hok : ((failingImport.compile 0).1.toOption.any fun a =>
      (a.run ⟨bareHost, 100, 0, 0⟩).runtimeError? ==
        some ⟨.divisionByZero, "(main)", some ⟨8, 1, 9⟩⟩) = true := by decide +kernel
  have hparse : ((parse failingImport.file failingImport.source).toOption.bind importNodes?) =
      some (⟨0, 1, 1⟩, ⟨5, 1, 6⟩) := by decide +kernel
  have hplain : failingImport.Plain := (Script.plain_ofSource _ _ _).insert_script _ _
  obtain ⟨a, h, hfails⟩ := Compile.eq_ok_of_any hok
  have hresult := Aftermath.result_of_runtimeError? (eq_of_beq hfails)
  obtain ⟨text, L, main, hlaid, htraces⟩ := errors_name_the_main_file hplain h
  rw [hlaid.parsed] at hparse
  exact ⟨a, text, L, main, _, h, hlaid, hresult, rfl, rfl, rfl,
    not_anyNode_of_importNodes? hparse (by decide) (by decide),
    htraces a .new ⟨bareHost, 100, 0, 0⟩ bareHost_lends _ (by simp) (.inl hresult)⟩

end ScriptEngine
