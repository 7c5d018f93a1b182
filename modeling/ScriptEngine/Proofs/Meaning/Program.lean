import ScriptEngine.Proofs.Meaning.Powers
import ScriptEngine.Proofs.Safety.Program
/-!
Compilation preserves meaning. As long as the stack has room, a run of a compiled program ends if and
only if the evaluation of its syntax tree does, in the same way, and leaves the same globals.
-/
namespace ScriptEngine

open Encoding

/-- In sound code with offsets of two bytes every instruction can be read. -/
theorem Image.readable_of_tiled {L : Image} {R : Body} {whole : List Stmt}
    (htiled : R.Tiled (L.Sound R whole) 0 R.code.size) (hcells : L.cells ≤ Compile.maxGlobals)
    (hsmall : R.code.size < Compile.maxCodeSize) : R.Readable := by
  intro pos op a b p q hhas hjump
  have hlt : p < R.code.size := by
    have hle := hhas.bound.le_extent
    rw [← Code.size_eq] at hle
    exact Nat.lt_of_lt_of_le hhas.lt hle
  obtain ⟨i, pos', hi, hsound⟩ := htiled.at? hhas.1 (Nat.zero_le _) hlt
  obtain ⟨rfl, rfl⟩ : (⟨op, a, b⟩ : Instruction) = i ∧ pos = pos' := by simpa using hi
  have hat : Instruction.at? R.routine.code p = some (Instruction.narrow ⟨op, a, b⟩) :=
    Code.at?_bytes hhas.1
  rw [hat]
  refine congrArg some ?_
  cases hop : op.isJump with
  | false => exact Instruction.narrow_of_fits (hsound.fits (fun _ => hcells) hop)
  | true =>
    obtain ⟨-, -, hbound, -⟩ := hsound.leads.jump hop
    have hle := hbound.le_extent
    rw [← Code.size_eq] at hle
    have ha : a < 65536 := Nat.lt_of_le_of_lt hle hsmall
    rw [hjump hop]
    cases op <;> first
      | exact absurd hop Bool.false_ne_true
      | exact congrArg₂ (Instruction.mk _) (Nat.mod_eq_of_lt ha) rfl

/-- Functions of the host that are given nothing but their arguments. -/
def Host.ofPure (host : PureHost) : Host where
  reply {id} name args :=
    match host id name args with
    | .ok v => .value v
    | .error e => .refused e

/-- What the functions of a host answer, as an evaluation sees it. -/
def Host.bare (host : PureHost) : PureHost := fun id name args =>
  (host id name args).map Value.bare

/-- The functions of the host see of script functions nothing but their objects, and yield only those
that they are given. -/
structure Blind (host : PureHost) : Prop where
  same : ∀ id name args others, args.map Value.bare = others.map Value.bare →
    Host.bare host id name args = Host.bare host id name others
  lends : (Host.ofPure host).Lends

theorem Globals.bare_of_plain {g : Globals} (h : ∀ i v, g.get? i = some v → v.Plain) :
    g.bare = g := by
  have hslots : g.slots.map (Option.map Value.bare) = g.slots := by
    refine Array.ext (Array.size_map ..) fun i hi hi' => ?_
    rw [Array.getElem_map]
    cases hslot : g.slots[i] with
    | none => rfl
    | some v =>
      refine congrArg some (h i v ?_).bare
      rw [Globals.get?, Array.getElem?_eq_getElem hi', hslot]
      rfl
  rw [Globals.bare, hslots]

/-- What surrounds the main program of a script. -/
def Script.world (s : Script) (L : Image) (host : PureHost) (maker : Nat) : World where
  host := Host.bare host
  imports := s.imports
  attrs := L.attrs
  source := L.source
  directory := L.directory
  ids := L.ids
  maker := maker

/-- An evaluation may start on globals without functions. -/
theorem Image.shares_initial {L : Image} {m : Machine}
    (h : ∀ i v, m.globals.get? i = some v → v.Plain) :
    L.Shares (.initial m.globals m.made) m :=
  ⟨Globals.bare_of_plain h, fun i v hv => (h i v hv).only, rfl⟩

section Program

variable {s : Script} {a : Artifact} {text : List Stmt} {L : Image} {main : Body}
  {host : PureHost} {maker : Nat} {m : Machine} {start : Store}

theorem Script.Laid.suits (h : s.Laid a text L main) (hs : s.Plain) (ha : a.Small)
    (hhost : Blind host) :
    L.Suits (s.world L host maker) ⟨a.bytecode, Host.ofPure host, maker⟩ := by
  obtain ⟨moved, hcomplete⟩ := h.complete
  have hruns := h.runs hs ha
  refine ⟨h.pool.symm, fun id name args => ⟨host id name args, ?_, rfl⟩, hhost.lends, rfl, rfl, rfl,
    h.options.symm, rfl, rfl, hcomplete.modules, hcomplete.distinct,
    fun R id k hk hdefines => ?_, hruns.attrs⟩
  · exact hhost.same id name _ _ (by simp [Function.comp_def, Value.bare_bare])
  obtain ⟨whole, -, htiled⟩ := Image.Defines.tiled hcomplete.modules hdefines
  have hsmall := hruns.functions id R.routine (Array.mem_of_getElem? hk)
  rw [show R.routine.code = R.code.bytes from rfl, Code.size_bytes] at hsmall
  exact Image.readable_of_tiled htiled hruns.cells hsmall

/-- The main routine at its start. -/
theorem Script.Laid.starts (h : s.Laid a text L main) (hs : s.Plain) (ha : a.Small) {x : Setting}
    (hx : x.bytecode = a.bytecode) (hbudget : m.budget = none) (hstart : L.Shares start m) :
    let A : Activation := ⟨main, [], ⟨main.routine, [], 0, 0⟩, #[], #[], start⟩
    A.Runs ∧ L.Reached A s.names 0 [] start (m.start x) := by
  intro A
  have hruns := h.runs hs ha
  obtain ⟨-, hnames⟩ := Layout.script_fits s
  have hmain : x.bytecode.main = main.routine := by rw [hx, h.main]
  refine ⟨⟨rfl, Image.readable_of_tiled hruns.main.tiled hruns.cells hruns.main.small, rfl, ?_⟩,
    ⟨?_, by simp [A], fun hn => absurd (by rw [Names.around?, hnames]; rfl) hn⟩, #[],
    ⟨[], rfl, h.lays.locals.symm, List.nil_prefix⟩, ?_, rfl, ⟨[], rfl, by simp, ?_⟩, by simp,
    by simp [A], ⟨⟨hstart.globals, hstart.cells, hstart.made⟩, hbudget⟩, fun v hv => hv⟩
  · rw [show A.body.captured = [] from h.lays.captured]
    exact .nil
  · rw [Names.vars, hnames]
    rfl
  · simp [Machine.start, hmain, A]
  · have hlocals : main.routine.locals = 0 := h.lays.locals
    simp [Machine.start, hmain, hlocals]

/-- What a run comes to, by the evaluation with so many calls and rounds. -/
theorem Script.Laid.follows (h : s.Laid a text L main) (hs : s.Plain) (ha : a.Small)
    (hhost : Blind host) (hbudget : m.budget = none) (hstart : L.Shares start m)
    (maker fuel : Nat) :
    let x : Setting := ⟨a.bytecode, Host.ofPure host, maker⟩
    (m.start x).Overflows x ∨
      match (s.world L host maker).run s.names text fuel start with
      | .ok _ st => ∃ k m', m.runFreely x k = (.finished, m') ∧ L.Shares st m'
      | .error (.trap t) st => ∃ k m', m.runFreely x k = (.halted (.trap t), m') ∧ L.Shares st m'
      | .error .unfinished _ => (m.runFreely x fuel).1 = .unfinished
      | .error .stuck _ => False := by
  intro x
  let W := s.world L host maker
  have hL : L.Suits W x := h.suits hs ha hhost
  obtain ⟨hA, hreached⟩ := h.starts (x := x) hs ha rfl hbudget hstart
  obtain ⟨k, hstmts, hsuspend⟩ := h.lays.code
  let A : Activation := ⟨main, [], ⟨main.routine, [], 0, 0⟩, #[], #[], start⟩
  have hscope : A.scope [] = ⟨none, [], []⟩ := congrArg (Scope.mk · [] []) h.lays.unit
  have hall := Image.Stmt.followsAll hL (Image.powers_follow hL fuel) hA text
    (parse_parsed h.parsed) hstmts hreached
  rw [hscope] at hall
  have hrun : (m.start x).Agrees x L.Shares fuel (fun _ => L.Rests A [] k)
      (W.run s.names text fuel start) := by
    refine hall.bind fun r st m' hm' => .here ?_
    rcases hm'.of_no_loop with ⟨-, hrests⟩ | ⟨v, -, hover⟩
    · exact hrests.suffix List.nil_suffix
    · exact absurd rfl hover.1
  refine hrun.imp id fun hrun => ?_
  match W.run s.names text fuel start, hrun with
  | .ok _ st, ⟨j, m', hloop, stack, _, hm'⟩ =>
    have hstep := hm'.advance (x := x) hA hsuspend nofun
    rw [Exec.execute_suspend] at hstep
    refine ⟨j + 1, m'.fetched ⟨.suspend, 0, 0⟩, (Machine.loop_add hloop).trans ?_,
      { hm'.reflects with }⟩
    simp only [Machine.loop, hstep]
    rfl
  | .error (.trap t) st, h => exact h
  | .error .unfinished st, h => exact h
  | .error .stuck st, h => exact h

/-- A run that ends, but not for lack of room, ends as the evaluation does. -/
theorem Script.Laid.ends_of_run (h : s.Laid a text L main) (hs : s.Plain) (ha : a.Small)
    (hhost : Blind host) (hbudget : m.budget = none) (hstart : L.Shares start m)
    {maker steps : Nat} {e : Ending} {m' : Machine}
    (hrun : m.runFreely ⟨a.bytecode, Host.ofPure host, maker⟩ steps = (e, m'))
    (hend : e ≠ .unfinished) (hroom : e ≠ .halted (.trap .stackOverflow)) :
    ∃ st, (s.world L host maker).Ends s.names text start e st ∧ L.Shares st m' := by
  rcases h.follows hs ha hhost hbudget hstart maker steps with ⟨k, m'', hover⟩ | hagrees
  · exact absurd (Machine.loop_unique hrun hover hend nofun).1 hroom
  · cases hresult : (s.world L host maker).run s.names text steps start with
    | ok _ st =>
      rw [hresult] at hagrees
      obtain ⟨k, m'', hfinished, hshares⟩ := hagrees
      obtain ⟨rfl, rfl⟩ := Machine.loop_unique hrun hfinished hend nofun
      exact ⟨st, .finished hresult, hshares⟩
    | error stop st =>
      rw [hresult] at hagrees
      match stop, hagrees with
      | .trap t, ⟨k, m'', hhalted, hshares⟩ =>
        obtain ⟨rfl, rfl⟩ := Machine.loop_unique hrun hhalted hend nofun
        exact ⟨st, .halted hresult, hshares⟩
      | .unfinished, hunfinished =>
        rw [hrun] at hunfinished
        exact absurd hunfinished hend

/-- Where the evaluation ends, the run does so alike or runs out of room. -/
theorem Script.Laid.run_of_ends (h : s.Laid a text L main) (hs : s.Plain) (ha : a.Small)
    (hhost : Blind host) (hbudget : m.budget = none) (hstart : L.Shares start m)
    {maker : Nat} {e : Ending} {st : Store}
    (hends : (s.world L host maker).Ends s.names text start e st) :
    let x : Setting := ⟨a.bytecode, Host.ofPure host, maker⟩
    (∃ steps m', m.runFreely x steps = (e, m') ∧ L.Shares st m') ∨
      ∃ steps m', m.runFreely x steps = (.halted (.trap .stackOverflow), m') := by
  intro x
  cases hends with
  | @finished fuel _ hresult =>
    rcases h.follows hs ha hhost hbudget hstart maker fuel with hover | hagrees
    · exact .inr hover
    · rw [hresult] at hagrees
      exact .inl hagrees
  | @halted fuel _ _ hresult =>
    rcases h.follows hs ha hhost hbudget hstart maker fuel with hover | hagrees
    · exact .inr hover
    · rw [hresult] at hagrees
      exact .inl hagrees

end Program

/-- Compilation preserves meaning. Unless the run overflows the stack, it ends exactly when the
evaluation of the syntax tree does, both succeed or fail with the same trap, and they leave the same
globals: of each function there the machine has the compiled form of the literal that the evaluation
knows it by. Both start on globals without functions, or on those that such runs have left. -/
theorem compilation_preserves_meaning {s : Script} {compiler : Nat} {a : Artifact} (hs : s.Plain)
    (h : (s.compile compiler).1 = .ok a) (ha : a.Small) :
    ∃ text L main, s.Laid a text L main ∧
      (∀ m : Machine, (∀ i v, m.globals.get? i = some v → v.Plain) →
        L.Shares (.initial m.globals m.made) m) ∧
      ∀ host : PureHost, Blind host → ∀ (maker : Nat) (m : Machine) (start : Store),
        m.budget = none → L.Shares start m →
      let x : Setting := ⟨a.bytecode, Host.ofPure host, maker⟩
      let W : World := s.world L host maker
      (∀ steps e m', m.runFreely x steps = (e, m') → e ≠ .unfinished →
        e ≠ .halted (.trap .stackOverflow) →
        ∃ st, W.Ends s.names text start e st ∧ L.Shares st m') ∧
      (∀ e st, W.Ends s.names text start e st →
        (∃ steps m', m.runFreely x steps = (e, m') ∧ L.Shares st m') ∨
        ∃ steps m', m.runFreely x steps = (.halted (.trap .stackOverflow), m')) := by
  obtain ⟨text, L, main, hlaid⟩ := script_laid h
  refine ⟨text, L, main, hlaid, fun m => Image.shares_initial,
    fun host hhost maker m start hbudget hstart => ⟨?_, ?_⟩⟩
  · intro steps e m' hrun hend hroom
    exact hlaid.ends_of_run hs ha hhost hbudget hstart hrun hend hroom
  · intro e st hends
    exact hlaid.run_of_ends hs ha hhost hbudget hstart hends

/-- A script that makes closures and calls them in a loop, and imports a registered module and a
file. -/
def addingScript : Script :=
  let source := "add := func(k) { return func(n) { return n + k } }\nsum := 0\n" ++
    "for i := 0; i < 3; i += 1 { sum = add(i)(sum) }\n" ++
    "sum = import(\"twice\")(sum) - import(\"./one\")"
  { Script.ofSource source.toUTF8 Script.defaultFile Script.defaultExtension with
    registry := (∅ : Registry).insert "twice" (.script "export func(n) { return 2 * n }")
    files := ⟨"/", [(["p", "one.glint"], "export 1".toUTF8)], []⟩
    fileImport := true, importDir := "/p" }

/-- A host whose functions refuse all arguments. -/
def refusing : PureHost := fun _ _ _ => .error (.message "unknown native")

/-- A run of the bytecode with such a host leaves a number in a global slot, found out by running
it. -/
def Bytecode.checkLeft (b : Bytecode) (slot : Nat) (n : Int64) : Bool :=
  match (Machine.idle (.ofSize 0) none).runFreely ⟨b, Host.ofPure refusing, 1⟩ 300 with
  | (.finished, m) =>
    match m.globals.get? slot with
    | some (.int k) => k == n
    | _ => false
  | _ => false

theorem Bytecode.left_of_check {b : Bytecode} {slot : Nat} {n : Int64}
    (h : b.checkLeft slot n = true) :
    ∃ m, (Machine.idle (.ofSize 0) none).runFreely ⟨b, Host.ofPure refusing, 1⟩ 300 =
      (.finished, m) ∧ m.globals.get? slot = some (.int n) := by
  unfold checkLeft at h
  split at h
  · rename_i m hrun
    split at h
    · rename_i k hk
      exact ⟨m, hrun, eq_of_beq h ▸ hk⟩
    · cases h
  · cases h

theorem compilation_preserves_meaning_adding :
    ∃ a text L main st, (addingScript.compile 0).1 = .ok a ∧ addingScript.Plain ∧ a.Small ∧
      addingScript.Laid a text L main ∧ Blind refusing ∧
      (addingScript.world L refusing 1).Ends addingScript.names text (.initial (.ofSize 0) 0)
        .finished st ∧ st.globals.get? 1 = some (.int 5) := by
  have hok : ((addingScript.compile 0).1.toOption.any fun a =>
      decide a.Small && a.bytecode.checkLeft 1 5) = true := by decide +kernel
  obtain ⟨a, h, hok⟩ := Compile.eq_ok_of_any hok
  simp only [Bool.and_eq_true, decide_eq_true_eq] at hok
  obtain ⟨hsmall, hleft⟩ := hok
  obtain ⟨m', hrun, hn⟩ := Bytecode.left_of_check hleft
  have hplain : addingScript.Plain :=
    { (Script.plain_ofSource _ _ _).insert_script "twice" "export func(n) { return 2 * n }" with }
  have hblind : Blind refusing := ⟨fun _ _ _ _ _ => rfl, fun _ _ _ _ hv => by cases hv⟩
  have hglobals (i : Nat) (v : Value)
      (hv : (Machine.idle (.ofSize 0) none).globals.get? i = some v) : v.Plain := by
    simp [Machine.idle, Globals.ofSize, Globals.get?] at hv
  obtain ⟨text, L, main, hlaid, hinitial, hmeaning⟩ :=
    compilation_preserves_meaning hplain h hsmall
  obtain ⟨st, hends, hshares⟩ :=
    (hmeaning refusing hblind 1 _ _ rfl (hinitial _ hglobals)).1 300 .finished m' hrun (by simp)
      (by simp)
  refine ⟨a, text, L, main, st, h, hplain, hsmall, hlaid, hblind, hends, ?_⟩
  rw [← hshares.globals, Globals.get?_bare, hn]
  rfl

end ScriptEngine
