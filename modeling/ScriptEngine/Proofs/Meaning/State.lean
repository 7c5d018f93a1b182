import ScriptEngine.Proofs.Layout.Outline
import ScriptEngine.Proofs.Layout.Program
import ScriptEngine.Proofs.Meaning.Follow
import ScriptEngine.Proofs.Program.Parsed
import ScriptEngine.Proofs.Value.Recode
/-!
When a state of the machine fits a state of the evaluation. Values are the same but for what functions
hold: the machine has the compiled form of the literal that the evaluation knows their object by.
-/
namespace ScriptEngine

/-- The value as scripts see it: of functions nothing but their objects. -/
def Value.bare : Value → Value := recode (fun _ => default) fun _ => []

theorem Value.disguises_bare : Disguises id (fun _ => default) (fun _ => []) bare :=
  disguises_recode

theorem Value.Plain.bare {v : Value} (h : v.Plain) : v.bare = v := disguises_bare.plain_eq h

theorem Value.bare_bare (v : Value) : v.bare.bare = v.bare := recode_recode v

def Globals.bare (g : Globals) : Globals := ⟨g.slots.map (Option.map Value.bare)⟩

namespace Globals

theorem get?_bare (g : Globals) (i : Nat) : g.bare.get? i = (g.get? i).map Value.bare := by
  simp only [get?, bare, Array.getElem?_map]
  cases g.slots[i]? with
  | none => rfl
  | some slot => cases slot <;> rfl

theorem set_bare (g : Globals) (i : Nat) (v : Value) : g.bare.set i v.bare = (g.set i v).bare := by
  have hsize : g.bare.slots.size = g.slots.size := Array.size_map
  have hresize (n : Nat) : g.bare.resize n = (g.resize n).bare := by simp [resize, bare]
  unfold set
  rw [hsize, hresize]
  split <;> simp [bare]

end Globals

/-- The instructions of a body can be read from its bytes. -/
def Body.Readable (R : Body) : Prop :=
  ∀ pos op a b p q, R.Has pos op a b p q → (op.isJump = true → b = 0) →
    Instruction.at? R.routine.code p = some ⟨op, a, b⟩

/-- A function is laid out as a body. -/
structure Lambda.LaidOut (l : Lambda) (L : Image) (R : Body) : Prop where
  unit : R.unit = l.unit
  params : R.params = l.params.length
  code : ∃ pos, L.bodyAt R l.names pos l.body
  names : ∃ Γ : Names, l.names = Γ.function l.params ∧ ∀ e ∈ l.captured, e.1 ∈ Γ.functions.flatten
  parsed : l.body.Parsed
  small : R.Small
  readable : R.Readable

/-- The values of captured variables, in the order of their names. -/
def Captures (names : List String) (captured : List (String × Value)) (free : List Value) : Prop :=
  List.Forall₂ (fun x w => captured.lookup x = some w.bare) names free

/-- A routine with captured values is the compiled form of a function. -/
def Lambda.Compiled (l : Lambda) (L : Image) (r : Routine) (free : List Value) : Prop :=
  ∃ R : Body, R.routine = r ∧ l.LaidOut L R ∧ Captures R.captured l.captured free

/-- A call under way. -/
structure Activation where
  body : Body
  /-- The variables of the functions around its own, with the values that they had when it was
  made. -/
  captured : List (String × Value)
  frame : Frame
  callers : Array Frame
  /-- What lies on the stack below its variables. -/
  below : Array Value
  /-- The state of the evaluation at its start. -/
  start : Store

namespace Activation

variable (A : Activation)

def scope (locals : Locals) : Scope := ⟨A.body.unit, A.captured, locals⟩

/-- The frame runs the body. -/
structure Runs : Prop where
  routine : A.frame.routine = A.body.routine
  readable : A.body.Readable
  base : A.frame.base = A.below.size
  captured : Captures A.body.captured A.captured A.frame.free

/-- The names in force are those of the variables that there are. -/
structure Knows (Γ : Names) (locals : Locals) : Prop where
  vars : locals.map Prod.fst = Γ.vars
  around : ∀ e ∈ A.captured, e.1 ∈ (Γ.around?.getD []).flatten
  /-- Only the main program has no caller. -/
  called : Γ.around? ≠ none → A.callers ≠ #[]

/-- The variables lie in their slots on a stack, the first defined lowest. -/
def Holds (locals : Locals) (s : Array Value) : Prop :=
  ∃ slots : List Value, s = A.below ++ slots.toArray ∧ slots.length = A.body.locals ∧
    locals.reverse.map Prod.snd <+: slots.map Value.bare

/-- A place of the body where some names are in force. -/
structure Site (Γ : Names) (locals : Locals) (s : Array Value) : Prop extends
    A.Runs, A.Knows Γ locals where
  holds : A.Holds locals s

end Activation

namespace Image

variable (L : Image) (st : Store)

/-- A function of the machine is the compiled form of the function with its object. -/
def Known : Value → Prop
  | .function id r => (∃ u n, id = L.ids u n ∧ L.routines u n = some r) ∧
    ∃ l, st.functions id = some l ∧ l.Compiled L r []
  | .closure id r free => id.serial < st.made ∧
    ∃ l, st.closures id = some l ∧ l.Compiled L r free
  | _ => True

/-- The machine has the globals of the evaluation, and has made as many closures. -/
structure Shares (m : Machine) : Prop where
  globals : m.globals.bare = st.globals
  cells : ∀ i v, m.globals.get? i = some v → v.Only (L.Known st)
  made : m.made = st.made

/-- The machine is in the state of the evaluation. -/
structure Reflects (m : Machine) : Prop extends L.Shares st m where
  budget : m.budget = none

/-- What is known of functions stays known. -/
def Grows (st' : Store) : Prop := ∀ v, L.Known st v → L.Known st' v

/-- The machine is about to go on at `p` in a call, with the given operands above `s`. -/
structure Loaded (A : Activation) (s : Array Value) (vs : List Value) (p : Nat) (st : Store)
    (m : Machine) : Prop where
  frame : m.frame = { A.frame with ip := p }
  callers : m.callers = A.callers
  stack : ∃ ws : List Value, ws.map Value.bare = vs ∧ (∀ w ∈ ws, w.Only (L.Known st)) ∧
    m.stack = s ++ ws.toArray
  slots : ∀ k v, A.frame.base ≤ k → s[k]? = some v → v.Only (L.Known st)
  free : ∀ v ∈ A.frame.free, v.Only (L.Known st)
  reflects : L.Reflects st m
  grown : L.Grows A.start st

/-- The machine is about to go on at `p` in a call, with the given variables and without operands. -/
def Rests (A : Activation) (locals : Locals) (p : Nat) (st : Store) (m : Machine) : Prop :=
  ∃ s, A.Holds locals s ∧ L.Loaded A s [] p st m

/-- The machine is at a place where some names are in force, between two statements. -/
structure Reached (A : Activation) (Γ : Names) (p : Nat) (locals : Locals) (st : Store)
    (m : Machine) : Prop where
  knows : A.Knows Γ locals
  rests : L.Rests A locals p st m

/-- A callee that lay on `s` has left its value there, and its caller is about to go on. -/
structure Returned (s : Array Value) (caller : Frame) (callers : Array Frame) (start : Store)
    (v : Value) (st : Store) (m : Machine) : Prop where
  frame : m.frame = caller
  callers : m.callers = callers
  stack : ∃ w : Value, w.bare = v ∧ w.Only (L.Known st) ∧ m.stack = s.push w
  reflects : L.Reflects st m
  grown : L.Grows start st

/-- What a program and its surroundings are to the machine that runs it. -/
structure Suits (W : World) (x : Setting) : Prop where
  pool : x.bytecode.pool = L.pool
  /-- Host functions see of script functions nothing but their objects, and yield only those that
  they were given. -/
  host : ∀ id name args, ∃ e : Except CallError Value, W.host id name (args.map Value.bare) =
    e.map Value.bare ∧ x.host.call id name args = match e with
      | .ok v => .value v
      | .error e => .refused e
  lends : x.host.Lends
  maker : x.maker = W.maker
  ids : W.ids = L.ids
  attrs : W.attrs = L.attrs
  imports : W.imports = L.options
  source : W.source = L.source
  directory : W.directory = L.directory
  modules : ∀ key f, L.modules key = some f → L.ModuleAt key f
  distinct : ∀ u n u' n', (L.routines u n).isSome → (L.routines u' n').isSome →
    L.ids u n = L.ids u' n' → u = u' ∧ n = n'
  /-- The bytes of all functions can be read. -/
  readable : ∀ (R : Body) (id : FunctionId) (k : Nat),
    L.pool[k]? = some (.function id R.routine) → L.Defines R → R.Readable
  data : ∀ name, ∀ e ∈ L.attrs name, e.2.Plain

end Image

end ScriptEngine
