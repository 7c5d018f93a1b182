import Mathlib.Logic.Function.Basic
import ScriptEngine.Compile.Import
import ScriptEngine.Machine.Globals
import ScriptEngine.Machine.Operation
import ScriptEngine.Machine.Run
import ScriptEngine.Program.Parser
import ScriptEngine.Proofs.Layout.Names
import ScriptEngine.Value.Equality
/-!
What a program means, told by its syntax tree alone. A name defined outside of functions is a global
cell of its own. One defined in a function or a module belongs to the call; a function literal takes
along the values that such names have when it is reached. A module is evaluated anew by every import.
-/
namespace ScriptEngine

/-- A function as a program under evaluation has it. -/
structure Lambda where
  /-- The module that the literal stands in; none for the main program. -/
  unit : Option String
  /-- The names in force at the start of the body. -/
  names : Names
  params : List String
  body : Block
  /-- The values that it took along, the innermost first. -/
  captured : List (String × Value)

/-- What evaluation may change, but for the variables of calls. -/
structure Store where
  globals : Globals
  /-- The functions without and with captured values, by their objects. -/
  functions : FunctionId → Option Lambda
  closures : FunctionId → Option Lambda
  /-- How many objects with captured values have been made. -/
  made : Nat

/-- Why evaluation yields nothing. -/
inductive Stop where
  | trap (t : Trap)
  /-- The calls and rounds that it was given ran out. -/
  | unfinished
  /-- The program is none: it uses a name that is not defined, or a module that does not exist. -/
  | stuck

abbrev Eval := EStateM Stop Store

namespace Eval

variable {α : Type}

def unfinished : Eval α := throw .unfinished

def stuck : Eval α := throw .stuck

def lift : Except Trap α → Eval α
  | .ok a => pure a
  | .error t => throw (.trap t)

/-- The answer of a builtin or host function. -/
def answer : Except CallError α → Eval α
  | .ok a => pure a
  | .error e => throw (.trap (.call e))

end Eval

/-- Functions of a host that are given nothing but their arguments. -/
abbrev PureHost := FunctionId → String → List Value → Except CallError Value

/-- What surrounds a program. -/
structure World where
  host : PureHost
  imports : ImportOptions
  /-- The attributes of the host's modules. -/
  attrs : String → List (String × Value)
  /-- The texts of the modules that are scripts. -/
  source : String → ByteArray
  /-- Where the files lie that a module imports; none for the main program. -/
  directory : Option String → String
  /-- The object of each literal that captures nothing, by its module and its number there. -/
  ids : Option String → Nat → FunctionId
  /-- Whose objects literals make that do. -/
  maker : Nat

/-- Variables of a call with their values, the last defined first. -/
abbrev Locals := List (String × Value)

namespace Locals

def assign (x : String) (v : Value) : Locals → Locals
  | [] => []
  | (y, w) :: rest => if y = x then (y, v) :: rest else (y, w) :: assign x v rest

/-- What is left of the variables behind a block. -/
def leave (outer inner : Locals) : Locals := inner.drop (inner.length - outer.length)

end Locals

/-- Where an expression is evaluated. -/
structure Scope where
  unit : Option String
  captured : List (String × Value)
  locals : Locals

/-- What takes calls and rounds of loops. -/
structure Powers where
  call : Lambda → List Value → Eval Value
  load : (key : String) → Eval Value
  /-- How often a loop may go round. -/
  rounds : Nat

def Literal.value : Literal → Value
  | undefined => .undefined
  | bool b => .bool b
  | int n => .int n
  | float x => .float x
  | char c => .char c
  | string s => .string s

/-- A function literal takes values along: its body looks up variables of the functions around it. -/
def Names.closes (Γ : Names) (params : List String) (body : Block) : Bool :=
  Γ.functions.flatten.any fun x => decide (Γ.Captures params body x)

namespace Scope

/-- The value of a name. -/
def read (sc : Scope) (Γ : Names) (x : String) : Eval Value :=
  match sc.locals.lookup x with
  | some v => pure v
  | none =>
    match sc.captured.lookup x with
    | some v => pure v
    | none =>
      match Γ.globals.lookup x with
      | some cell => do return ((← get).globals.get? cell).getD .undefined
      | none =>
        match Builtin.ofName? x with
        | some b => pure (.builtin b)
        | none => Eval.stuck

/-- A name that is in force already gets a value. -/
def assign (sc : Scope) (Γ : Names) (x : String) (v : Value) : Eval Locals :=
  match sc.locals.lookup x with
  | some _ => pure (sc.locals.assign x v)
  | none =>
    match Γ.globals.lookup x with
    | some cell => do
      modify fun st => { st with globals := st.globals.set cell v }
      pure sc.locals
    | none => Eval.stuck

/-- A new name gets a value. -/
def define (sc : Scope) (Γ : Names) (x : String) (v : Value) : Eval Locals :=
  match Γ.functions with
  | [] => do
    modify fun st => { st with globals := st.globals.set Γ.cell v }
    pure sc.locals
  | _ => pure ((x, v) :: sc.locals)

/-- A function is known by its name in its own body; as long as there is no value, a variable is
undefined. -/
def announce (sc : Scope) (Γ : Names) (x : String) : Scope :=
  match Γ.functions with
  | [] => sc
  | _ => { sc with locals := (x, .undefined) :: sc.locals }

/-- The value of a function literal. One that captures nothing is the same object each time. -/
def function (W : World) (sc : Scope) (Γ : Names) (params : List String) (body : Block) :
    Eval Value :=
  if Γ.closes params body then
    modifyGet fun st =>
      let id : FunctionId := ⟨W.maker, st.made⟩
      let f : Lambda := ⟨sc.unit, Γ.function params, params, body, sc.locals ++ sc.captured⟩
      (.closure id default [],
        { st with made := st.made + 1, closures := Function.update st.closures id (some f) })
  else
    modifyGet fun st =>
      let id := W.ids sc.unit Γ.literal
      let f : Lambda := ⟨sc.unit, Γ.function params, params, body, []⟩
      (.function id default, { st with functions := Function.update st.functions id (some f) })

variable {sc : Scope} {Γ : Names} {x : String} {v w : Value} {st : Store} {cell : Nat}

theorem read_variable (h : (sc.locals ++ sc.captured).lookup x = some v) :
    (sc.read Γ x).run st = .ok v st := by
  rw [List.lookup_append] at h
  unfold read
  cases hlocal : sc.locals.lookup x with
  | some w =>
    rw [hlocal, Option.some_or] at h
    cases h
    rfl
  | none =>
    rw [hlocal, Option.none_or] at h
    simp only [h]
    rfl

theorem lookup_eq_none (h : (sc.locals ++ sc.captured).lookup x = none) :
    sc.locals.lookup x = none ∧ sc.captured.lookup x = none := by
  rwa [List.lookup_append, Option.or_eq_none_iff] at h

theorem read_global (h : (sc.locals ++ sc.captured).lookup x = none)
    (hcell : Γ.globals.lookup x = some cell) :
    (sc.read Γ x).run st = .ok ((st.globals.get? cell).getD .undefined) st := by
  obtain ⟨hlocal, hcaptured⟩ := lookup_eq_none h
  unfold read
  simp only [hlocal, hcaptured, hcell]
  rfl

theorem read_builtin {b : Builtin} (h : (sc.locals ++ sc.captured).lookup x = none)
    (hcell : Γ.globals.lookup x = none) (hb : Builtin.ofName? x = some b) :
    (sc.read Γ x).run st = .ok (.builtin b) st := by
  obtain ⟨hlocal, hcaptured⟩ := lookup_eq_none h
  unfold read
  simp only [hlocal, hcaptured, hcell, hb]
  rfl

theorem assign_variable (h : sc.locals.lookup x = some w) :
    (sc.assign Γ x v).run st = .ok (sc.locals.assign x v) st := by
  unfold assign
  simp only [h]
  rfl

theorem assign_global (h : sc.locals.lookup x = none) (hcell : Γ.globals.lookup x = some cell) :
    (sc.assign Γ x v).run st = .ok sc.locals { st with globals := st.globals.set cell v } := by
  unfold assign
  simp only [h, hcell]
  rfl

theorem define_outside (h : Γ.functions = []) : (sc.define Γ x v).run st =
    .ok sc.locals { st with globals := st.globals.set Γ.cell v } := by
  unfold define
  simp only [h]
  rfl

theorem define_inside (h : Γ.functions ≠ []) :
    (sc.define Γ x v).run st = .ok ((x, v) :: sc.locals) st := by
  unfold define
  cases hf : Γ.functions with
  | nil => exact absurd hf h
  | cons vars around => rfl

theorem announce_outside (h : Γ.functions = []) : sc.announce Γ x = sc := by
  unfold announce
  simp only [h]

theorem announce_inside (h : Γ.functions ≠ []) :
    sc.announce Γ x = { sc with locals := (x, .undefined) :: sc.locals } := by
  unfold announce
  cases hf : Γ.functions with
  | nil => exact absurd hf h
  | cons vars around => rfl

end Scope

/-- How a statement ends. -/
inductive Completion where
  | next
  | broke
  | continued
  | returned (v : Value)

/-- What a body yields that ends so. -/
def Completion.value : Completion → Value
  | returned v => v
  | _ => .undefined

/-- The value of an operation. Only the one behind `and` and `or` may be left alone. -/
def BinaryOp.eval (op : BinaryOp) (left : Value) (right : Eval Value) : Eval Value :=
  match op with
  | or => if left.isTruthy then pure left else right
  | and => if left.isTruthy then right else pure left
  | equal => do return .bool (left.same (← right))
  | notEqual => do return .bool (!left.same (← right))
  | order c => do Eval.lift (c.apply left (← right))
  | arith op => do Eval.lift (op.apply left (← right))

def UnaryOp.eval (op : UnaryOp) (v : Value) : Eval Value :=
  match op with
  | neg => Eval.lift v.negate
  | not => pure (.bool !v.isTruthy)

section Evaluation

variable (W : World) (P : Powers)

/-- The value of a call. -/
def Value.apply (f : Value) (args : List Value) : Eval Value :=
  match f with
  | .function id _ => do
    match (← get).functions id with
    | some f => P.call f args
    | none => Eval.stuck
  | .closure id _ _ => do
    match (← get).closures id with
    | some f => P.call f args
    | none => Eval.stuck
  | .builtin b => Eval.answer (b.call args)
  | .native id name => Eval.answer (W.host id name args)
  | other => throw (.trap (.notCallable other.typeName))

/-- The value of an import. A name that is not registered is that of a file. -/
def World.load (unit : Option String) (name : String) : Eval Value :=
  match W.imports.registry[name]? with
  | some (.attrs _) => pure (.module name (W.attrs name))
  | some (.script _) => P.load name
  | none =>
    if W.imports.fileImport then
      match W.imports.path (W.directory unit) name with
      | .ok key => P.load key
      | .error _ => Eval.stuck
    else Eval.stuck

mutual

def Expr.eval (sc : Scope) (Γ : Names) : Expr → Eval Value
  | .lit _ l => pure l.value
  | .name _ x => sc.read Γ x
  | .array _ items => do return .array (← Expr.evalAll sc Γ items)
  | .map _ entries => do return .map (Entries.ofList (← Expr.evalEntries sc Γ entries))
  | .unary _ op e => do op.eval (← e.eval sc Γ)
  | .binary _ op left right => do
    let v ← left.eval sc Γ
    op.eval v (right.eval sc (Γ.skip left.literals))
  | .call _ callee args => do
    let f ← callee.eval sc Γ
    let vs ← Expr.evalAll sc (Γ.skip callee.literals) args
    f.apply W P vs
  | .index _ container place => do
    let v ← container.eval sc Γ
    let k ← place.eval sc (Γ.skip container.literals)
    Eval.lift (v.element k)
  | .field _ container x => do
    let v ← container.eval sc Γ
    Eval.lift (v.element (.string x))
  | .func _ params body => sc.function W Γ params body
  | .load _ key => W.load P sc.unit key

def Expr.evalAll (sc : Scope) (Γ : Names) : List Expr → Eval (List Value)
  | [] => pure []
  | e :: rest => do
    let v ← e.eval sc Γ
    let vs ← Expr.evalAll sc (Γ.skip e.literals) rest
    pure (v :: vs)

def Expr.evalEntries (sc : Scope) (Γ : Names) : List (String × Expr) → Eval (List (String × Value))
  | [] => pure []
  | (key, e) :: rest => do
    let v ← e.eval sc Γ
    let entries ← Expr.evalEntries sc (Γ.skip e.literals) rest
    pure ((key, v) :: entries)

end

/-- An optional value; there is none if nothing is said. -/
def Expr.evalPart (sc : Scope) (Γ : Names) : Option Expr → Eval Value
  | none => pure .undefined
  | some e => e.eval W P sc Γ

/-- The condition of a loop, which may be left out. -/
def Expr.test (sc : Scope) (Γ : Names) : Option Expr → Eval Bool
  | none => pure true
  | some e => do return (← e.eval W P sc Γ).isTruthy

/-- A value is stored in a target. An element is stored by storing its container with the element
replaced; `value` is evaluated behind container and index. -/
def Expr.store (sc : Scope) (value : Names → Eval Value) (Γ : Names) : Expr → Eval Locals
  | .name _ x => do sc.assign Γ x (← value Γ)
  | .index _ container place =>
    container.store sc (fun Γ => do
      let v ← container.eval W P sc Γ
      let k ← place.eval W P sc (Γ.skip container.literals)
      let w ← value (Γ.skip (container.literals + place.literals))
      Eval.lift (v.replaceElement k w)) Γ
  | .field _ container x =>
    container.store sc (fun Γ => do
      let v ← container.eval W P sc Γ
      let w ← value (Γ.skip container.literals)
      Eval.lift (v.replaceElement (.string x) w)) Γ
  | _ => Eval.stuck

/-- The rounds of a loop. -/
def iterate (test : Locals → Eval Bool) (body post : Locals → Eval (Completion × Locals)) :
    (rounds : Nat) → Locals → Eval (Completion × Locals)
  | 0, _ => Eval.unfinished
  | rounds + 1, locals => do
    if ← test locals then
      let (c, inner) ← body locals
      match c with
      | .broke => pure (.next, inner)
      | .returned v => pure (.returned v, inner)
      | .next | .continued => do
        let (c, last) ← post inner
        match c with
        | .next => iterate test body post rounds (locals.leave last)
        | other => pure (other, last)
    else pure (.next, locals)

mutual

/-- How a statement ends, and the variables behind it. -/
def Stmt.exec (sc : Scope) (Γ : Names) : Stmt → Eval (Completion × Locals)
  | .expr e => do
    let _ ← e.eval W P sc Γ
    pure (.next, sc.locals)
  | .define _ x e => do
    let v ← if e.isFunc then e.eval W P (sc.announce Γ x) (Γ.define x) else e.eval W P sc Γ
    return (.next, ← sc.define Γ x v)
  | .assign _ none place e => do
    return (.next, ← place.store W P sc (fun Γ => e.eval W P sc Γ) Γ)
  | .assign _ (some op) place e => do
    let value (Γ : Names) : Eval Value := do
      let v ← place.eval W P sc Γ
      let w ← e.eval W P sc (Γ.skip place.literals)
      Eval.lift (op.apply v w)
    return (.next, ← place.store W P sc value Γ)
  | .branch _ cond body orElse => do
    let v ← cond.eval W P sc Γ
    if v.isTruthy then body.exec sc (Γ.skip cond.literals)
    else Stmt.execPart sc (body.after (Γ.skip cond.literals)) orElse
  | .loop _ init cond post body => do
    let (c, locals) ← Stmt.execPart sc Γ init
    match c with
    | .next => do
      let start := Stmt.afterPart init Γ
      let tested := start.skip (Expr.partLiterals cond)
      let (c, locals) ← iterate (fun locals => Expr.test W P { sc with locals } start cond)
        (fun locals => body.exec { sc with locals } tested)
        (fun locals => Stmt.execPart { sc with locals } (body.after tested) post) P.rounds locals
      pure (c, sc.locals.leave locals)
    | other => pure (other, sc.locals.leave locals)
  | .breakLoop _ => pure (.broke, sc.locals)
  | .continueLoop _ => pure (.continued, sc.locals)
  | .returnValue _ value => do return (.returned (← Expr.evalPart W P sc Γ value), sc.locals)
  | .exportValue _ e => do return (.returned (← e.eval W P sc Γ), sc.locals)
  | .block body => body.exec sc Γ

def Stmt.execPart (sc : Scope) (Γ : Names) : Option Stmt → Eval (Completion × Locals)
  | none => pure (.next, sc.locals)
  | some s => s.exec sc Γ

def Block.exec (sc : Scope) (Γ : Names) : Block → Eval (Completion × Locals)
  | .mk _ body => do
    let (c, locals) ← Stmt.execAll sc Γ body
    pure (c, sc.locals.leave locals)

def Stmt.execAll (sc : Scope) (Γ : Names) : List Stmt → Eval (Completion × Locals)
  | [] => pure (.next, sc.locals)
  | s :: rest => do
    let (c, locals) ← s.exec sc Γ
    match c with
    | .next => Stmt.execAll { sc with locals } (s.after Γ) rest
    | other => pure (other, locals)

end

end Evaluation

/-- Evaluation in which calls are nested no deeper than `fuel`, and no loop goes round more often. -/
def World.powers (W : World) : (fuel : Nat) → Powers
  | 0 => ⟨fun _ _ => Eval.unfinished, fun _ => Eval.unfinished, 0⟩
  | fuel + 1 =>
    { call := fun f args =>
        if f.params.length = args.length then do
          let sc : Scope := ⟨f.unit, f.captured, (f.params.zip args).reverse⟩
          return (← Stmt.execAll W (W.powers fuel) sc f.names f.body.stmts).1.value
        else throw (.trap (.wrongArgCount f.params.length args.length))
      load := fun key =>
        match parse key (W.source key) with
        | .ok body => do
          return (← Stmt.execAll W (W.powers fuel) ⟨some key, [], []⟩ .forModule body).1.value
        | .error _ => Eval.stuck
      rounds := fuel + 1 }

/-- The state of an evaluation that starts on some globals. -/
def Store.initial (globals : Globals) (made : Nat) : Store :=
  ⟨globals, fun _ => none, fun _ => none, made⟩

/-- A main program is evaluated. -/
def World.run (W : World) (Γ : Names) (body : List Stmt) (fuel : Nat) (st : Store) :
    EStateM.Result Stop Store Unit :=
  (do let _ ← Stmt.execAll W (W.powers fuel) ⟨none, [], []⟩ Γ body).run st

/-- The evaluation of a main program comes to an end, told as that of a run. -/
inductive World.Ends (W : World) (Γ : Names) (body : List Stmt) (start : Store) :
    Ending → Store → Prop where
  | finished {fuel : Nat} {st : Store} (h : W.run Γ body fuel start = .ok () st) :
    Ends W Γ body start .finished st
  | halted {fuel : Nat} {t : Trap} {st : Store}
    (h : W.run Γ body fuel start = .error (.trap t) st) :
    Ends W Γ body start (.halted (.trap t)) st

end ScriptEngine
