import ScriptEngine.Compile.Import
import ScriptEngine.Compile.Lower
import ScriptEngine.Proofs.Encoding.Decode
import ScriptEngine.Proofs.Layout.Names
/-!
Where the code of each part of a program lies. The predicates follow the syntax tree and speak about
finished code: offsets are final, jumps are closed, and constants are in their places.
-/
namespace ScriptEngine

/-- What the code of a program refers to. -/
structure Image where
  options : ImportOptions
  pool : Array Value
  /-- How many global cells there are. -/
  cells : Nat
  /-- The attributes of the host's modules. -/
  attrs : String → List (String × Value)
  /-- The functions of the modules, by key. -/
  modules : String → Option Value
  /-- The texts of the modules, by key. -/
  source : String → ByteArray
  /-- Where the files lie that a module imports; none for the main program. -/
  directory : Option String → String
  /-- The function object of each literal, by the module it stands in and its number there. -/
  ids : Option String → Nat → FunctionId
  routines : Option String → Nat → Option Routine

/-- Finished code with the frame it runs in. -/
structure Body where
  code : Code
  locals : Nat
  params : Nat
  /-- The variables that it captures, in their order. -/
  captured : List String
  /-- The module it belongs to; none for the main program. -/
  unit : Option String

namespace Body

def routine (R : Body) : Routine := R.code.toRoutine R.locals R.params

/-- An instruction lies between two offsets. -/
def Has (R : Body) (pos : Option Pos) (op : Opcode) (a b p q : Nat) : Prop :=
  R.code.at? p = some (.plain ⟨op, a, b⟩ pos) ∧ q = p + op.size

/-- The frame fits its operands. -/
structure Small (R : Body) : Prop where
  locals : R.locals ≤ Compile.maxLocals
  params : R.params ≤ Compile.maxArgs
  captured : R.captured.length ≤ Compile.maxArgs
  /-- Arguments are the first local variables. -/
  arguments : R.params ≤ R.locals

end Body

/-- The operation that loads what is kept so. -/
def Storage.load : Storage → Opcode
  | global => .getGlobal
  | frame => .getLocal
  | builtin => .getBuiltin
  | free => .getFree

namespace Image

variable (L : Image) (R : Body)

/-- There is such a place. -/
def Within : Storage → Nat → Prop
  | .global, i => i < L.cells
  | .frame, i => i < R.locals
  | .builtin, i => i < Builtin.all.size
  | .free, i => i < R.captured.length

/-- A constant is loaded. -/
def constantAt (pos : Pos) (v : Value) (p q : Nat) : Prop :=
  ∃ k, k < Compile.maxConstants ∧ L.pool[k]? = some v ∧ R.Has (some pos) .constant k 0 p q

def literalAt (pos : Pos) : Literal → (p q : Nat) → Prop
  | .undefined, p, q => R.Has (some pos) .undefined 0 0 p q
  | .bool true, p, q => R.Has (some pos) .pushTrue 0 0 p q
  | .bool false, p, q => R.Has (some pos) .pushFalse 0 0 p q
  | .int n, p, q => L.constantAt R pos (.int n) p q
  | .float x, p, q => L.constantAt R pos (.float x) p q
  | .char c, p, q => L.constantAt R pos (.char c) p q
  | .string s, p, q => L.constantAt R pos (.string s) p q

/-- A name is loaded. -/
def loadAt (Γ : Names) (pos : Pos) (x : String) (p q : Nat) : Prop :=
  ∃ storage i, Γ.resolve R.captured x = some (storage, i) ∧ L.Within R storage i ∧
    R.Has (some pos) storage.load i 0 p q

def loadsAt (Γ : Names) (pos : Pos) : List String → (p q : Nat) → Prop
  | [], p, q => p = q
  | x :: rest, p, q => ∃ m, L.loadAt R Γ pos x p m ∧ loadsAt Γ pos rest m q

/-- The topmost value is stored in a name. -/
def fillAt (Γ : Names) (pos : Pos) (x : String) (p q : Nat) : Prop :=
  ∃ i, (Γ.resolve R.captured x = some (.frame, i) ∧ i < R.locals ∧
      R.Has (some pos) .setLocal i 0 p q) ∨
    (Γ.resolve R.captured x = some (.global, i) ∧ i < L.cells ∧
      R.Has (some pos) .setGlobal i 0 p q)

/-- A function of the pool is loaded, as a closure if it captures variables. -/
def functionAt (Γ : Names) (pos : Pos) (k : Nat) (captured : List String) (p q : Nat) : Prop :=
  match captured with
  | [] => R.Has (some pos) .constant k 0 p q
  | _ => ∃ m, L.loadsAt R Γ pos captured p m ∧
    R.Has (some pos) .closure k captured.length m q

/-- The value of an import: the attributes of a host module or a call of a module's function. -/
def importAt (pos : Pos) (name : String) (p q : Nat) : Prop :=
  match L.options.registry[name]? with
  | some (.attrs _) => L.constantAt R pos (.module name (L.attrs name)) p q
  | some (.script _) => ∃ f m, L.modules name = some f ∧ L.constantAt R pos f p m ∧
    R.Has (some pos) .call 0 0 m q
  | none => L.options.fileImport = true ∧
    ∃ key f m, L.options.path (L.directory R.unit) name = .ok key ∧ L.modules key = some f ∧
      L.constantAt R pos f p m ∧ R.Has (some pos) .call 0 0 m q

mutual

/-- The code of an expression lies between two offsets. -/
def exprAt (R : Body) (Γ : Names) : Expr → (p q : Nat) → Prop
  | .lit pos l, p, q => L.literalAt R pos l p q
  | .name pos x, p, q => L.loadAt R Γ pos x p q
  | .array pos items, p, q => items.length ≤ Compile.maxElements ∧
    ∃ m, exprsAt R Γ items p m ∧ R.Has (some pos) .array items.length 0 m q
  | .map pos entries, p, q => entries.length ≤ Compile.maxElements ∧
    ∃ m, entriesAt R Γ pos entries p m ∧ R.Has (some pos) .map entries.length 0 m q
  | .unary pos op e, p, q => ∃ m, exprAt R Γ e p m ∧ R.Has (some pos) op.opcode 0 0 m q
  | .binary pos op left right, p, q =>
    if op.shortCircuits then q ≤ Compile.maxCodeSize ∧
      ∃ m n, exprAt R Γ left p m ∧ R.Has (some pos) op.opcode q 0 m n ∧
        exprAt R (Γ.skip left.literals) right n q
    else ∃ m n, exprAt R Γ left p m ∧ exprAt R (Γ.skip left.literals) right m n ∧
      R.Has (some pos) op.opcode 0 0 n q
  | .call pos callee args, p, q => args.length ≤ Compile.maxArgs ∧
    ∃ m n, exprAt R Γ callee p m ∧ exprsAt R (Γ.skip callee.literals) args m n ∧
      R.Has (some pos) .call args.length 0 n q
  | .index pos container index, p, q =>
    ∃ m n, exprAt R Γ container p m ∧ exprAt R (Γ.skip container.literals) index m n ∧
      R.Has (some pos) .index 0 0 n q
  | .field pos container name, p, q =>
    ∃ m n, exprAt R Γ container p m ∧ L.constantAt R pos (.string name) m n ∧
      R.Has (some pos) .index 0 0 n q
  | .func pos params body, p, q =>
    ∃ k R', k < Compile.maxConstants ∧
      L.pool[k]? = some (.function (L.ids R.unit Γ.literal) R'.routine) ∧
      L.routines R.unit Γ.literal = some R'.routine ∧
      R'.unit = R.unit ∧ R'.params = params.length ∧ R'.Small ∧
      (∀ x, x ∈ R'.captured ↔ Γ.Captures params body x) ∧
      bodyAt R' (Γ.function params) pos body ∧
      L.functionAt R Γ pos k R'.captured p q
  | .load pos name, p, q => L.importAt R pos name p q

def exprsAt (R : Body) (Γ : Names) : List Expr → (p q : Nat) → Prop
  | [], p, q => p = q
  | e :: rest, p, q => ∃ m, exprAt R Γ e p m ∧ exprsAt R (Γ.skip e.literals) rest m q

/-- Keys and values follow one another. -/
def entriesAt (R : Body) (Γ : Names) (pos : Pos) : List (String × Expr) → (p q : Nat) → Prop
  | [], p, q => p = q
  | (key, e) :: rest, p, q => ∃ m n, L.constantAt R pos (.string key) p m ∧ exprAt R Γ e m n ∧
    entriesAt R (Γ.skip e.literals) pos rest n q

/-- A function's code starts with its body. It ends with a return, which is added if the body ends
with none. -/
def bodyAt (R : Body) (Γ : Names) (pos : Pos) : Block → Prop
  | .mk _ body => ∃ m, stmtsAt R none Γ body 0 m ∧
    if (body.getLast?.map Stmt.isReturn).getD false then m = R.code.size
    else R.Has (some pos) .ret 0 0 m R.code.size

/-- What `value` lays out is stored in a target. -/
def storeAt (R : Body) (pos : Pos) (value : Names → (p q : Nat) → Prop) (Γ : Names) :
    Expr → (p q : Nat) → Prop
  | .name _ x, p, q => ∃ m, value Γ p m ∧ L.fillAt R Γ pos x m q
  | .index _ container index, p, q =>
    storeAt R pos (fun Γ p q => ∃ m n k, exprAt R Γ container p m ∧
      exprAt R (Γ.skip container.literals) index m n ∧
      value (Γ.skip (container.literals + index.literals)) n k ∧
      R.Has (some pos) .setIndex 0 0 k q) Γ container p q
  | .field place container name, p, q =>
    storeAt R pos (fun Γ p q => ∃ m n k, exprAt R Γ container p m ∧
      L.constantAt R place (.string name) m n ∧
      value (Γ.skip container.literals) n k ∧
      R.Has (some pos) .setIndex 0 0 k q) Γ container p q
  | _, _, _ => False

/-- The code of a statement lies between two offsets. `J` says where `break` and `continue` lead, if
a loop is open. -/
def stmtAt (R : Body) (J : Option (Nat × Nat)) (Γ : Names) : Stmt → (p q : Nat) → Prop
  | .expr e, p, q => ∃ m, exprAt R Γ e p m ∧ R.Has (some e.pos) .pop 0 0 m q
  | .define pos x e, p, q =>
    if e.isFunc then
      ∃ m n, (match Γ.functions with
          | [] => p = m
          | _ => ∃ k, R.Has (some pos) .undefined 0 0 p k ∧ L.fillAt R (Γ.define x) pos x k m) ∧
        exprAt R (Γ.define x) e m n ∧ L.fillAt R (Γ.define x) pos x n q
    else ∃ m, exprAt R Γ e p m ∧ L.fillAt R (Γ.define x) pos x m q
  | .assign pos none place e, p, q =>
    storeAt R pos (fun Γ p q => exprAt R Γ e p q) Γ place p q
  | .assign pos (some op) place e, p, q =>
    storeAt R pos (fun Γ p q => ∃ m n, exprAt R Γ place p m ∧
      exprAt R (Γ.skip place.literals) e m n ∧ R.Has (some pos) (.arith op) 0 0 n q) Γ place p q
  | .branch pos cond body none, p, q => q ≤ Compile.maxCodeSize ∧
    ∃ m n, exprAt R Γ cond p m ∧ R.Has (some pos) .jumpFalsy q 0 m n ∧
      blockAt R J (Γ.skip cond.literals) body n q
  | .branch pos cond body (some orElse), p, q => q ≤ Compile.maxCodeSize ∧
    ∃ m n k l, exprAt R Γ cond p m ∧ R.Has (some pos) .jumpFalsy l 0 m n ∧
      blockAt R J (Γ.skip cond.literals) body n k ∧ R.Has (some pos) .jump q 0 k l ∧
      stmtAt R J (body.after (Γ.skip cond.literals)) orElse l q
  | .loop pos init cond post body, p, q => q ≤ Compile.maxCodeSize ∧
    let start := Stmt.afterPart init Γ
    let tested := start.skip (Expr.partLiterals cond)
    ∃ m n k l, partAt R J Γ init p m ∧ testAt R start pos q cond m n ∧
      blockAt R (some (q, k)) tested body n k ∧ partAt R J (body.after tested) post k l ∧
      R.Has (some pos) .jump m 0 l q
  | .breakLoop pos, p, q => ∃ loopEnd lastPart, J = some (loopEnd, lastPart) ∧
    R.Has (some pos) .jump loopEnd 0 p q
  | .continueLoop pos, p, q => ∃ loopEnd lastPart, J = some (loopEnd, lastPart) ∧
    R.Has (some pos) .jump lastPart 0 p q
  | .returnValue pos none, p, q => Γ.functions ≠ [] ∧ R.Has (some pos) .ret 0 0 p q
  | .returnValue pos (some e), p, q => Γ.functions ≠ [] ∧
    ∃ m, exprAt R Γ e p m ∧ R.Has (some pos) .ret 1 0 m q
  | .exportValue pos e, p, q => Γ.functions ≠ [] ∧
    ∃ m, exprAt R Γ e p m ∧ R.Has (some pos) .ret 1 0 m q
  | .block body, p, q => blockAt R J Γ body p q

/-- The code of a part that a loop may lack. -/
def partAt (R : Body) (J : Option (Nat × Nat)) (Γ : Names) : Option Stmt → (p q : Nat) → Prop
  | none, p, q => p = q
  | some s, p, q => stmtAt R J Γ s p q

/-- The condition of a loop, which leads to the loop's end if it fails. -/
def testAt (R : Body) (Γ : Names) (pos : Pos) (loopEnd : Nat) : Option Expr → (p q : Nat) → Prop
  | none, p, q => p = q
  | some e, p, q => ∃ m, exprAt R Γ e p m ∧ R.Has (some pos) .jumpFalsy loopEnd 0 m q

def blockAt (R : Body) (J : Option (Nat × Nat)) (Γ : Names) : Block → (p q : Nat) → Prop
  | .mk _ body, p, q => stmtsAt R J Γ body p q

def stmtsAt (R : Body) (J : Option (Nat × Nat)) (Γ : Names) : List Stmt → (p q : Nat) → Prop
  | [], p, q => p = q
  | s :: rest, p, q => ∃ m, stmtAt R J Γ s p m ∧ stmtsAt R J (s.after Γ) rest m q

end

/-- The code of a module, which returns at its end if its last statement does not. -/
def moduleBodyAt (R : Body) (body : List Stmt) : Prop :=
  ∃ m, L.stmtsAt R none .forModule body 0 m ∧
    if (body.getLast?.map fun s => s.isReturn || s.isExport).getD false then m = R.code.size
    else R.Has none .ret 0 0 m R.code.size

/-- The code of the main program. Its last instruction ends the run. -/
def mainAt (R : Body) (Γ : Names) (body : List Stmt) : Prop :=
  ∃ m, L.stmtsAt R none Γ body 0 m ∧ R.Has none .suspend 0 0 m R.code.size

/-- The text of a module: that of a registered one, or a file's. -/
def IsSource (key : String) (source : ByteArray) : Prop :=
  (∃ text, L.options.registry[key]? = some (.script text) ∧ source = text.toUTF8) ∨
    (L.options.fileImport = true ∧ L.options.files.read key = .ok source)

/-- The function of a module is laid out from the module's text. A module that is a file imports
files from where it lies. -/
def ModuleAt (key : String) (f : Value) : Prop :=
  L.IsSource key (L.source key) ∧
  (L.options.registry[key]? = none → L.directory (some key) = Path.parent key) ∧
  ∃ body R, parse key (L.source key) = .ok body ∧
    f = .function (L.ids (some key) 0) R.routine ∧ L.routines (some key) 0 = some R.routine ∧
    R.unit = some key ∧ R.params = 0 ∧ R.captured = [] ∧ R.Small ∧ L.moduleBodyAt R body

/-- A function or a module is laid out. -/
def Defines (R : Body) : Prop :=
  R.Small ∧ ((∃ Γ pos body, L.bodyAt R Γ pos body) ∨ ∃ body, L.moduleBodyAt R body)

/-- A routine that is laid out as a function's or a module's. -/
def Shaped (r : Routine) : Prop := ∃ R : Body, R.routine = r ∧ L.Defines R

/-- What the compiler puts in the pool: numbers, texts, the attributes of the host's modules, and
functions that are laid out. -/
def Constant : Value → Prop
  | .int _ | .float _ | .char _ | .string _ => True
  | .module name attrs => attrs = L.attrs name
  | .function _ r => L.Shaped r
  | _ => False

end Image

end ScriptEngine
