import Mathlib
import ScriptEngine.Compile.Program
import ScriptEngine.Proofs.Program.Parsed
import ScriptEngine.Proofs.Scoping.Accept
/-!
Whole programs: the compiler accepts a program without imports if and only if it is well scoped, as
long as it is not too large.
-/
namespace ScriptEngine

/-- The expression is not itself an import. -/
def Expr.NoImport : Expr → Prop
  | .load .. => False
  | _ => True

/-- The names that a host puts in force: builtins with their numbers, and variables in the order of
their slots. -/
def SymbolTable.host (builtins : List (String × Nat)) (vars : List String) : SymbolTable :=
  vars.foldl (fun t x => (t.define x).2)
    (builtins.foldl (fun t b => t.defineBuiltin b.1 b.2) .empty)

/-- The host's variables belong to the outermost block of the main program. -/
def Blocks.host (builtins : List (String × Nat)) (vars : List String) : Blocks :=
  ⟨[], [vars.reverse], builtins.map (·.1)⟩

namespace Scoping

open Compile

variable {excused : CompileCause → Prop} {Γ : Blocks} {t : SymbolTable} {o : CompileOptions}
  {file : String} {body : List Stmt}

theorem Fits.defineBuiltin (h : Fits Γ t) (x : String) (i : Nat) :
    Fits { Γ with builtins := Γ.builtins ++ [x] } (t.defineBuiltin x i) := by
  refine ⟨h.functions, h.outside, fun y => ?_⟩
  rw [SymbolTable.defineBuiltin, Std.TreeMap.getElem?_insert, List.mem_append, List.mem_singleton,
    h.builtins y]
  by_cases hy : x = y
  · simp [hy]
  · have hne : ¬ compare x y = .eq := fun he => hy (Std.LawfulEqCmp.eq_of_compare he)
    simp [hne, Ne.symm hy]

theorem Fits.defineBuiltins (h : Fits Γ t) (builtins : List (String × Nat)) :
    Fits { Γ with builtins := Γ.builtins ++ builtins.map (·.1) }
      (builtins.foldl (fun t b => t.defineBuiltin b.1 b.2) t) := by
  induction builtins generalizing Γ t with
  | nil => simpa using h
  | cons b rest ih => simpa using ih (h.defineBuiltin b.1 b.2)

theorem Fits.defineAll (h : Fits Γ t) (vars : List String) :
    Fits (vars.foldl Blocks.define Γ) (vars.foldl (fun t x => (t.define x).2) t) := by
  induction vars generalizing Γ t with
  | nil => exact h
  | cons x rest ih => exact ih (h.define x)

theorem foldl_define_outside (vars names builtins : List String) :
    vars.foldl Blocks.define ⟨[], [names], builtins⟩ = ⟨[], [vars.reverse ++ names], builtins⟩ := by
  induction vars generalizing names with
  | nil => rfl
  | cons x rest ih =>
    rw [List.foldl_cons, List.reverse_cons, List.append_assoc]
    exact ih (x :: names)

theorem fits_host (builtins : List (String × Nat)) (vars : List String) :
    Fits (Blocks.host builtins vars) (SymbolTable.host builtins vars) := by
  have hempty : Fits ⟨[], [[]], []⟩ .empty :=
    ⟨trivial, .cons blockFits_empty .nil, by simp [SymbolTable.empty]⟩
  have hall := (hempty.defineBuiltins builtins).defineAll vars
  rw [foldl_define_outside, List.append_nil] at hall
  exact hall

theorem keeps_get : Keeps excused (get : CompileM CompileState) := ⟨fun _ => rfl⟩

/-- The verdict on a main routine is that on its statements. -/
theorem mainRoutine_of_stmts (hbody : JudgesStmts excused (importModule o.toImportOptions o.maxDepth) body)
    (hΓ : Γ.functions = []) :
    Verdict excused Γ (Stmt.AllScoped body false Γ) (mainRoutine o file body)
      (Stmt.allLeaves body Γ) := by
  have hstmts (ctx : CompileContext) (hctx : Stands ctx Γ) (hloop : ctx.inLoop = false) :=
    hloop ▸ hbody ctx Γ #[] hctx
  refine .after (keeps_note _) fun _ => .before (hstmts _ ⟨rfl, ?_⟩ rfl) fun code => ?_
  · exact iff_of_false Bool.false_ne_true (not_not_intro hΓ)
  exact (keeps_lay _).bind fun _ => keeps_get.bind fun _ => .pure _

/-- The verdict on a whole program. -/
theorem mainRoutine_verdict {P : Expr → Prop} {Q : Stmt → Prop}
    (hsize : ∀ cause, CompileCause.IsSize cause → excused cause)
    (hload : ∀ ctx pos name, P (.load pos name) →
      Keeps excused (importModule o.toImportOptions o.maxDepth ctx pos name))
    (hfunc : ∀ pos params body, P (.func pos params body) → params.Nodup)
    (hbody : Stmt.AllEvery P Q body) (hΓ : Γ.functions = []) :
    Verdict excused Γ (Stmt.AllScoped body false Γ) (mainRoutine o file body)
      (Stmt.allLeaves body Γ) :=
  mainRoutine_of_stmts (judgesStmts ⟨hsize, hload, hfunc⟩ body hbody) hΓ

/-- What the verdict on a program says of its compilation. -/
theorem compile_of_verdict {good : Prop} {Γ' : Blocks}
    (h : Verdict excused Γ good (mainRoutine o file body) Γ') (hfits : Fits Γ o.symbols) :
    match (compile o file body).1 with
    | .ok c => good ∧ Fits Γ' c.symbols
    | .error e => good → excused e.cause := by
  have hrun := h.run ⟨o.symbols, o.pool, 0, [], #[], o.maker, 0⟩ hfits
  unfold compile
  dsimp only
  cases hmain : (mainRoutine o file body).run ⟨o.symbols, o.pool, 0, [], #[], o.maker, 0⟩ with
  | ok main s =>
    rw [hmain] at hrun
    exact hrun
  | error e s =>
    rw [hmain] at hrun
    exact hrun

end Scoping

open Scoping

variable {source : ByteArray} {file unit : String} {body : List Stmt} {o : CompileOptions}
  {builtins : List (String × Nat)} {vars : List String}

/-- A program without imports that is not too large compiles if and only if every name is in view
where it is used, no block defines a name twice, assignments are to elements of variables of the
function or of global ones, and nothing stands where it may not. -/
theorem compiles_iff_scoped (hparse : parse file source = .ok body)
    (himports : Stmt.AllEvery Expr.NoImport (fun _ => True) body)
    (hsymbols : o.symbols = .host builtins vars)
    (hsize : ∀ e, (compile o unit body).1 = .error e → ¬ e.cause.IsSize) :
    (∃ c, (compile o unit body).1 = .ok c) ↔ Stmt.AllScoped body false (.host builtins vars) := by
  have hbody : Stmt.AllEvery (fun e => e.NoImport ∧ e.Distinct) (fun _ => True) body :=
    .both (fun _ h h' => ⟨h, h'⟩) (fun _ _ _ => trivial) body himports (parse_parsed hparse)
  have hmain : Verdict CompileCause.IsSize (.host builtins vars)
      (Stmt.AllScoped body false (.host builtins vars)) (Compile.mainRoutine o unit body)
      (Stmt.allLeaves body (.host builtins vars)) :=
    mainRoutine_verdict (fun _ h => h) (fun _ _ _ h => h.1.elim) (fun _ _ _ h => h.2) hbody rfl
  have hverdict := compile_of_verdict hmain (hsymbols ▸ fits_host builtins vars)
  cases hcompile : (compile o unit body).1 with
  | ok c =>
    rw [hcompile] at hverdict
    exact iff_of_true ⟨c, rfl⟩ hverdict.1
  | error e =>
    rw [hcompile] at hverdict
    exact iff_of_false (fun ⟨c, hc⟩ => nomatch hc) fun hgood => hsize e hcompile (hverdict hgood)

/-- Options of a host with one builtin and one variable. -/
def plainOptions : CompileOptions :=
  { registry := ∅, files := .empty, fileImport := false, extension := ".glint", importDir := "."
    symbols := .host [("len", 0)] ["n"], pool := #[], traced := false, maker := 0 }

/-- `f := func(a) { n = a; return f }` -/
def namingBody : List Stmt :=
  [.define ⟨0, 1, 1⟩ "f" (.func ⟨5, 1, 6⟩ ["a"] (.mk ⟨13, 1, 14⟩
    [.assign ⟨15, 1, 16⟩ none (.name ⟨15, 1, 16⟩ "n") (.name ⟨19, 1, 20⟩ "a"),
      .returnValue ⟨22, 1, 23⟩ (some (.name ⟨29, 1, 30⟩ "f"))]))]

/-- `func(a) { func() { a = n } }` -/
def capturingBody : List Stmt :=
  [.expr (.func ⟨0, 1, 1⟩ ["a"] (.mk ⟨8, 1, 9⟩ [.expr (.func ⟨10, 1, 11⟩ [] (.mk ⟨17, 1, 18⟩
    [.assign ⟨19, 1, 20⟩ none (.name ⟨19, 1, 20⟩ "a") (.name ⟨23, 1, 24⟩ "n")]))]))]

def CompileCause.isCapturedAssignment : CompileCause → Bool
  | assignCaptured _ => true
  | _ => false

theorem CompileCause.not_isSize_of_isCapturedAssignment {c : CompileCause}
    (h : c.isCapturedAssignment = true) : ¬ c.IsSize := by
  cases c <;> first | exact id | cases h

/-- A function that names itself and assigns to a variable of the host is accepted; one that assigns
to a variable of the function around it is not. -/
theorem compiles_iff_scoped_assigning :
    (parse "m" "f := func(a) { n = a; return f }".toUTF8 = .ok namingBody ∧
      Stmt.AllScoped namingBody false (.host [("len", 0)] ["n"])) ∧
    parse "m" "func(a) { func() { a = n } }".toUTF8 = .ok capturingBody ∧
      ¬ Stmt.AllScoped capturingBody false (.host [("len", 0)] ["n"]) := by
  have hnaming : parse "m" "f := func(a) { n = a; return f }".toUTF8 = .ok namingBody := by cbv
  have hcapturing : parse "m" "func(a) { func() { a = n } }".toUTF8 = .ok capturingBody := by cbv
  refine ⟨⟨hnaming, ?_⟩, hcapturing, ?_⟩
  · have hok : ((compile plainOptions "m" namingBody).1.toOption.any fun _ => true) = true := by
      decide +kernel
    obtain ⟨c, hcompile, -⟩ := Compile.eq_ok_of_any hok
    refine (compiles_iff_scoped hnaming ?_ rfl ?_).mp ⟨c, hcompile⟩
    · exact ⟨⟨trivial, ⟨trivial, ⟨trivial, trivial, trivial⟩, ⟨trivial, trivial⟩, trivial⟩⟩, trivial⟩
    · exact fun e he => by simp [hcompile] at he
  · have hfails : Compile.failsBy CompileCause.isCapturedAssignment
        (compile plainOptions "m" capturingBody).1 = true := by decide +kernel
    obtain ⟨e, hcompile, hcause⟩ := Compile.eq_error_of_failsBy hfails
    have hsize (e' : CompileError) (he' : (compile plainOptions "m" capturingBody).1 = .error e') :
        ¬ e'.cause.IsSize := by
      obtain rfl : e = e' := Except.error.inj (hcompile.symm.trans he')
      exact CompileCause.not_isSize_of_isCapturedAssignment hcause
    intro hscoped
    obtain ⟨c, hc⟩ := (compiles_iff_scoped (o := plainOptions) hcapturing
      ⟨⟨trivial, ⟨trivial, ⟨⟨trivial, ⟨trivial, ⟨trivial, trivial, trivial⟩, trivial⟩⟩, trivial⟩⟩⟩,
        trivial⟩ rfl hsize).mpr hscoped
    rw [hcompile] at hc
    cases hc

end ScriptEngine
