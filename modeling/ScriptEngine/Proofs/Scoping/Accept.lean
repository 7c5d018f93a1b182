import ScriptEngine.Proofs.Layout.Statements
import ScriptEngine.Proofs.Program.Every
import ScriptEngine.Proofs.Scoping.Verdict
/-!
The compiler accepts the well-scoped statements and expressions. How a module is loaded is a
parameter, of which no more is asked than that the names in force stay.
-/
namespace ScriptEngine.Scoping

open Compile
open Layout (partCode testCode stmt_loop)

variable {excused : CompileCause → Prop} {load : CompileContext → Pos → String → CompileM Code}
  {ctx : CompileContext} {Γ Γ' : Blocks} {pos : Pos} {x : String}

theorem grows_leaves (h : Γ.current ≠ []) : (s : Stmt) → Γ.Grows (s.leaves Γ)
  | .define _ x _ => .define Γ x
  | .branch _ _ _ (some orElse) => grows_leaves h orElse
  | .expr _ | .assign .. | .branch _ _ _ none | .loop .. | .breakLoop _ | .continueLoop _
  | .returnValue .. | .exportValue .. | .block _ => .refl h

theorem grows_partLeaves (h : Γ.current ≠ []) (part : Option Stmt) :
    Γ.Grows (Stmt.partLeaves part Γ) := by
  cases part with
  | none => exact .refl h
  | some s => exact grows_leaves h s

theorem grows_allLeaves (h : Γ.current ≠ []) (body : List Stmt) : Γ.Grows (Stmt.allLeaves body Γ) := by
  induction body generalizing Γ with
  | nil => exact .refl h
  | cons s rest ih =>
    have hs := grows_leaves h s
    exact hs.trans (ih hs.current_ne_nil)

/-- The parameters of a function are the first names in it. -/
theorem foldl_define_function (params : List String) (Γ : Blocks) (names : List String) :
    params.foldl Blocks.define { Γ with functions := [names] :: Γ.functions } =
      { Γ with functions := [params.reverse ++ names] :: Γ.functions } := by
  induction params generalizing names with
  | nil => rfl
  | cons x rest ih =>
    rw [List.foldl_cons, List.reverse_cons, List.append_assoc]
    exact ih (x :: names)

/-- A target is an expression that can be read. -/
theorem scoped_of_target : (place : Expr) → place.TargetScoped Γ → place.Scoped Γ
  | .name _ _, h => h.inView
  | .index _ container _, h => ⟨scoped_of_target container h.1, h.2⟩
  | .field _ container _, h => scoped_of_target container h

/-- A context tells where the blocks are. -/
structure Stands (ctx : CompileContext) (Γ : Blocks) : Prop where
  outside : ctx.inModule = false
  inside : ctx.inFunction = true ↔ Γ.functions ≠ []

theorem Stands.grows (h : Stands ctx Γ) (hgrows : Γ.Grows Γ') : Stands ctx Γ' :=
  ⟨h.outside, h.inside.trans (not_congr hgrows.functions_eq_nil.symm)⟩

theorem Stands.enter (h : Stands ctx Γ) : Stands ctx Γ.enter :=
  ⟨h.outside, h.inside.trans (not_congr Γ.enter_functions_eq_nil.symm)⟩

variable (excused load)

def JudgesExpr (e : Expr) : Prop :=
  ∀ (ctx : CompileContext) (Γ : Blocks), ctx.inModule = false →
    Verdict excused Γ (e.Scoped Γ) (expr load ctx e) Γ

def JudgesExprs (items : List Expr) : Prop :=
  ∀ (ctx : CompileContext) (Γ : Blocks) (code : Code), ctx.inModule = false →
    Verdict excused Γ (Expr.AllScoped items Γ) (exprs load ctx items code) Γ

def JudgesEntries (entries : List (String × Expr)) : Prop :=
  ∀ (ctx : CompileContext) (pos : Pos) (Γ : Blocks) (code : Code), ctx.inModule = false →
    Verdict excused Γ (Expr.EntriesScoped entries Γ) (mapEntries load ctx pos entries code) Γ

def JudgesStore (place : Expr) : Prop :=
  ∀ (ctx : CompileContext) (pos : Pos) (Γ : Blocks) {good : Prop} {value : CompileM Code},
    ctx.inModule = false → Verdict excused Γ good value Γ →
      Verdict excused Γ (place.TargetScoped Γ ∧ good) (store load ctx pos value place) Γ

def JudgesStmt (s : Stmt) : Prop :=
  ∀ (ctx : CompileContext) (Γ : Blocks), Stands ctx Γ →
    Verdict excused Γ (s.Scoped ctx.inLoop Γ) (stmt load ctx s) (s.leaves Γ)

def JudgesStmts (body : List Stmt) : Prop :=
  ∀ (ctx : CompileContext) (Γ : Blocks) (code : Code), Stands ctx Γ →
    Verdict excused Γ (Stmt.AllScoped body ctx.inLoop Γ) (stmts load ctx body code)
      (Stmt.allLeaves body Γ)

def JudgesBlock (body : Block) : Prop :=
  ∀ (ctx : CompileContext) (Γ : Blocks), Stands ctx Γ →
    Verdict excused Γ (body.Scoped ctx.inLoop Γ) (block load ctx body) Γ

variable {excused load} (hsize : ∀ cause, CompileCause.IsSize cause → excused cause)

section Expressions

attribute [local simp] expr Expr.Scoped

variable {l : Literal} {e left right : Expr} {items : List Expr} {entries : List (String × Expr)}

theorem JudgesExpr.name : JudgesExpr excused load (.name pos x) := by
  intro ctx Γ _
  rw [expr, Expr.Scoped]
  exact .after (keeps_note _) fun _ => (Verdict.resolve x).before fun σ => keeps_emitLoad σ

theorem JudgesExpr.imported (hload : ∀ ctx, Keeps excused (load ctx pos x)) :
    JudgesExpr excused load (.load pos x) := by
  intro ctx Γ _
  rw [expr, Expr.Scoped]
  exact .after (keeps_note _) fun _ => (hload _).verdict Γ

theorem JudgesExprs.nil : JudgesExprs excused load [] := by
  intro ctx Γ code _
  rw [exprs, Expr.AllScoped]
  exact .pure _

theorem JudgesExprs.cons (he : JudgesExpr excused load e) (hrest : JudgesExprs excused load items) :
    JudgesExprs excused load (e :: items) := by
  intro ctx Γ code h
  rw [exprs, Expr.AllScoped]
  exact (he ctx Γ h).bind fun _ => hrest ctx Γ _ h

theorem JudgesEntries.nil : JudgesEntries excused load [] := by
  intro ctx pos Γ code _
  rw [mapEntries, Expr.EntriesScoped]
  exact .pure _

include hsize

theorem JudgesExpr.lit : JudgesExpr excused load (.lit pos l) := by
  intro ctx Γ _
  rw [expr, Expr.Scoped]
  exact .after (keeps_note _) fun _ => (keeps_emitLiteral hsize l).verdict Γ

theorem JudgesExpr.array (hitems : JudgesExprs excused load items) :
    JudgesExpr excused load (.array pos items) := by
  intro ctx Γ h
  rw [expr, Expr.Scoped]
  exact .after (keeps_note _) fun _ => .after (keeps_limit hsize ..) fun _ =>
    (hitems ctx.inner Γ _ h).before fun _ => (keeps_emit ..).bind fun _ => .pure _

theorem JudgesEntries.cons (he : JudgesExpr excused load e)
    (hrest : JudgesEntries excused load entries) :
    JudgesEntries excused load ((x, e) :: entries) := by
  intro ctx pos Γ code h
  rw [mapEntries, Expr.EntriesScoped]
  exact .after (keeps_emitConstant hsize _) fun _ => (he ctx Γ h).bind fun _ => hrest ctx pos Γ _ h

theorem JudgesExpr.map (hentries : JudgesEntries excused load entries) :
    JudgesExpr excused load (.map pos entries) := by
  intro ctx Γ h
  rw [expr, Expr.Scoped]
  exact .after (keeps_note _) fun _ => .after (keeps_limit hsize ..) fun _ =>
    (hentries ctx.inner pos Γ _ h).before fun _ => (keeps_emit ..).bind fun _ => .pure _

omit hsize in
theorem JudgesExpr.unary {op : UnaryOp} (he : JudgesExpr excused load e) :
    JudgesExpr excused load (.unary pos op e) := by
  intro ctx Γ h
  rw [expr, Expr.Scoped]
  exact .after (keeps_note _) fun _ =>
    (he ctx.inner Γ h).before fun _ => (keeps_emit ..).bind fun _ => .pure _

theorem JudgesExpr.binary {op : BinaryOp} (hleft : JudgesExpr excused load left)
    (hright : JudgesExpr excused load right) : JudgesExpr excused load (.binary pos op left right) := by
  intro ctx Γ h
  rw [expr, Expr.Scoped]
  refine .after (keeps_note _) fun _ => (hleft ctx.inner Γ h).bind fun first => ?_
  cases op.shortCircuits with
  | true =>
    exact .after (keeps_lay _) fun _ => (hright ctx.inner Γ h).before fun _ =>
      (keeps_target hsize).bind fun _ => .pure _
  | false => exact (hright ctx.inner Γ h).before fun _ => (keeps_emit ..).bind fun _ => .pure _

theorem JudgesExpr.call (he : JudgesExpr excused load e) (hitems : JudgesExprs excused load items) :
    JudgesExpr excused load (.call pos e items) := by
  intro ctx Γ h
  rw [expr, Expr.Scoped]
  exact .after (keeps_note _) fun _ => .after (keeps_limit hsize ..) fun _ =>
    (he ctx.inner Γ h).bind fun _ => (hitems ctx.inner Γ _ h).before fun _ =>
      (keeps_emit ..).bind fun _ => .pure _

omit hsize in
theorem JudgesExpr.index (hleft : JudgesExpr excused load left)
    (hright : JudgesExpr excused load right) : JudgesExpr excused load (.index pos left right) := by
  intro ctx Γ h
  rw [expr, Expr.Scoped]
  exact .after (keeps_note _) fun _ => (hleft ctx.inner Γ h).bind fun _ =>
    (hright ctx.inner Γ h).before fun _ => (keeps_emit ..).bind fun _ => .pure _

theorem JudgesExpr.field (he : JudgesExpr excused load e) :
    JudgesExpr excused load (.field pos e x) := by
  intro ctx Γ h
  rw [expr, Expr.Scoped]
  exact .after (keeps_note _) fun _ => (he ctx.inner Γ h).before fun _ =>
    (keeps_emitConstant hsize _).bind fun _ => (keeps_emit ..).bind fun _ => .pure _

/-- The body of a function shares its block with the parameters, and is a text of its own for breaks
and returns. -/
theorem JudgesExpr.func {params : List String} {start : Pos} {body : List Stmt}
    (hparams : params.Nodup) (hbody : JudgesStmts excused load body) :
    JudgesExpr excused load (.func pos params (.mk start body)) := by
  intro ctx Γ h
  rw [expr, Expr.Scoped, Block.BodyScoped]
  have hstands : Stands ctx.inner.function (Γ.function params) :=
    ⟨h, by simp [CompileContext.function, Blocks.function]⟩
  have hcode : Verdict excused (Γ.function params) (Stmt.AllScoped body false (Γ.function params))
      (funcBody load ctx.inner.function pos (.mk start body))
      (Stmt.allLeaves body (Γ.function params)) := by
    rw [funcBody]
    exact (hbody ctx.inner.function _ _ hstands).before fun _ =>
      .ite (.pure _) ((keeps_emit ..).bind fun _ => .pure _)
  have hopen : Verdict excused Γ True (withSymbols fun t => ((), t.enterFunction)) (Γ.function []) :=
    .withSymbols fun t hfits => hfits.enterFunction
  have hclose : Verdict excused (Stmt.allLeaves body (Γ.function params)) True
      (withSymbols (·.leaveFunction)) Γ := .withSymbols fun t hfits => by
    obtain ⟨names, hgrows⟩ := grows_allLeaves (Γ := Γ.function params)
      (by simp [Blocks.function, Blocks.current]) body
    rw [hgrows] at hfits
    exact hfits.leaveFunction
  have hnames : Verdict excused (Γ.function []) True (defineParams ctx.inner pos params)
      (Γ.function params) := by
    have hfold := foldl_define_function params Γ []
    rw [List.append_nil] at hfold
    exact (congrArg (Verdict excused (Γ.function []) True _) hfold).mp
      (.defineParams hsize params (Γ.function []))
  refine .iff (.after (keeps_note _) fun _ => .after (keeps_limit hsize ..) fun _ =>
    .after keeps_here fun outside => hopen.bind fun _ =>
      .after (.modify fun _ => rfl) fun _ => hnames.bind fun _ =>
        hcode.bind fun code => hclose.before fun _ =>
          .bind (m := modify fun s => { s with here := outside }) (.modify fun _ => rfl)
            fun _ => keeps_emitFunction hsize ..) ?_
  simp [hparams]

end Expressions

section Statements

attribute [local simp] store Expr.TargetScoped Stmt.Scoped

variable {e place container second : Expr} {s : Stmt} {body : Block}

theorem JudgesStore.name : JudgesStore excused load (.name pos x) := by
  intro ctx place Γ good value _ hvalue
  rw [store, Expr.TargetScoped]
  exact (Verdict.assignable x).bind fun σ => hvalue.before fun _ =>
    (keeps_emitStore σ).bind fun _ => .pure _

theorem JudgesStore.index (hcontainer : JudgesExpr excused load container)
    (hindex : JudgesExpr excused load second) (hplace : JudgesStore excused load container) :
    JudgesStore excused load (.index pos container second) := by
  intro ctx place Γ good value h hvalue
  rw [store, Expr.TargetScoped]
  have hemit : Keeps excused (emit place .setIndex 0 0) := keeps_emit ..
  have hreplaced := (hcontainer ctx Γ h).bind fun code => (hindex ctx Γ h).bind fun second =>
    hvalue.before fun third => hemit.bind fun replace => .pure (code ++ second ++ third ++ replace)
  refine (hplace ctx place Γ h hreplaced).iff ⟨fun hgood => ?_, fun hgood => ?_⟩
  · exact ⟨⟨hgood.1, hgood.2.2.1⟩, hgood.2.2.2⟩
  · exact ⟨hgood.1.1, scoped_of_target container hgood.1.1, hgood.1.2, hgood.2⟩

include hsize in
theorem JudgesStore.field (hcontainer : JudgesExpr excused load container)
    (hplace : JudgesStore excused load container) :
    JudgesStore excused load (.field pos container x) := by
  intro ctx place Γ good value h hvalue
  rw [store, Expr.TargetScoped]
  have hkey : Keeps excused (emitConstant ctx pos (.string x)) := keeps_emitConstant hsize _
  have hemit : Keeps excused (emit place .setIndex 0 0) := keeps_emit ..
  have hreplaced := (hcontainer ctx Γ h).bind fun code => .after hkey fun key =>
    hvalue.before fun third => hemit.bind fun replace => .pure (code ++ key ++ third ++ replace)
  refine (hplace ctx place Γ h hreplaced).iff ⟨fun hgood => ?_, fun hgood => ?_⟩
  · exact ⟨hgood.1, hgood.2.2⟩
  · exact ⟨hgood.1, scoped_of_target container hgood.1, hgood.2⟩

theorem JudgesStore.other (h : place.isTarget = false) : JudgesStore excused load place := by
  intro ctx pos Γ good value _ _
  cases place with
  | name | index | field => cases h
  | lit | array | map | unary | binary | call | func | load =>
    simp only [store, Expr.TargetScoped, false_and]
    exact .fail _

theorem JudgesStmt.expr (he : JudgesExpr excused load e) : JudgesStmt excused load (.expr e) := by
  intro ctx Γ h
  rw [Stmt.Scoped]
  exact .after (keeps_note _) fun _ => (he ctx.inner Γ h.outside).before fun _ =>
    (keeps_emit ..).bind fun _ => .pure _

include hsize

/-- A function literal sees its own name; any other value is compiled before the name is defined. -/
theorem JudgesStmt.define (he : JudgesExpr excused load e) :
    JudgesStmt excused load (.define pos x e) := by
  intro ctx Γ h
  rw [Stmt.Scoped]
  refine .after (keeps_note _) fun _ => Verdict.fresh ?_
  change Verdict _ _ _ _ (Γ.define x)
  by_cases hfunc : e.isFunc = true
  · rw [if_pos hfunc, if_pos hfunc]
    refine .iff ((Verdict.define hsize x).bind fun σ => ?_) (iff_of_eq (true_and _))
    have hrest (empty : Code) : Verdict excused (Γ.define x) (e.Scoped (Γ.define x)) (do
        let code ← Compile.expr load ctx.inner e
        let fill ← emitStore pos σ
        pure (empty ++ code ++ fill)) (Γ.define x) :=
      (he ctx.inner _ h.outside).before fun code => (keeps_emitStore σ).bind fun _ => .pure _
    dsimp only
    cases σ.storage with
    | frame =>
      exact .after (keeps_emit ..) fun push => .after (keeps_emitStore σ) fun fill =>
        .after (.pure (push ++ fill)) hrest
    | global | builtin | free => exact .after (.pure #[]) hrest
  · rw [if_neg hfunc, if_neg hfunc]
    exact .iff ((he ctx.inner Γ h.outside).bind fun code => (Verdict.define hsize x).before
      fun σ => (keeps_emitStore σ).bind fun _ => .pure _) (iff_of_eq (and_true _))

omit hsize in
theorem JudgesStmt.assign (he : JudgesExpr excused load e) (hplace : JudgesStore excused load place) :
    JudgesStmt excused load (.assign pos none place e) := by
  intro ctx Γ h
  rw [Stmt.Scoped]
  exact .after (keeps_note _) fun _ => hplace ctx.inner pos Γ h.outside (he ctx.inner Γ h.outside)

omit hsize in
theorem JudgesStmt.update {op : ArithOp} (hread : JudgesExpr excused load place)
    (he : JudgesExpr excused load e) (hplace : JudgesStore excused load place) :
    JudgesStmt excused load (.assign pos (some op) place e) := by
  intro ctx Γ h
  rw [Stmt.Scoped]
  refine .after (keeps_note _) fun _ => .iff (hplace ctx.inner pos Γ h.outside <|
    (hread ctx.inner Γ h.outside).bind fun _ => (he ctx.inner Γ h.outside).before fun _ =>
      (keeps_emit ..).bind fun _ => .pure _) ⟨fun hgood => ⟨hgood.1, hgood.2.2⟩, fun hgood => ?_⟩
  exact ⟨hgood.1, scoped_of_target place hgood.1, hgood.2⟩

theorem JudgesStmt.branch (he : JudgesExpr excused load e) (hbody : JudgesBlock excused load body) :
    JudgesStmt excused load (.branch pos e body none) := by
  intro ctx Γ h
  rw [Stmt.Scoped]
  exact .after (keeps_note _) fun _ => (he ctx.inner Γ h.outside).bind fun _ =>
    .after (keeps_lay _) fun _ => (hbody ctx.inner Γ ⟨h.outside, h.inside⟩).before fun _ =>
      (keeps_target hsize).bind fun _ => .pure _

theorem JudgesStmt.branchElse (he : JudgesExpr excused load e)
    (hbody : JudgesBlock excused load body) (hs : JudgesStmt excused load s) :
    JudgesStmt excused load (.branch pos e body (some s)) := by
  intro ctx Γ h
  rw [Stmt.Scoped]
  exact .after (keeps_note _) fun _ => (he ctx.inner Γ h.outside).bind fun _ =>
    .after (keeps_lay _) fun _ => (hbody ctx.inner Γ ⟨h.outside, h.inside⟩).bind fun _ =>
      .after (keeps_lay _) fun _ => .after (keeps_target hsize) fun _ =>
        (hs ctx.inner Γ ⟨h.outside, h.inside⟩).before fun _ => (keeps_target hsize).bind fun _ =>
          .pure _

omit hsize in
theorem part_verdict {part : Option Stmt} (hpart : ∀ s, part = some s → JudgesStmt excused load s)
    (h : Stands ctx Γ) : Verdict excused Γ (Stmt.PartScoped part ctx.inLoop Γ)
      (partCode load ctx part) (Stmt.partLeaves part Γ) := by
  cases part with
  | none =>
    rw [Stmt.PartScoped]
    exact .pure _
  | some s =>
    rw [Stmt.PartScoped]
    exact hpart s rfl ctx Γ h

omit hsize in
theorem test_verdict {cond : Option Expr} (hcond : ∀ e, cond = some e → JudgesExpr excused load e)
    (h : Stands ctx Γ) : Verdict excused Γ (Expr.PartScoped cond Γ) (testCode load ctx cond) Γ := by
  cases cond with
  | none =>
    rw [Expr.PartScoped]
    exact .pure _
  | some e =>
    rw [Expr.PartScoped]
    exact (hcond e rfl ctx Γ h.outside).before fun _ => (keeps_lay _).bind fun _ => .pure _

/-- The parts of a loop are in a block of their own, around that of its body. -/
theorem JudgesStmt.loop {init post : Option Stmt} {cond : Option Expr}
    (hinit : ∀ s, init = some s → JudgesStmt excused load s)
    (hcond : ∀ e, cond = some e → JudgesExpr excused load e)
    (hpost : ∀ s, post = some s → JudgesStmt excused load s)
    (hbody : JudgesBlock excused load body) :
    JudgesStmt excused load (.loop pos init cond post body) := by
  intro ctx Γ h
  rw [stmt_loop, Stmt.Scoped]
  refine .of_current fun hne => ?_
  have hgrows := grows_partLeaves (Γ := Γ.enter) (by simp [Blocks.enter]) init
  have hstands : Stands ctx.inner Γ.enter := ⟨h.enter.outside, h.enter.inside⟩
  have hstands' : Stands ctx.inner (Stmt.partLeaves init Γ.enter) := hstands.grows hgrows
  have hlooping : Stands ctx.inner.looping (Stmt.partLeaves init Γ.enter) :=
    ⟨hstands'.outside, hstands'.inside⟩
  have hgrows' := hgrows.trans (grows_partLeaves hgrows.current_ne_nil post)
  refine .after (keeps_note _) fun _ => .iff (.bind .enterBlock fun _ =>
    (part_verdict hinit hstands).bind fun _ => .after keeps_here fun _ =>
      (test_verdict hcond hstands').bind fun _ =>
        (hbody ctx.inner.looping _ hlooping).bind fun _ => .after keeps_here fun _ =>
          (part_verdict hpost hstands').bind fun _ => .after (keeps_emit ..) fun _ =>
            .after (keeps_target hsize) fun _ => (Verdict.leaveBlock hgrows' hne).before
              fun _ => .pure _) ?_
  rw [true_and, and_true]
  rfl

omit hsize

theorem JudgesStmt.breakLoop : JudgesStmt excused load (.breakLoop pos) := by
  intro ctx Γ _
  rw [Stmt.Scoped]
  exact .after (keeps_note _) fun _ => .iff (Verdict.guard <|
    ((keeps_lay _).bind fun _ => .pure _).verdict Γ) (iff_of_eq (and_true _))

theorem JudgesStmt.continueLoop : JudgesStmt excused load (.continueLoop pos) := by
  intro ctx Γ _
  rw [Stmt.Scoped]
  exact .after (keeps_note _) fun _ => .iff (Verdict.guard <|
    ((keeps_lay _).bind fun _ => .pure _).verdict Γ) (iff_of_eq (and_true _))

theorem Stands.returns (h : Stands ctx Γ) :
    (ctx.inner.inFunction || ctx.inner.inModule) = true ↔ Γ.functions ≠ [] := by
  rw [← h.inside]
  change (ctx.inFunction || ctx.inModule) = true ↔ _
  rw [h.outside, Bool.or_false]

theorem JudgesStmt.returnNone : JudgesStmt excused load (.returnValue pos none) := by
  intro ctx Γ h
  rw [Stmt.Scoped, Expr.PartScoped, ← h.returns]
  exact .after (keeps_note _) fun _ => .guard ((keeps_emit ..).verdict Γ)

theorem JudgesStmt.returnSome (he : JudgesExpr excused load e) :
    JudgesStmt excused load (.returnValue pos (some e)) := by
  intro ctx Γ h
  rw [Stmt.Scoped, Expr.PartScoped, ← h.returns]
  exact .after (keeps_note _) fun _ => .guard <|
    (he ctx.inner Γ h.outside).before fun _ => (keeps_emit ..).bind fun _ => .pure _

/-- Only modules export values. -/
theorem JudgesStmt.exportValue : JudgesStmt excused load (.exportValue pos e) := by
  intro ctx Γ h
  rw [Stmt.Scoped]
  refine .after (keeps_note _) fun _ => ?_
  change Verdict _ _ _ (ite ((ctx.inModule && !ctx.inFunction) = true) _ _) Γ
  rw [h.outside, Bool.false_and, if_neg Bool.false_ne_true]
  exact .fail _

theorem JudgesStmt.block (hbody : JudgesBlock excused load body) :
    JudgesStmt excused load (.block body) := by
  intro ctx Γ h
  rw [Stmt.Scoped]
  exact .after (keeps_note _) fun _ => hbody ctx.inner Γ ⟨h.outside, h.inside⟩

theorem JudgesStmts.nil : JudgesStmts excused load [] := by
  intro ctx Γ code _
  rw [stmts, Stmt.AllScoped]
  exact .pure _

theorem JudgesStmts.cons {rest : List Stmt} (hs : JudgesStmt excused load s)
    (hrest : JudgesStmts excused load rest) : JudgesStmts excused load (s :: rest) := by
  intro ctx Γ code h
  rw [stmts, Stmt.AllScoped]
  exact .of_current fun hne => (hs ctx Γ h).bind fun _ => hrest ctx _ _ (h.grows (grows_leaves hne s))

theorem JudgesBlock.mk {body : List Stmt} (hbody : JudgesStmts excused load body) :
    JudgesBlock excused load (.mk pos body) := by
  intro ctx Γ h
  rw [Compile.block, Block.Scoped]
  refine .of_current fun hne => ?_
  have hgrows := grows_allLeaves (Γ := Γ.enter) (by simp [Blocks.enter]) body
  exact .iff (.bind .enterBlock fun _ => (hbody ctx Γ.enter #[] h.enter).bind fun _ =>
    (Verdict.leaveBlock hgrows hne).before fun _ => .pure _) (by simp)

end Statements

/-- What the verdict on a program takes as given: failures by size are excused, modules are loaded
without harm and no function has a parameter twice. -/
structure Judged (excused : CompileCause → Prop)
    (load : CompileContext → Pos → String → CompileM Code) (P : Expr → Prop) : Prop where
  size : ∀ cause, CompileCause.IsSize cause → excused cause
  load : ∀ ctx pos name, P (.load pos name) → Keeps excused (load ctx pos name)
  func : ∀ pos params body, P (.func pos params body) → params.Nodup

variable {P : Expr → Prop} {Q : Stmt → Prop}

mutual

theorem judgesExpr (hJ : Judged excused load P) : (e : Expr) → e.Every P Q →
    JudgesExpr excused load e
  | .lit .., _ => .lit hJ.size
  | .name .., _ => .name
  | .array _ items, h => .array hJ.size (judgesExprs hJ items h.2)
  | .map _ entries, h => .map hJ.size (judgesEntries hJ entries h.2)
  | .unary _ _ e, h => .unary (judgesExpr hJ e h.2)
  | .binary _ _ left right, h =>
    .binary hJ.size (judgesExpr hJ left h.2.1) (judgesExpr hJ right h.2.2)
  | .call _ callee args, h => .call hJ.size (judgesExpr hJ callee h.2.1) (judgesExprs hJ args h.2.2)
  | .index _ container index, h =>
    .index (judgesExpr hJ container h.2.1) (judgesExpr hJ index h.2.2)
  | .field _ container _, h => .field hJ.size (judgesExpr hJ container h.2)
  | .func _ _ (.mk _ body), h => .func hJ.size (hJ.func _ _ _ h.1) (judgesStmts hJ body h.2)
  | .load .., h => .imported fun ctx => hJ.load ctx _ _ h

theorem judgesExprs (hJ : Judged excused load P) : (items : List Expr) → Expr.AllEvery P Q items →
    JudgesExprs excused load items
  | [], _ => .nil
  | e :: rest, h => .cons (judgesExpr hJ e h.1) (judgesExprs hJ rest h.2)

theorem judgesEntries (hJ : Judged excused load P) : (entries : List (String × Expr)) →
    Expr.EntriesEvery P Q entries → JudgesEntries excused load entries
  | [], _ => .nil
  | (_, e) :: rest, h => .cons hJ.size (judgesExpr hJ e h.1) (judgesEntries hJ rest h.2)

theorem judgesStore (hJ : Judged excused load P) : (place : Expr) → place.Every P Q →
    JudgesStore excused load place
  | .name .., _ => .name
  | .index _ container index, h =>
    .index (judgesExpr hJ container h.2.1) (judgesExpr hJ index h.2.2)
      (judgesStore hJ container h.2.1)
  | .field _ container _, h =>
    .field hJ.size (judgesExpr hJ container h.2) (judgesStore hJ container h.2)
  | .lit .., _ | .array .., _ | .map .., _ | .unary .., _ | .binary .., _ | .call .., _
  | .func .., _ | .load .., _ => .other rfl

theorem judgesStmt (hJ : Judged excused load P) : (s : Stmt) → s.Every P Q →
    JudgesStmt excused load s
  | .expr e, h => .expr (judgesExpr hJ e h.2)
  | .define _ _ e, h => .define hJ.size (judgesExpr hJ e h.2)
  | .assign _ none place e, h => .assign (judgesExpr hJ e h.2.2) (judgesStore hJ place h.2.1)
  | .assign _ (some _) place e, h =>
    .update (judgesExpr hJ place h.2.1) (judgesExpr hJ e h.2.2) (judgesStore hJ place h.2.1)
  | .branch _ cond body none, h =>
    .branch hJ.size (judgesExpr hJ cond h.2.1) (judgesBlock hJ body h.2.2.1)
  | .branch _ cond body (some orElse), h =>
    .branchElse hJ.size (judgesExpr hJ cond h.2.1) (judgesBlock hJ body h.2.2.1)
      (judgesStmt hJ orElse h.2.2.2)
  | .loop _ init cond post body, h =>
    .loop hJ.size (judgesPart hJ init h.2.1) (judgesTest hJ cond h.2.2.1)
      (judgesPart hJ post h.2.2.2.1) (judgesBlock hJ body h.2.2.2.2)
  | .breakLoop _, _ => .breakLoop
  | .continueLoop _, _ => .continueLoop
  | .returnValue _ none, _ => .returnNone
  | .returnValue _ (some e), h => .returnSome (judgesExpr hJ e h.2)
  | .exportValue .., _ => .exportValue
  | .block body, h => .block (judgesBlock hJ body h.2)

theorem judgesPart (hJ : Judged excused load P) : (part : Option Stmt) → Stmt.PartEvery P Q part →
    ∀ s, part = some s → JudgesStmt excused load s
  | none, _ => fun _ h => nomatch h
  | some s, hs => fun _ h => Option.some.inj h ▸ judgesStmt hJ s hs

theorem judgesTest (hJ : Judged excused load P) : (cond : Option Expr) → Expr.PartEvery P Q cond →
    ∀ e, cond = some e → JudgesExpr excused load e
  | none, _ => fun _ h => nomatch h
  | some e, he => fun _ h => Option.some.inj h ▸ judgesExpr hJ e he

theorem judgesBlock (hJ : Judged excused load P) : (body : Block) → body.Every P Q →
    JudgesBlock excused load body
  | .mk _ stmts, h => .mk (judgesStmts hJ stmts h)

theorem judgesStmts (hJ : Judged excused load P) : (body : List Stmt) → Stmt.AllEvery P Q body →
    JudgesStmts excused load body
  | [], _ => .nil
  | s :: rest, h => .cons (judgesStmt hJ s h.1) (judgesStmts hJ rest h.2)

end

end ScriptEngine.Scoping
