import ScriptEngine.Proofs.Imports.Follow
import ScriptEngine.Proofs.Layout.Statements
/-!
Every expression and every statement follows its imports. How a module is loaded is a parameter, of
which it is asked that it follows the import of the module.
-/
namespace ScriptEngine.Imports

open Compile
open Layout (partCode testCode stmt_loop)

/-- What holds of a part's context holds of the contexts of the parts in it. -/
structure Passed (P : CompileContext → Prop) : Prop where
  inner : ∀ {ctx}, P ctx → P ctx.inner
  function : ∀ {ctx}, P ctx → P ctx.function
  looping : ∀ {ctx}, P ctx → P ctx.looping

variable {o : ImportOptions} {traced : Bool} {T : Trail traced} {deep : Prop} {chain : List String}
  {load : CompileContext → Pos → String → CompileM Code}

/-- To load a module in such a context follows the import of the module. -/
structure Loads (T : Trail traced) (deep : Prop) (P : CompileContext → Prop)
    (load : CompileContext → Pos → String → CompileM Code) : Prop extends Passed P where
  along : ∀ ctx pos x, P ctx → Along T deep [x] (load ctx pos x)

variable {P : CompileContext → Prop}

mutual

theorem alongExpr (hP : Loads T deep P load) : (e : Expr) → (ctx : CompileContext) → P ctx →
    Along T deep e.imports (expr load ctx e)
  | .lit _ l, ctx, _ => by
    rw [expr, Expr.imports]
    exact (Along.noteExpr _).bind fun _ => .emitLiteral l
  | .name _ x, ctx, _ => by
    rw [expr, Expr.imports]
    exact (Along.noteExpr _).bind fun _ => (Along.resolve x).bind fun σ => .emitLoad σ
  | .array _ items, ctx, h => by
    rw [expr, Expr.imports]
    exact (Along.noteExpr _).bind fun _ => (Along.limit ..).bind fun _ =>
      (alongExprs hP items ctx.inner #[] (hP.inner h)).before fun _ =>
        (Along.emit ..).bind fun _ => .pure _
  | .map pos entries, ctx, h => by
    rw [expr, Expr.imports]
    exact (Along.noteExpr _).bind fun _ => (Along.limit ..).bind fun _ =>
      (alongEntries hP entries ctx.inner pos #[] (hP.inner h)).before fun _ =>
        (Along.emit ..).bind fun _ => .pure _
  | .unary _ _ e, ctx, h => by
    rw [expr, Expr.imports]
    exact (Along.noteExpr _).bind fun _ => (alongExpr hP e ctx.inner (hP.inner h)).before fun _ =>
      (Along.emit ..).bind fun _ => .pure _
  | .binary _ op left right, ctx, h => by
    rw [expr, Expr.imports]
    refine (Along.noteExpr _).bind fun _ =>
      (alongExpr hP left ctx.inner (hP.inner h)).bind fun _ => ?_
    have hright := alongExpr hP right ctx.inner (hP.inner h)
    cases op.shortCircuits with
    | true =>
      exact (Along.lay _).bind fun _ => hright.before fun _ => Along.target.bind fun _ => .pure _
    | false => exact hright.before fun _ => (Along.emit ..).bind fun _ => .pure _
  | .call _ callee args, ctx, h => by
    rw [expr, Expr.imports]
    exact (Along.noteExpr _).bind fun _ => (Along.limit ..).bind fun _ =>
      (alongExpr hP callee ctx.inner (hP.inner h)).bind fun code =>
        (alongExprs hP args ctx.inner code (hP.inner h)).before fun _ =>
          (Along.emit ..).bind fun _ => .pure _
  | .index _ container index, ctx, h => by
    rw [expr, Expr.imports]
    exact (Along.noteExpr _).bind fun _ =>
      (alongExpr hP container ctx.inner (hP.inner h)).bind fun _ =>
        (alongExpr hP index ctx.inner (hP.inner h)).before fun _ =>
          (Along.emit ..).bind fun _ => .pure _
  | .field _ container _, ctx, h => by
    rw [expr, Expr.imports]
    exact (Along.noteExpr _).bind fun _ =>
      (alongExpr hP container ctx.inner (hP.inner h)).before fun _ =>
        (Along.emitConstant _).bind fun _ => (Along.emit ..).bind fun _ => .pure _
  | .func pos params (.mk start body), ctx, h => by
    rw [expr, Expr.imports, Block.imports]
    have hbody : Along T deep (Stmt.allImports body)
        (funcBody load ctx.inner.function pos (.mk start body)) := by
      rw [funcBody]
      exact (alongStmts hP body ctx.inner.function #[] (hP.function (hP.inner h))).before fun _ =>
        .ite (.pure _) ((Along.emit ..).bind fun _ => .pure _)
    exact (Along.noteExpr _).bind fun _ => (Along.limit ..).bind fun _ =>
      Along.here.bind fun outside => Along.withSymbols.bind fun _ => (Along.moveTo 0).bind fun _ =>
        (Along.defineParams params).bind fun _ => hbody.before fun _ =>
          Along.withSymbols.bind fun (_, free) => (Along.moveTo outside).bind fun _ =>
            .emitFunction _ free
  | .load pos x, ctx, h => by
    rw [expr, Expr.imports]
    exact (Along.noteExpr _).bind fun _ => hP.along ctx.inner pos x (hP.inner h)

theorem alongExprs (hP : Loads T deep P load) : (items : List Expr) → (ctx : CompileContext) →
    (code : Code) → P ctx →
    Along T deep (Expr.allImports items) (exprs load ctx items code)
  | [], ctx, code, _ => by
    rw [exprs, Expr.allImports]
    exact .pure _
  | e :: rest, ctx, code, h => by
    rw [exprs, Expr.allImports]
    exact (alongExpr hP e ctx h).bind fun _ => alongExprs hP rest ctx _ h

theorem alongEntries (hP : Loads T deep P load) : (entries : List (String × Expr)) →
    (ctx : CompileContext) → (pos : Pos) → (code : Code) → P ctx →
    Along T deep (Expr.entryImports entries) (mapEntries load ctx pos entries code)
  | [], ctx, pos, code, _ => by
    rw [mapEntries, Expr.entryImports]
    exact .pure _
  | (_, e) :: rest, ctx, pos, code, h => by
    rw [mapEntries, Expr.entryImports]
    exact (Along.emitConstant _).bind fun _ => (alongExpr hP e ctx h).bind fun _ =>
      alongEntries hP rest ctx pos _ h

theorem alongStore (hP : Loads T deep P load) : (place : Expr) → (ctx : CompileContext) →
    (pos : Pos) → (names : List String) → (value : CompileM Code) → P ctx →
    Along T deep names value →
    Along T deep (place.storeImports names) (store load ctx pos value place)
  | .name _ x, ctx, pos, names, value, _, hvalue => by
    rw [store, Expr.storeImports]
    exact (Along.assignable x).bind fun σ => hvalue.before fun _ =>
      (Along.emitStore σ).bind fun _ => .pure _
  | .index _ container index, ctx, pos, names, value, h, hvalue => by
    rw [store, Expr.storeImports]
    refine alongStore hP container ctx pos _ _ h ?_
    exact (alongExpr hP container ctx h).bind fun _ => (alongExpr hP index ctx h).bind fun _ =>
      hvalue.before fun _ => (Along.emit ..).bind fun _ => .pure _
  | .field _ container x, ctx, pos, names, value, h, hvalue => by
    rw [store, Expr.storeImports]
    refine alongStore hP container ctx pos _ _ h ?_
    exact (alongExpr hP container ctx h).bind fun _ =>
      (Along.emitConstant (.string x)).bind fun _ =>
        hvalue.before fun _ => (Along.emit ..).bind fun _ => .pure _
  | .lit .., ctx, pos, names, value, _, _ | .array .., ctx, pos, names, value, _, _
  | .map .., ctx, pos, names, value, _, _ | .unary .., ctx, pos, names, value, _, _
  | .binary .., ctx, pos, names, value, _, _ | .call .., ctx, pos, names, value, _, _
  | .func .., ctx, pos, names, value, _, _ | .load .., ctx, pos, names, value, _, _ => by
    simp only [store, Expr.storeImports]
    exact .fail id

theorem alongStmt (hP : Loads T deep P load) : (s : Stmt) → (ctx : CompileContext) → P ctx →
    Along T deep s.imports (stmt load ctx s)
  | .expr e, ctx, h => by
    rw [Stmt.imports]
    exact (Along.noteStmt _).bind fun _ => (alongExpr hP e ctx.inner (hP.inner h)).before fun _ =>
      (Along.emit ..).bind fun _ => .pure _
  | .define pos x e, ctx, h => by
    rw [Stmt.imports]
    have he := alongExpr hP e ctx.inner (hP.inner h)
    refine (Along.noteStmt _).bind fun _ => Along.get.bind fun s => .ite (.fail id) (.ite ?_ ?_)
    · refine (Along.define x).bind fun σ => ?_
      have hrest (empty : Code) : Along T deep e.imports (do
          let code ← expr load ctx.inner e
          let fill ← emitStore pos σ
          pure (empty ++ code ++ fill)) :=
        he.before fun _ => (Along.emitStore σ).bind fun _ => .pure _
      cases σ.storage with
      | frame =>
        exact (Along.emit ..).bind fun push => (Along.emitStore σ).bind fun fill =>
          (Along.pure (push ++ fill)).bind hrest
      | global | builtin | free => exact (Along.pure #[]).bind hrest
    · exact he.before fun _ => (Along.define x).bind fun σ =>
        (Along.emitStore σ).bind fun _ => .pure _
  | .assign pos none place e, ctx, h => by
    rw [Stmt.imports]
    exact (Along.noteStmt _).bind fun _ =>
      alongStore hP place ctx.inner pos _ _ (hP.inner h) (alongExpr hP e ctx.inner (hP.inner h))
  | .assign pos (some op) place e, ctx, h => by
    rw [Stmt.imports]
    refine (Along.noteStmt _).bind fun _ => alongStore hP place ctx.inner pos _ _ (hP.inner h) ?_
    exact (alongExpr hP place ctx.inner (hP.inner h)).bind fun _ =>
      (alongExpr hP e ctx.inner (hP.inner h)).before fun _ => (Along.emit ..).bind fun _ => .pure _
  | .branch _ cond body none, ctx, h => by
    rw [Stmt.imports, Stmt.partImports]
    exact (Along.noteStmt _).bind fun _ => (alongExpr hP cond ctx.inner (hP.inner h)).bind fun _ =>
      (Along.lay _).bind fun _ => (alongBlock hP body ctx.inner (hP.inner h)).bind fun _ =>
        Along.target.bind fun _ => .pure _
  | .branch _ cond body (some orElse), ctx, h => by
    rw [Stmt.imports, Stmt.partImports]
    exact (Along.noteStmt _).bind fun _ => (alongExpr hP cond ctx.inner (hP.inner h)).bind fun _ =>
      (Along.lay _).bind fun _ => (alongBlock hP body ctx.inner (hP.inner h)).bind fun _ =>
        (Along.lay _).bind fun _ => Along.target.bind fun _ =>
          (alongStmt hP orElse ctx.inner (hP.inner h)).before fun _ =>
            Along.target.bind fun _ => .pure _
  | .loop pos init cond post body, ctx, h => by
    rw [stmt_loop, Stmt.imports]
    exact (Along.noteStmt (.loop pos init cond post body)).bind fun _ =>
      Along.enterBlock.bind fun _ => (alongPart hP init ctx.inner (hP.inner h)).bind fun _ => Along.here.bind fun _ =>
        (alongTest hP cond ctx.inner (hP.inner h)).bind fun _ =>
          (alongBlock hP body ctx.inner.looping (hP.looping (hP.inner h))).bind fun _ =>
            Along.here.bind fun _ =>
            (alongPart hP post ctx.inner (hP.inner h)).before fun _ => (Along.emit ..).bind fun _ =>
              Along.target.bind fun _ => Along.leaveBlock.bind fun _ => .pure _
  | .breakLoop _, ctx, _ | .continueLoop _, ctx, _ => by
    rw [Stmt.imports]
    exact (Along.noteStmt _).bind fun _ => .ite ((Along.lay _).bind fun _ => .pure _) (.fail id)
  | .returnValue _ none, ctx, _ => by
    rw [Stmt.imports, Expr.partImports]
    exact (Along.noteStmt _).bind fun _ => .ite (Along.emit ..) (.fail id)
  | .returnValue _ (some e), ctx, h => by
    rw [Stmt.imports, Expr.partImports]
    exact (Along.noteStmt _).bind fun _ => .ite
      ((alongExpr hP e ctx.inner (hP.inner h)).before fun _ =>
      (Along.emit ..).bind fun _ => .pure _) (.fail id)
  | .exportValue _ e, ctx, h => by
    rw [Stmt.imports]
    exact (Along.noteStmt _).bind fun _ => .ite
      ((alongExpr hP e ctx.inner (hP.inner h)).before fun _ =>
      (Along.emit ..).bind fun _ => .pure _) (.fail id)
  | .block body, ctx, h => by
    rw [Stmt.imports]
    exact (Along.noteStmt _).bind fun _ => alongBlock hP body ctx.inner (hP.inner h)

theorem alongPart (hP : Loads T deep P load) : (part : Option Stmt) → (ctx : CompileContext) →
    P ctx → Along T deep (Stmt.partImports part) (partCode load ctx part)
  | none, ctx, _ => by
    rw [partCode, Stmt.partImports]
    exact .pure _
  | some s, ctx, h => by
    rw [partCode, Stmt.partImports]
    exact alongStmt hP s ctx h

theorem alongTest (hP : Loads T deep P load) : (cond : Option Expr) → (ctx : CompileContext) →
    P ctx → Along T deep (Expr.partImports cond) (testCode load ctx cond)
  | none, ctx, _ => by
    rw [testCode, Expr.partImports]
    exact .pure _
  | some e, ctx, h => by
    rw [testCode, Expr.partImports]
    exact (alongExpr hP e ctx h).before fun _ => (Along.lay _).bind fun _ => .pure _

theorem alongBlock (hP : Loads T deep P load) : (body : Block) → (ctx : CompileContext) → P ctx →
    Along T deep body.imports (block load ctx body)
  | .mk _ body, ctx, h => by
    rw [block, Block.imports]
    exact Along.enterBlock.bind fun _ => (alongStmts hP body ctx #[] h).before fun _ =>
      Along.leaveBlock.bind fun _ => .pure _

theorem alongStmts (hP : Loads T deep P load) : (body : List Stmt) → (ctx : CompileContext) →
    (code : Code) → P ctx →
    Along T deep (Stmt.allImports body) (stmts load ctx body code)
  | [], ctx, code, _ => by
    rw [stmts, Stmt.allImports]
    exact .pure _
  | s :: rest, ctx, code, h => by
    rw [stmts, Stmt.allImports]
    exact (alongStmt hP s ctx h).bind fun _ => alongStmts hP rest ctx _ h

end

/-- The part compiled lies within the modules `chain`. -/
structure Within (chain : List String) (traced : Bool) (ctx : CompileContext) : Prop where
  chain_eq : ctx.chain = chain
  traced_eq : ctx.traced = traced

theorem Within.passed : Passed (Within chain traced) where
  inner h := ⟨h.chain_eq, h.traced_eq⟩
  function h := ⟨h.chain_eq, h.traced_eq⟩
  looping h := ⟨h.chain_eq, h.traced_eq⟩

theorem followsStmts
    (hload : ∀ ctx pos x, Within chain traced ctx → Follows o traced deep chain [x] (load ctx pos x))
    (body : List Stmt) (ctx : CompileContext) (code : Code) (h : Within chain traced ctx) :
    Follows o traced deep chain (Stmt.allImports body) (stmts load ctx body code) :=
  alongStmts ⟨Within.passed, hload⟩ body ctx code h

end ScriptEngine.Imports
