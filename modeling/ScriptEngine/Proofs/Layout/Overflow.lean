import ScriptEngine.Proofs.Layout.Statements
/-!
Constructs that are refused because they end too far on. A construct takes each of its targets at a
place that it has reached; what it does up to there is a computation of its own.
-/
namespace ScriptEngine.Compile

open Layout

variable {α β : Type} {m : CompileM α} {f : α → CompileM β} {s s' : CompileState} {a : α}
  {e : CompileError} {ctx : CompileContext} {pos : Pos}

/-- The computation fails. -/
def Fails (m : CompileM α) (s : CompileState) (e : CompileError) : Prop :=
  ∃ s', m.run s = .error e s'

/-- The error for a target that lies too far on. -/
def tooLarge (ctx : CompileContext) (pos : Pos) : CompileError :=
  ⟨ctx.file, pos, .overflow .functionSize⟩

theorem Fails.after (hm : Yields m s a s') (h : Fails (f a) s' e) : Fails (m >>= f) s e := by
  obtain ⟨t, ht⟩ := h
  refine ⟨t, ?_⟩
  unfold Yields at hm
  simp only [EStateM.run] at hm ht ⊢
  simp only [bind, EStateM.bind, hm, ht]

theorem Fails.here (h : Fails m s e) : Fails (m >>= f) s e := by
  obtain ⟨t, ht⟩ := h
  refine ⟨t, ?_⟩
  simp only [EStateM.run] at ht ⊢
  simp only [bind, EStateM.bind, ht]

theorem fails_target (h : maxCodeSize < s.here) : Fails (target ctx pos) s (tooLarge ctx pos) := by
  have hhere : Yields here s s.here s := by simp
  refine Fails.after hhere (Fails.here ⟨s, ?_⟩)
  simp only [limit, h, if_true]
  rfl

variable (load : CompileContext → Pos → String → CompileM Code) (ctx : CompileContext)

/-- What an operator that may skip its second operand does before it takes its target. -/
def operandsTo (pos : Pos) (op : BinaryOp) (left right : Expr) : CompileM Unit := do
  note ctx ((Expr.binary pos op left right).label ++ " @ " ++ pos.text)
  let _ ← expr load ctx.inner left
  lay op.opcode
  let _ ← expr load ctx.inner right

/-- What a branch does before it takes its first target. -/
def branchTo (pos : Pos) (cond : Expr) (body : Block) : Option Stmt → CompileM Unit
  | none => do
    note ctx ((Stmt.branch pos cond body none).label ++ " @ " ++ pos.text)
    let _ ← expr load ctx.inner cond
    lay .jumpFalsy
    let _ ← block load ctx.inner body
  | some other => do
    note ctx ((Stmt.branch pos cond body (some other)).label ++ " @ " ++ pos.text)
    let _ ← expr load ctx.inner cond
    lay .jumpFalsy
    let _ ← block load ctx.inner body
    lay .jump

/-- What a loop does before it takes its target. -/
def loopTo (pos : Pos) (init : Option Stmt) (cond : Option Expr) (post : Option Stmt)
    (body : Block) : CompileM Unit := do
  note ctx ((Stmt.loop pos init cond post body).label ++ " @ " ++ pos.text)
  enterBlock
  let _ ← partCode load ctx.inner init
  let loopStart ← here
  let _ ← testCode load ctx.inner cond
  let _ ← block load ctx.inner.looping body
  let _ ← here
  let _ ← partCode load ctx.inner post
  let _ ← emit pos .jump loopStart 0

/-- An operator takes a target too far on. -/
inductive ExprOutgrows (s : CompileState) : Expr → Pos → Prop where
  | operand {pos : Pos} {op : BinaryOp} {left right : Expr} {t : CompileState}
    (hop : op.shortCircuits) (h : Yields (operandsTo load ctx pos op left right) s () t)
    (hlarge : maxCodeSize < t.here) : ExprOutgrows s (.binary pos op left right) pos

/-- A statement takes a target too far on. -/
inductive StmtOutgrows (s : CompileState) : Stmt → Pos → Prop where
  | branch {pos : Pos} {cond : Expr} {body : Block} {orElse : Option Stmt} {t : CompileState}
    (h : Yields (branchTo load ctx pos cond body orElse) s () t)
    (hlarge : maxCodeSize < t.here) : StmtOutgrows s (.branch pos cond body orElse) pos
  | behind {pos : Pos} {cond : Expr} {body : Block} {other : Stmt} {code : Code}
    {t u : CompileState} (h : Yields (branchTo load ctx pos cond body (some other)) s () t)
    (hother : Yields (stmt load ctx.inner other) t code u) (hlarge : maxCodeSize < u.here) :
    StmtOutgrows s (.branch pos cond body (some other)) pos
  | loop {pos : Pos} {init : Option Stmt} {cond : Option Expr} {post : Option Stmt} {body : Block}
    {t : CompileState} (h : Yields (loopTo load ctx pos init cond post body) s () t)
    (hlarge : maxCodeSize < t.here) : StmtOutgrows s (.loop pos init cond post body) pos

variable {load ctx}

theorem ExprOutgrows.fails {e : Expr} (h : ExprOutgrows load ctx s e pos) :
    Fails (expr load ctx e) s (tooLarge ctx pos) := by
  cases h with
  | operand hop h hlarge =>
    simp only [operandsTo, yields_bind, yields_pure] at h
    obtain ⟨_, _, hnote, _, _, hleft, _, _, hlay, _, _, hright, _, rfl⟩ := h
    refine Fails.after hnote (Fails.after hleft ?_)
    rw [if_pos hop]
    exact Fails.after hlay (Fails.after hright (Fails.here (fails_target hlarge)))

theorem StmtOutgrows.fails {c : Stmt} (h : StmtOutgrows load ctx s c pos) :
    Fails (stmt load ctx c) s (tooLarge ctx pos) := by
  cases h with
  | @branch _ _ _ orElse _ h hlarge =>
    cases orElse with
    | none =>
      simp only [branchTo, yields_bind, yields_pure] at h
      obtain ⟨_, _, hnote, _, _, hcond, _, _, hlay, _, _, hbody, _, rfl⟩ := h
      exact Fails.after hnote (Fails.after hcond (Fails.after hlay (Fails.after hbody
        (Fails.here (fails_target hlarge)))))
    | some other =>
      simp only [branchTo, yields_bind] at h
      obtain ⟨_, _, hnote, _, _, hcond, _, _, hlay, _, _, hbody, hjump⟩ := h
      exact Fails.after hnote (Fails.after hcond (Fails.after hlay (Fails.after hbody
        (Fails.after hjump (Fails.here (fails_target hlarge))))))
  | @behind _ _ _ _ _ t _ h hother hlarge =>
    simp only [branchTo, yields_bind] at h
    obtain ⟨_, _, hnote, _, _, hcond, _, _, hlay, _, _, hbody, hjump⟩ := h
    refine Fails.after hnote (Fails.after hcond (Fails.after hlay (Fails.after hbody
      (Fails.after hjump ?_))))
    by_cases hfirst : maxCodeSize < t.here
    · exact Fails.here (fails_target hfirst)
    · refine Fails.after (yields_target.mpr ⟨rfl, Nat.not_lt.mp hfirst, rfl⟩) ?_
      exact Fails.after hother (Fails.here (fails_target hlarge))
  | loop h hlarge =>
    rw [stmt_loop]
    simp only [loopTo, yields_bind, yields_pure] at h
    obtain ⟨_, _, hnote, _, _, henter, _, _, hinit, _, _, hhere, _, _, htest, _, _, hbody, _, _,
      hlast, _, _, hpost, _, _, hback, _, rfl⟩ := h
    exact Fails.after hnote (Fails.after henter (Fails.after hinit (Fails.after hhere
      (Fails.after htest (Fails.after hbody (Fails.after hlast (Fails.after hpost
        (Fails.after hback (Fails.here (fails_target hlarge))))))))))

end ScriptEngine.Compile
