import ScriptEngine.Proofs.Layout.Basic
/-!
Which statements of a program's text lie where in a body, and where the jumps of each construct are
meant to lead.
-/
namespace ScriptEngine.Image

variable (L : Image) (R : Body) (whole : List Stmt)

/-- The statements of a function or a module whose code this is. -/
def IsText : Prop :=
  (∃ Γ pos place, L.bodyAt R Γ pos (.mk place whole)) ∨ L.moduleBodyAt R whole

/-- Statements in a row that the text has at some place, with the loop that is open around them.
A loop opens itself around its body, and only there. -/
inductive Rows : Option (Nat × Nat) → Names → List Stmt → (p q : Nat) → Prop where
  | root {Γ : Names} {m : Nat} (h : L.stmtsAt R none Γ whole 0 m) : Rows none Γ whole 0 m
  | next {J : Option (Nat × Nat)} {Γ : Names} {s : Stmt} {rest : List Stmt} {p m q : Nat}
    (h : Rows J Γ (s :: rest) p q) (hs : L.stmtAt R J Γ s p m)
    (hrest : L.stmtsAt R J (s.after Γ) rest m q) : Rows J (s.after Γ) rest m q
  | block {J : Option (Nat × Nat)} {Γ : Names} {pos : Pos} {body rest : List Stmt} {p m q : Nat}
    (h : Rows J Γ (.block (.mk pos body) :: rest) p q) (hb : L.stmtsAt R J Γ body p m) :
    Rows J Γ body p m
  | branch {J : Option (Nat × Nat)} {Γ : Names} {pos place : Pos} {cond : Expr}
    {body rest : List Stmt} {orElse : Option Stmt} {p m n k q t : Nat}
    (h : Rows J Γ (.branch pos cond (.mk place body) orElse :: rest) p q)
    (hc : L.exprAt R Γ cond p m) (hj : R.Has (some pos) .jumpFalsy t 0 m n)
    (hb : L.stmtsAt R J (Γ.skip cond.literals) body n k) :
    Rows J (Γ.skip cond.literals) body n k
  | orElse {J : Option (Nat × Nat)} {Γ : Names} {pos : Pos} {cond : Expr} {body : Block}
    {orElse : Stmt} {rest : List Stmt} {p m n k l q z : Nat}
    (h : Rows J Γ (.branch pos cond body (some orElse) :: rest) p z)
    (hc : L.exprAt R Γ cond p m) (hj : R.Has (some pos) .jumpFalsy l 0 m n)
    (hb : L.blockAt R J (Γ.skip cond.literals) body n k) (hk : R.Has (some pos) .jump q 0 k l)
    (ho : L.stmtAt R J (body.after (Γ.skip cond.literals)) orElse l q) :
    Rows J (body.after (Γ.skip cond.literals)) [orElse] l q
  | init {J : Option (Nat × Nat)} {Γ : Names} {pos : Pos} {init : Stmt} {cond : Option Expr}
    {post : Option Stmt} {body : Block} {rest : List Stmt} {p m q : Nat}
    (h : Rows J Γ (.loop pos (some init) cond post body :: rest) p q)
    (hi : L.stmtAt R J Γ init p m) : Rows J Γ [init] p m
  | body {J : Option (Nat × Nat)} {Γ : Names} {pos place : Pos} {init post : Option Stmt}
    {cond : Option Expr} {body rest : List Stmt} {p m n k l q z : Nat}
    (h : Rows J Γ (.loop pos init cond post (.mk place body) :: rest) p z)
    (hi : L.partAt R J Γ init p m) (hc : L.testAt R (Stmt.afterPart init Γ) pos q cond m n)
    (hb : L.stmtsAt R (some (q, k))
      ((Stmt.afterPart init Γ).skip (Expr.partLiterals cond)) body n k)
    (hk : R.Has (some pos) .jump m 0 l q) :
    Rows (some (q, k)) ((Stmt.afterPart init Γ).skip (Expr.partLiterals cond)) body n k
  | post {J : Option (Nat × Nat)} {Γ : Names} {pos : Pos} {init : Option Stmt}
    {cond : Option Expr} {post : Stmt} {body : Block} {rest : List Stmt} {p m n k l q z : Nat}
    (h : Rows J Γ (.loop pos init cond (some post) body :: rest) p z)
    (hi : L.partAt R J Γ init p m) (hc : L.testAt R (Stmt.afterPart init Γ) pos q cond m n)
    (hb : L.blockAt R (some (q, k))
      ((Stmt.afterPart init Γ).skip (Expr.partLiterals cond)) body n k)
    (hp : L.stmtAt R J
      (body.after ((Stmt.afterPart init Γ).skip (Expr.partLiterals cond))) post k l)
    (hk : R.Has (some pos) .jump m 0 l q) :
    Rows J (body.after ((Stmt.afterPart init Γ).skip (Expr.partLiterals cond))) [post] k l

/-- The text has a statement whose code lies between two offsets. -/
def Stands (J : Option (Nat × Nat)) (Γ : Names) (s : Stmt) (p q : Nat) : Prop :=
  ∃ rest z, L.Rows R whole J Γ (s :: rest) p z ∧ L.stmtAt R J Γ s p q

/-- The jump at an offset leads back to the start of a loop, behind what the loop does first. -/
def Repeats (p t : Nat) : Prop :=
  ∃ J Γ pos init cond post body q l, L.Stands R whole J Γ (.loop pos init cond post body) q l ∧
    L.partAt R J Γ init q t ∧ R.Has (some pos) .jump t 0 p l ∧ t ≤ p

/-- Where the jump at an offset is meant to lead. -/
inductive Aims : (p t : Nat) → Opcode → Prop where
  /-- Behind the second operand. -/
  | operand {Γ : Names} {pos : Pos} {op : BinaryOp} {left right : Expr} {s m n q : Nat}
    (hop : op.shortCircuits) (hleft : L.exprAt R Γ left s m)
    (hjump : R.Has (some pos) op.opcode q 0 m n)
    (hright : L.exprAt R (Γ.skip left.literals) right n q) : Aims m q op.opcode
  /-- Behind a branch that has no other beside it. -/
  | branch {J : Option (Nat × Nat)} {Γ : Names} {pos : Pos} {cond : Expr} {body : Block}
    {s m n q : Nat} (h : L.Stands R whole J Γ (.branch pos cond body none) s q)
    (hcond : L.exprAt R Γ cond s m) (hjump : R.Has (some pos) .jumpFalsy q 0 m n)
    (hbody : L.blockAt R J (Γ.skip cond.literals) body n q) : Aims m q .jumpFalsy
  /-- To the other branch. -/
  | orElse {J : Option (Nat × Nat)} {Γ : Names} {pos : Pos} {cond : Expr} {body : Block}
    {orElse : Stmt} {s m n k l q : Nat}
    (h : L.Stands R whole J Γ (.branch pos cond body (some orElse)) s q)
    (hcond : L.exprAt R Γ cond s m) (hjump : R.Has (some pos) .jumpFalsy l 0 m n)
    (hbody : L.blockAt R J (Γ.skip cond.literals) body n k)
    (hother : L.stmtAt R J (body.after (Γ.skip cond.literals)) orElse l q) : Aims m l .jumpFalsy
  /-- Behind the other branch. -/
  | behind {J : Option (Nat × Nat)} {Γ : Names} {pos : Pos} {cond : Expr} {body : Block}
    {orElse : Stmt} {s k l q : Nat}
    (h : L.Stands R whole J Γ (.branch pos cond body (some orElse)) s q)
    (hjump : R.Has (some pos) .jump q 0 k l)
    (hother : L.stmtAt R J (body.after (Γ.skip cond.literals)) orElse l q) : Aims k q .jump
  /-- Behind a loop whose condition fails. -/
  | exit {J : Option (Nat × Nat)} {Γ : Names} {pos : Pos} {init post : Option Stmt} {cond : Expr}
    {body : Block} {s m x n q : Nat}
    (h : L.Stands R whole J Γ (.loop pos init (some cond) post body) s q)
    (hinit : L.partAt R J Γ init s m) (hcond : L.exprAt R (Stmt.afterPart init Γ) cond m x)
    (hjump : R.Has (some pos) .jumpFalsy q 0 x n) : Aims x q .jumpFalsy
  /-- Back to the start of a loop. -/
  | back {J : Option (Nat × Nat)} {Γ : Names} {pos : Pos} {init post : Option Stmt}
    {cond : Option Expr} {body : Block} {s m l q : Nat}
    (h : L.Stands R whole J Γ (.loop pos init cond post body) s q)
    (hinit : L.partAt R J Γ init s m) (hjump : R.Has (some pos) .jump m 0 l q) : Aims l m .jump
  /-- Behind the innermost loop. -/
  | breakLoop {loopEnd lastPart : Nat} {Γ : Names} {pos : Pos} {p q : Nat}
    (h : L.Stands R whole (some (loopEnd, lastPart)) Γ (.breakLoop pos) p q) :
    Aims p loopEnd .jump
  /-- To what the innermost loop does after its body. -/
  | continueLoop {loopEnd lastPart : Nat} {Γ : Names} {pos : Pos} {p q : Nat}
    (h : L.Stands R whole (some (loopEnd, lastPart)) Γ (.continueLoop pos) p q) :
    Aims p lastPart .jump

end ScriptEngine.Image
