import ScriptEngine.Program.Basic
/-!
What a program mentions: the function literals that its code makes, and the names that it looks up
where it stands. A compound assignment evaluates its target twice and makes the literals in it twice.
-/
namespace ScriptEngine

mutual

/-- Function literals made by an expression, those in the bodies of others included. -/
def Expr.literals : Expr → Nat
  | .lit .. | .name .. | .load .. => 0
  | .array _ items => Expr.literalsOf items
  | .map _ entries => Expr.literalsIn entries
  | .unary _ _ e => e.literals
  | .binary _ _ left right => left.literals + right.literals
  | .call _ callee args => callee.literals + Expr.literalsOf args
  | .index _ container index => container.literals + index.literals
  | .field _ container _ => container.literals
  | .func _ _ body => body.literals + 1

def Expr.literalsOf : List Expr → Nat
  | [] => 0
  | e :: rest => e.literals + Expr.literalsOf rest

def Expr.literalsIn : List (String × Expr) → Nat
  | [] => 0
  | (_, e) :: rest => e.literals + Expr.literalsIn rest

/-- Function literals made by storing in a target a value that makes `n`. -/
def Expr.storeLiterals : Expr → (n : Nat) → Nat
  | .index _ container index, n =>
    container.storeLiterals (container.literals + index.literals + n)
  | .field _ container _, n => container.storeLiterals (container.literals + n)
  | _, n => n

def Expr.partLiterals : Option Expr → Nat
  | none => 0
  | some e => e.literals

def Stmt.literals : Stmt → Nat
  | .expr e | .define _ _ e | .exportValue _ e => e.literals
  | .assign _ none place e => place.storeLiterals e.literals
  | .assign _ (some _) place e => place.storeLiterals (place.literals + e.literals)
  | .branch _ cond body none => cond.literals + body.literals
  | .branch _ cond body (some orElse) => cond.literals + body.literals + orElse.literals
  | .loop _ init cond post body =>
    Stmt.partLiterals init + Expr.partLiterals cond + body.literals + Stmt.partLiterals post
  | .breakLoop _ | .continueLoop _ => 0
  | .returnValue _ none => 0
  | .returnValue _ (some e) => e.literals
  | .block body => body.literals

/-- Function literals made by a part that a loop may lack. -/
def Stmt.partLiterals : Option Stmt → Nat
  | none => 0
  | some s => s.literals

def Block.literals : Block → Nat
  | .mk _ body => Stmt.literalsOf body

def Stmt.literalsOf : List Stmt → Nat
  | [] => 0
  | s :: rest => s.literals + Stmt.literalsOf rest

end

/-- Whether a statement leaves a name defined for the statements behind it. -/
def Stmt.defines (x : String) : Stmt → Bool
  | .define _ y _ => y == x
  | .branch _ _ _ (some orElse) => orElse.defines x
  | _ => false

def Stmt.partDefines (x : String) : Option Stmt → Bool
  | none => false
  | some s => s.defines x

mutual

/-- Whether an expression looks a name up that it does not define itself. -/
def Expr.uses (x : String) : Expr → Bool
  | .lit .. | .load .. => false
  | .name _ y => y == x
  | .array _ items => Expr.usesAny x items
  | .map _ entries => Expr.usesIn x entries
  | .unary _ _ e => e.uses x
  | .binary _ _ left right => left.uses x || right.uses x
  | .call _ callee args => callee.uses x || Expr.usesAny x args
  | .index _ container index => container.uses x || index.uses x
  | .field _ container _ => container.uses x
  | .func _ params body => !params.contains x && body.uses x

def Expr.usesAny (x : String) : List Expr → Bool
  | [] => false
  | e :: rest => e.uses x || Expr.usesAny x rest

def Expr.usesIn (x : String) : List (String × Expr) → Bool
  | [] => false
  | (_, e) :: rest => e.uses x || Expr.usesIn x rest

def Expr.partUses (x : String) : Option Expr → Bool
  | none => false
  | some e => e.uses x

/-- A function literal may use the name that it is defined as; other values come before it. -/
def Stmt.uses (x : String) : Stmt → Bool
  | .expr e | .exportValue _ e => e.uses x
  | .define _ y e => !(e.isFunc && y == x) && e.uses x
  | .assign _ _ place e => place.uses x || e.uses x
  | .branch _ cond body none => cond.uses x || body.uses x
  | .branch _ cond body (some orElse) => cond.uses x || body.uses x || orElse.uses x
  | .loop _ init cond post body =>
    Stmt.partUses x init || !Stmt.partDefines x init &&
      (Expr.partUses x cond || body.uses x || Stmt.partUses x post)
  | .breakLoop _ | .continueLoop _ => false
  | .returnValue _ none => false
  | .returnValue _ (some e) => e.uses x
  | .block body => body.uses x

def Stmt.partUses (x : String) : Option Stmt → Bool
  | none => false
  | some s => s.uses x

def Block.uses (x : String) : Block → Bool
  | .mk _ body => Stmt.usesAny x body

def Stmt.usesAny (x : String) : List Stmt → Bool
  | [] => false
  | s :: rest => s.uses x || !s.defines x && Stmt.usesAny x rest

end

end ScriptEngine
