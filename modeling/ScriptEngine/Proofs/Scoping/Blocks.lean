import Mathlib.Tactic.Common
import ScriptEngine.Program.Basic
/-!
Which programs are well scoped, said of their text alone: every name is in view where it is used, no
block defines a name twice, and nothing stands where it may not.
-/
namespace ScriptEngine

/-- The blocks that are open at a place of a program, each with the names it has defined so far.
Functions, and the blocks in each, come from the inside out. -/
structure Blocks where
  functions : List (List (List String))
  /-- The blocks outside of all functions. -/
  outside : List (List String)
  builtins : List String

namespace Blocks

/-- The variables of the functions around the innermost one. -/
def around (Γ : Blocks) : List String := Γ.functions.tail.flatten.flatten

/-- The variables of the innermost function. -/
def own (Γ : Blocks) : List String := (Γ.functions.headD []).flatten

/-- A name stands for something. -/
def InView (Γ : Blocks) (x : String) : Prop :=
  x ∈ Γ.own ∨ x ∈ Γ.around ∨ x ∈ Γ.outside.flatten ∨ x ∈ Γ.builtins

/-- A name stands for a variable of the innermost function or for a global one. -/
def Assignable (Γ : Blocks) (x : String) : Prop :=
  x ∈ Γ.own ∨ x ∉ Γ.around ∧ x ∈ Γ.outside.flatten

/-- The blocks of the innermost function, or those outside of all functions. -/
def current (Γ : Blocks) : List (List String) :=
  match Γ.functions with
  | [] => Γ.outside
  | blocks :: _ => blocks

def withCurrent (Γ : Blocks) (blocks : List (List String)) : Blocks :=
  match Γ.functions with
  | [] => { Γ with outside := blocks }
  | _ :: rest => { Γ with functions := blocks :: rest }

@[simp] theorem current_withCurrent (Γ : Blocks) (blocks : List (List String)) :
    (Γ.withCurrent blocks).current = blocks := by
  unfold current withCurrent
  cases Γ.functions <;> simp

@[simp] theorem withCurrent_withCurrent (Γ : Blocks) (blocks blocks' : List (List String)) :
    (Γ.withCurrent blocks).withCurrent blocks' = Γ.withCurrent blocks' := by
  unfold withCurrent
  cases Γ.functions <;> simp

@[simp] theorem withCurrent_current (Γ : Blocks) : Γ.withCurrent Γ.current = Γ := by
  obtain ⟨functions, outside, builtins⟩ := Γ
  cases functions <;> rfl

/-- The names that the innermost block has defined. -/
def innermost (Γ : Blocks) : List String := Γ.current.headD []

def define (Γ : Blocks) (x : String) : Blocks :=
  Γ.withCurrent ((x :: Γ.innermost) :: Γ.current.tail)

def enter (Γ : Blocks) : Blocks := Γ.withCurrent ([] :: Γ.current)

/-- In the body of a function, whose outermost block has its parameters. -/
def function (Γ : Blocks) (params : List String) : Blocks :=
  { Γ with functions := [params.reverse] :: Γ.functions }

theorem Assignable.inView {Γ : Blocks} {x : String} (h : Γ.Assignable x) : Γ.InView x :=
  h.imp_right fun h => Or.inr (Or.inl h.2)

/-- Just the innermost block may have changed. -/
def Grows (Γ Γ' : Blocks) : Prop := ∃ names, Γ' = Γ.withCurrent (names :: Γ.current.tail)

theorem Grows.refl {Γ : Blocks} (h : Γ.current ≠ []) : Γ.Grows Γ := by
  obtain ⟨names, rest, hΓ⟩ := List.exists_cons_of_ne_nil h
  exact ⟨names, by rw [hΓ, List.tail_cons, ← hΓ, withCurrent_current]⟩

theorem Grows.define (Γ : Blocks) (x : String) : Γ.Grows (Γ.define x) := ⟨_, rfl⟩

theorem Grows.trans {Γ Γ' Γ'' : Blocks} (h : Γ.Grows Γ') (h' : Γ'.Grows Γ'') : Γ.Grows Γ'' := by
  obtain ⟨names, rfl⟩ := h
  obtain ⟨names', rfl⟩ := h'
  exact ⟨names', by simp⟩

theorem Grows.current_ne_nil {Γ Γ' : Blocks} (h : Γ.Grows Γ') : Γ'.current ≠ [] := by
  obtain ⟨names, rfl⟩ := h
  simp

/-- Blocks that grow stay in the same functions. -/
theorem Grows.functions_eq_nil {Γ Γ' : Blocks} (h : Γ.Grows Γ') :
    Γ'.functions = [] ↔ Γ.functions = [] := by
  obtain ⟨names, rfl⟩ := h
  unfold withCurrent
  cases Γ.functions <;> simp

theorem enter_functions_eq_nil (Γ : Blocks) : Γ.enter.functions = [] ↔ Γ.functions = [] := by
  unfold enter withCurrent
  cases Γ.functions <;> simp

end Blocks

/-- The blocks behind a statement. -/
def Stmt.leaves : Stmt → Blocks → Blocks
  | .define _ x _, Γ => Γ.define x
  | .branch _ _ _ (some orElse), Γ => orElse.leaves Γ
  | _, Γ => Γ

/-- The blocks behind statements. -/
def Stmt.allLeaves (body : List Stmt) (Γ : Blocks) : Blocks := body.foldl (fun Γ s => s.leaves Γ) Γ

def Stmt.partLeaves : Option Stmt → Blocks → Blocks
  | none, Γ => Γ
  | some s, Γ => s.leaves Γ

mutual

/-- Every name in an expression is in view, and its function literals are well scoped. -/
def Expr.Scoped : Expr → Blocks → Prop
  | .lit .., _ | .load .., _ => True
  | .name _ x, Γ => Γ.InView x
  | .array _ items, Γ => Expr.AllScoped items Γ
  | .map _ entries, Γ => Expr.EntriesScoped entries Γ
  | .unary _ _ e, Γ => e.Scoped Γ
  | .binary _ _ left right, Γ => left.Scoped Γ ∧ right.Scoped Γ
  | .call _ callee args, Γ => callee.Scoped Γ ∧ Expr.AllScoped args Γ
  | .index _ container index, Γ => container.Scoped Γ ∧ index.Scoped Γ
  | .field _ container _, Γ => container.Scoped Γ
  | .func _ params body, Γ => params.Nodup ∧ body.BodyScoped (Γ.function params)

def Expr.AllScoped : List Expr → Blocks → Prop
  | [], _ => True
  | e :: rest, Γ => e.Scoped Γ ∧ Expr.AllScoped rest Γ

def Expr.EntriesScoped : List (String × Expr) → Blocks → Prop
  | [], _ => True
  | (_, e) :: rest, Γ => e.Scoped Γ ∧ Expr.EntriesScoped rest Γ

/-- A target is a chain of indices and fields on a variable that can be assigned to. -/
def Expr.TargetScoped : Expr → Blocks → Prop
  | .name _ x, Γ => Γ.Assignable x
  | .index _ container index, Γ => container.TargetScoped Γ ∧ index.Scoped Γ
  | .field _ container _, Γ => container.TargetScoped Γ
  | _, _ => False

/-- A statement is well scoped; `looping` says whether a loop of the same function is open. -/
def Stmt.Scoped : Stmt → (looping : Bool) → Blocks → Prop
  | .expr e, _, Γ => e.Scoped Γ
  | .define _ x e, _, Γ => x ∉ Γ.innermost ∧ e.Scoped (if e.isFunc then Γ.define x else Γ)
  | .assign _ _ place e, _, Γ => place.TargetScoped Γ ∧ e.Scoped Γ
  | .branch _ cond body none, looping, Γ => cond.Scoped Γ ∧ body.Scoped looping Γ
  | .branch _ cond body (some orElse), looping, Γ =>
    cond.Scoped Γ ∧ body.Scoped looping Γ ∧ orElse.Scoped looping Γ
  | .loop _ init cond post body, looping, Γ =>
    Stmt.PartScoped init looping Γ.enter ∧
      Expr.PartScoped cond (Stmt.partLeaves init Γ.enter) ∧
      body.Scoped true (Stmt.partLeaves init Γ.enter) ∧
      Stmt.PartScoped post looping (Stmt.partLeaves init Γ.enter)
  | .breakLoop _, looping, _ | .continueLoop _, looping, _ => looping = true
  | .returnValue _ value, _, Γ => Γ.functions ≠ [] ∧ Expr.PartScoped value Γ
  | .exportValue .., _, _ => False
  | .block body, looping, Γ => body.Scoped looping Γ

/-- A part that a statement may lack. -/
def Expr.PartScoped : Option Expr → Blocks → Prop
  | none, _ => True
  | some e, Γ => e.Scoped Γ

/-- A part that a loop may lack. -/
def Stmt.PartScoped : Option Stmt → (looping : Bool) → Blocks → Prop
  | none, _, _ => True
  | some s, looping, Γ => s.Scoped looping Γ

def Block.Scoped : Block → (looping : Bool) → Blocks → Prop
  | .mk _ body, looping, Γ => Stmt.AllScoped body looping Γ.enter

/-- The body of a function shares its block with the parameters. -/
def Block.BodyScoped : Block → Blocks → Prop
  | .mk _ body, Γ => Stmt.AllScoped body false Γ

def Stmt.AllScoped : List Stmt → (looping : Bool) → Blocks → Prop
  | [], _, _ => True
  | s :: rest, looping, Γ => s.Scoped looping Γ ∧ Stmt.AllScoped rest looping (s.leaves Γ)

end

end ScriptEngine
