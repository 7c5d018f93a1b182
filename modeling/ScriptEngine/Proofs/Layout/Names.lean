import Mathlib.Tactic.Common
import ScriptEngine.Proofs.Layout.Occurrence
import ScriptEngine.Scope.Table
import ScriptEngine.Value.Basic
/-!
The names in force at a place of a program, as its text alone determines them. The slot of a variable
is the number of variables that its function defined before it, so a function's variables are a list.
-/
namespace ScriptEngine

/-- The slot of the innermost variable of that name. -/
def slotOf (x : String) : List String → Option Nat
  | [] => none
  | y :: rest => if y = x then some rest.length else slotOf x rest

theorem slotOf_lt {x : String} {vars : List String} {i : Nat} (h : slotOf x vars = some i) :
    i < vars.length := by
  induction vars with
  | nil => simp [slotOf] at h
  | cons y rest ih =>
    unfold slotOf at h
    split at h
    · simp at h
      simp
      omega
    · have := ih h
      simp
      omega

theorem slotOf_eq_none {x : String} {vars : List String} : slotOf x vars = none ↔ x ∉ vars := by
  induction vars with
  | nil => simp [slotOf]
  | cons y rest ih =>
    unfold slotOf
    split
    · simp_all
    · rename_i hy
      have : x ≠ y := fun he => hy he.symm
      simp [ih, this]

theorem slotOf_isSome {x : String} {vars : List String} :
    (∃ i, slotOf x vars = some i) ↔ x ∈ vars := by
  rw [← Option.isSome_iff_exists, ← Decidable.not_iff_not, Option.not_isSome_iff_eq_none,
    slotOf_eq_none]

/-- Names in force. The variables of the open functions come from the inside out, in each function
the last defined first; outside of functions a name stands for a global cell. -/
structure Names where
  functions : List (List String)
  globals : List (String × Nat)
  /-- The next cell. -/
  cell : Nat
  /-- The number of the next function literal. -/
  literal : Nat

namespace Names

/-- The names at the start of a module, whose own function has the number zero. -/
def forModule : Names := ⟨[[]], [], 0, 1⟩

/-- Passes function literals. -/
def skip (Γ : Names) (n : Nat) : Names := { Γ with literal := Γ.literal + n }

/-- One more name. -/
def define (Γ : Names) (x : String) : Names :=
  match Γ.functions with
  | [] => { Γ with globals := (x, Γ.cell) :: Γ.globals, cell := Γ.cell + 1 }
  | vars :: around => { Γ with functions := (x :: vars) :: around }

/-- The names from before a block, behind it. -/
def leave (Γ inner : Names) : Names := { Γ with cell := inner.cell, literal := inner.literal }

/-- The names in the body of the next function literal. -/
def function (Γ : Names) (params : List String) : Names :=
  { Γ with functions := params.reverse :: Γ.functions, literal := Γ.literal + 1 }

/-- What a name means that is no variable of a function. -/
def outer (Γ : Names) (x : String) : Option (Storage × Nat) :=
  match Γ.globals.lookup x with
  | some cell => some (.global, cell)
  | none => (Builtin.all.findIdx? (·.name = x)).map ((.builtin, ·))

/-- A variable of the function itself or one that it captured. -/
def own (captured vars : List String) (x : String) : Option (Storage × Nat) :=
  match slotOf x vars with
  | some i => some (.frame, i)
  | none => (captured.idxOf? x).map ((.free, ·))

/-- What a name means in a function that captures the given variables of the functions around it. -/
def resolve (Γ : Names) (captured : List String) (x : String) : Option (Storage × Nat) :=
  match Γ.functions with
  | [] => Γ.outer x
  | vars :: around =>
    match own captured vars x with
    | some found => some found
    | none => if x ∈ around.flatten then none else Γ.outer x

/-- The variables of the innermost function. -/
def vars (Γ : Names) : List String := Γ.functions.headD []

/-- The variables of the functions around the innermost one, if there is one. -/
def around? (Γ : Names) : Option (List (List String)) := Γ.functions.tail?

/-- A function captures variables of the functions around it only. -/
def Admits (Γ : Names) (captured : List String) : Prop :=
  ∀ x ∈ captured, x ∈ (Γ.around?.getD []).flatten

/-- A variable of one of the open functions. -/
def IsVariable (Γ : Names) (x : String) : Prop := x ∈ Γ.functions.flatten

instance (Γ : Names) (x : String) : Decidable (Γ.IsVariable x) :=
  inferInstanceAs (Decidable (_ ∈ _))

/-- Variables of a function keep their place when it captures more. -/
theorem own_append {captured vars : List String} {x : String} {found : Storage × Nat}
    (h : own captured vars x = some found) (more : List String) :
    own (captured ++ more) vars x = some found := by
  unfold own at h ⊢
  split
  · rename_i i hi
    rwa [hi] at h
  · rename_i hx
    rw [hx] at h
    simp only [Option.map_eq_some_iff] at h ⊢
    obtain ⟨i, hi, hfound⟩ := h
    refine ⟨i, ?_, hfound⟩
    simp only [List.idxOf?, List.findIdx?_append] at hi ⊢
    simp [hi]

theorem own_eq_none {captured vars : List String} {x : String} :
    own captured vars x = none ↔ x ∉ vars ∧ x ∉ captured := by
  unfold own
  split
  · rename_i i hi
    have := slotOf_isSome.mp ⟨i, hi⟩
    simp [this]
  · rename_i hx
    have := slotOf_eq_none.mp hx
    simp [this, List.idxOf?_eq_none_iff]

/-- A variable that is captured next comes behind those captured before. -/
theorem own_append_self {captured vars : List String} {x : String}
    (h : own captured vars x = none) :
    own (captured ++ [x]) vars x = some (.free, captured.length) := by
  obtain ⟨hx, hc⟩ := own_eq_none.mp h
  have hslot := slotOf_eq_none.mpr hx
  have hidx : captured.findIdx? (· == x) = none := List.idxOf?_eq_none_iff.mpr hc
  simp [own, hslot, List.idxOf?, List.findIdx?_append, hidx]

theorem mem_vars_or_captured {captured vars : List String} {x : String} {found : Storage × Nat}
    (h : own captured vars x = some found) : x ∈ vars ∨ x ∈ captured := by
  by_contra hn
  rw [not_or] at hn
  rw [own_eq_none.mpr hn] at h
  simp at h

theorem storage_own {captured vars : List String} {x : String} {found : Storage × Nat}
    (h : own captured vars x = some found) : found.1 = .frame ∨ found.1 = .free := by
  unfold own at h
  split at h
  · simp only [Option.some.injEq] at h
    exact Or.inl (h ▸ rfl)
  · obtain ⟨i, _, rfl⟩ := Option.map_eq_some_iff.mp h
    exact Or.inr rfl

theorem storage_outer {Γ : Names} {x : String} {found : Storage × Nat}
    (h : Γ.outer x = some found) : found.1 = .global ∨ found.1 = .builtin := by
  unfold outer at h
  split at h
  · simp only [Option.some.injEq] at h
    exact Or.inl (h ▸ rfl)
  · obtain ⟨i, _, rfl⟩ := Option.map_eq_some_iff.mp h
    exact Or.inr rfl

/-- What a name means does not change when its function captures more variables. -/
theorem resolve_append {Γ : Names} {captured more : List String} {x : String}
    {found : Storage × Nat} (h : Γ.resolve captured x = some found)
    (hadmits : Γ.Admits (captured ++ more)) : Γ.resolve (captured ++ more) x = some found := by
  unfold resolve at h ⊢
  cases hf : Γ.functions with
  | nil => simpa [hf] using h
  | cons vars around =>
    simp only [hf] at h ⊢
    cases hown : own captured vars x with
    | some found' =>
      rw [own_append hown]
      simpa [hown] using h
    | none =>
      simp only [hown] at h
      split at h
      · simp at h
      · rename_i hx
        have hnew : own (captured ++ more) vars x = none := by
          refine own_eq_none.mpr ⟨(own_eq_none.mp hown).1, fun hn => hx ?_⟩
          simpa [around?, hf] using hadmits x hn
        rw [hnew]
        simpa [hx] using h

/-- A name that is neither a variable nor captured is one from outside of the functions. -/
theorem resolve_outer {Γ : Names} {captured : List String} {x : String}
    (hvariable : ¬ Γ.IsVariable x) (hcaptured : x ∉ captured) :
    Γ.resolve captured x = Γ.outer x := by
  unfold IsVariable at hvariable
  unfold resolve
  cases hf : Γ.functions with
  | nil => rfl
  | cons vars around =>
    rw [hf, List.flatten_cons, List.mem_append, not_or] at hvariable
    have hown : own captured vars x = none := own_eq_none.mpr ⟨hvariable.1, hcaptured⟩
    simp only [hown, if_neg hvariable.2]

/-- A variable of a function around is one that is captured, if it means anything. -/
theorem resolve_around {Γ : Names} {captured : List String} {x : String} {place : Storage × Nat}
    (hx : x ∉ Γ.vars) (hvariable : Γ.IsVariable x) (h : Γ.resolve captured x = some place) :
    ∃ j, place = (.free, j) ∧ captured[j]? = some x := by
  unfold IsVariable at hvariable
  unfold resolve at h
  unfold vars at hx
  cases hf : Γ.functions with
  | nil =>
    rw [hf] at hvariable
    cases hvariable
  | cons vars around =>
    rw [hf] at hvariable hx h
    rw [List.headD_cons] at hx
    rw [List.flatten_cons, List.mem_append] at hvariable
    have haround : x ∈ around.flatten := hvariable.resolve_left hx
    simp only [own, slotOf_eq_none.mpr hx, haround, if_true] at h
    cases hj : captured.idxOf? x with
    | none => simp [hj] at h
    | some j =>
      simp only [hj, Option.map_some, Option.some.injEq] at h
      obtain ⟨hlt, hget, -⟩ := List.idxOf?_eq_some_iff.mp hj
      exact ⟨j, h.symm, List.getElem?_eq_some_iff.mpr ⟨hlt, hget⟩⟩

@[simp] theorem skip_functions (Γ : Names) (n : Nat) : (Γ.skip n).functions = Γ.functions := rfl

@[simp] theorem skip_globals (Γ : Names) (n : Nat) : (Γ.skip n).globals = Γ.globals := rfl

@[simp] theorem skip_cell (Γ : Names) (n : Nat) : (Γ.skip n).cell = Γ.cell := rfl

@[simp] theorem skip_literal (Γ : Names) (n : Nat) : (Γ.skip n).literal = Γ.literal + n := rfl

@[simp] theorem skip_zero (Γ : Names) : Γ.skip 0 = Γ := rfl

@[simp] theorem skip_skip (Γ : Names) (n k : Nat) : (Γ.skip n).skip k = Γ.skip (n + k) := by
  simp [skip, Nat.add_assoc]

@[simp] theorem resolve_skip (Γ : Names) (n : Nat) : (Γ.skip n).resolve = Γ.resolve := rfl

@[simp] theorem around?_skip (Γ : Names) (n : Nat) : (Γ.skip n).around? = Γ.around? := rfl

@[simp] theorem vars_skip (Γ : Names) (n : Nat) : (Γ.skip n).vars = Γ.vars := rfl

@[simp] theorem around?_define (Γ : Names) (x : String) : (Γ.define x).around? = Γ.around? := by
  unfold define around?
  split
  · rename_i h
    rfl
  · rename_i h
    rw [h]
    rfl

theorem cell_define (Γ : Names) (x : String) : Γ.cell ≤ (Γ.define x).cell := by
  unfold define
  split
  · exact Nat.le_succ _
  · exact Nat.le_refl _

@[simp] theorem leave_functions (Γ Δ : Names) : (Γ.leave Δ).functions = Γ.functions := rfl

@[simp] theorem leave_globals (Γ Δ : Names) : (Γ.leave Δ).globals = Γ.globals := rfl

@[simp] theorem leave_cell (Γ Δ : Names) : (Γ.leave Δ).cell = Δ.cell := rfl

@[simp] theorem leave_literal (Γ Δ : Names) : (Γ.leave Δ).literal = Δ.literal := rfl

@[simp] theorem define_literal (Γ : Names) (x : String) : (Γ.define x).literal = Γ.literal := by
  unfold define
  split <;> rfl

theorem define_outside {Γ : Names} (h : Γ.functions = []) (x : String) :
    Γ.define x = { Γ with globals := (x, Γ.cell) :: Γ.globals, cell := Γ.cell + 1 } := by
  simp [define, h]

theorem define_inside {Γ : Names} {vars : List String} {around : List (List String)}
    (h : Γ.functions = vars :: around) (x : String) :
    Γ.define x = { Γ with functions := (x :: vars) :: around } := by
  simp [define, h]

@[simp] theorem foldl_define_function (Γ : Names) (vars params : List String) :
    params.foldl define (Γ.function vars) = Γ.function (vars ++ params) := by
  induction params generalizing vars with
  | nil => simp
  | cons x rest ih =>
    have hx : (Γ.function vars).define x = Γ.function (vars ++ [x]) := by
      simp [define, function]
    rw [List.foldl_cons, hx, ih, List.append_assoc, List.singleton_append]

end Names

mutual

/-- The names behind a statement. -/
def Stmt.after : Stmt → Names → Names
  | .define _ x e, Γ => (Γ.define x).skip e.literals
  | .branch _ cond body none, Γ => body.after (Γ.skip cond.literals)
  | .branch _ cond body (some orElse), Γ => orElse.after (body.after (Γ.skip cond.literals))
  | .loop _ init cond post body, Γ =>
    Γ.leave (Stmt.afterPart post
      (body.after ((Stmt.afterPart init Γ).skip (Expr.partLiterals cond))))
  | .block body, Γ => body.after Γ
  | .expr e, Γ => Γ.skip e.literals
  | .assign _ none place e, Γ => Γ.skip (place.storeLiterals e.literals)
  | .assign _ (some _) place e, Γ => Γ.skip (place.storeLiterals (place.literals + e.literals))
  | .breakLoop _, Γ | .continueLoop _, Γ | .returnValue _ none, Γ => Γ
  | .returnValue _ (some e), Γ | .exportValue _ e, Γ => Γ.skip e.literals

def Stmt.afterPart : Option Stmt → Names → Names
  | none, Γ => Γ
  | some s, Γ => s.after Γ

/-- The names behind a block: those before it. -/
def Block.after : Block → Names → Names
  | .mk _ body, Γ => Γ.leave (Stmt.afterAll body Γ)

def Stmt.afterAll : List Stmt → Names → Names
  | [], Γ => Γ
  | s :: rest, Γ => Stmt.afterAll rest (s.after Γ)

end

theorem Block.after_vars (body : Block) (Γ : Names) : (body.after Γ).vars = Γ.vars := by
  cases body
  rfl

/-- Behind a statement a function has the variables that the statement defined. -/
theorem Stmt.mem_vars_after {x : String} {Γ : Names} (h : Γ.functions ≠ []) :
    (s : Stmt) → (x ∈ (s.after Γ).vars ↔ x ∈ Γ.vars ∨ s.defines x = true)
  | .define _ y e => by
    obtain ⟨vars, around, hf⟩ := List.exists_cons_of_ne_nil h
    simp only [Stmt.after, Stmt.defines, Names.define_inside hf, Names.skip_functions, Names.vars, hf,
      List.headD_cons, List.mem_cons, beq_iff_eq]
    rw [or_comm, eq_comm]
  | .branch _ cond body (some orElse) => by
    have hinner : (body.after (Γ.skip cond.literals)).functions ≠ [] := by
      cases body
      exact h
    rw [Stmt.after, Stmt.defines, mem_vars_after hinner orElse, Block.after_vars, Names.vars_skip]
  | .branch _ cond body none => by
    simp [Stmt.after, Stmt.defines, Block.after_vars]
  | .loop _ init cond post body => by
    simp [Stmt.after, Stmt.defines, Names.vars]
  | .block body => by simp [Stmt.after, Stmt.defines, Block.after_vars]
  | .assign _ none _ _ | .assign _ (some _) _ _ | .returnValue _ none | .returnValue _ (some _)
  | .expr _ | .breakLoop _ | .continueLoop _ | .exportValue _ _ => by
    simp [Stmt.after, Stmt.defines]

mutual

theorem Stmt.after_literal : (s : Stmt) → (Γ : Names) → (s.after Γ).literal = Γ.literal + s.literals
  | .define _ x e, Γ => by simp [Stmt.after, Stmt.literals]
  | .branch _ cond body none, Γ => by
    rw [Stmt.after, Block.after_literal body, Stmt.literals, Names.skip_literal, Nat.add_assoc]
  | .branch _ cond body (some orElse), Γ => by
    rw [Stmt.after, Stmt.after_literal orElse, Block.after_literal body, Stmt.literals,
      Names.skip_literal]
    omega
  | .loop _ init cond post body, Γ => by
    rw [Stmt.after, Stmt.literals, Names.leave_literal, Stmt.afterPart_literal post,
      Block.after_literal body, Names.skip_literal, Stmt.afterPart_literal init]
    omega
  | .block body, Γ => by rw [Stmt.after, Stmt.literals, Block.after_literal body]
  | .expr e, Γ => rfl
  | .assign _ none place e, Γ => rfl
  | .assign _ (some _) place e, Γ => rfl
  | .breakLoop _, Γ | .continueLoop _, Γ | .returnValue _ none, Γ => rfl
  | .returnValue _ (some e), Γ | .exportValue _ e, Γ => rfl

theorem Stmt.afterPart_literal : (part : Option Stmt) → (Γ : Names) →
    (Stmt.afterPart part Γ).literal = Γ.literal + Stmt.partLiterals part
  | none, _ => rfl
  | some s, Γ => Stmt.after_literal s Γ

theorem Block.after_literal : (body : Block) → (Γ : Names) →
    (body.after Γ).literal = Γ.literal + body.literals
  | .mk _ stmts, Γ => by
    rw [Block.after, Names.leave_literal, Stmt.afterAll_literal stmts, Block.literals]

theorem Stmt.afterAll_literal : (stmts : List Stmt) → (Γ : Names) →
    (Stmt.afterAll stmts Γ).literal = Γ.literal + Stmt.literalsOf stmts
  | [], Γ => rfl
  | s :: rest, Γ => by
    rw [Stmt.afterAll, Stmt.afterAll_literal rest, Stmt.after_literal s, Stmt.literalsOf,
      Nat.add_assoc]

end

/-- The variables that a function literal captures are those of the functions around it that its
body looks up. -/
def Names.Captures (Γ : Names) (params : List String) (body : Block) (x : String) : Prop :=
  Γ.IsVariable x ∧ x ∉ params ∧ body.uses x = true

instance (Γ : Names) (params : List String) (body : Block) (x : String) :
    Decidable (Γ.Captures params body x) := inferInstanceAs (Decidable (_ ∧ _))

end ScriptEngine
