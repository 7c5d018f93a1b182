import ScriptEngine.Program.Basic
/-! What holds of every expression and every statement of a program. -/
namespace ScriptEngine

section Definitions

variable (P : Expr → Prop) (Q : Stmt → Prop)

mutual

/-- `P` holds of all expressions in an expression, itself among them, and `Q` of all statements. -/
def Expr.Every : Expr → Prop
  | .lit pos l => P (.lit pos l)
  | .name pos x => P (.name pos x)
  | .array pos items => P (.array pos items) ∧ Expr.AllEvery items
  | .map pos entries => P (.map pos entries) ∧ Expr.EntriesEvery entries
  | .unary pos op e => P (.unary pos op e) ∧ e.Every
  | .binary pos op left right => P (.binary pos op left right) ∧ left.Every ∧ right.Every
  | .call pos callee args => P (.call pos callee args) ∧ callee.Every ∧ Expr.AllEvery args
  | .index pos container index => P (.index pos container index) ∧ container.Every ∧ index.Every
  | .field pos container x => P (.field pos container x) ∧ container.Every
  | .func pos params body => P (.func pos params body) ∧ body.Every
  | .load pos name => P (.load pos name)

def Expr.AllEvery : List Expr → Prop
  | [] => True
  | e :: rest => e.Every ∧ Expr.AllEvery rest

def Expr.EntriesEvery : List (String × Expr) → Prop
  | [] => True
  | (_, e) :: rest => e.Every ∧ Expr.EntriesEvery rest

def Expr.PartEvery : Option Expr → Prop
  | none => True
  | some e => e.Every

def Stmt.Every : Stmt → Prop
  | .expr e => Q (.expr e) ∧ e.Every
  | .define pos x e => Q (.define pos x e) ∧ e.Every
  | .assign pos op place e => Q (.assign pos op place e) ∧ place.Every ∧ e.Every
  | .branch pos cond body orElse =>
    Q (.branch pos cond body orElse) ∧ cond.Every ∧ body.Every ∧ Stmt.PartEvery orElse
  | .loop pos init cond post body => Q (.loop pos init cond post body) ∧ Stmt.PartEvery init ∧
    Expr.PartEvery cond ∧ Stmt.PartEvery post ∧ body.Every
  | .breakLoop pos => Q (.breakLoop pos)
  | .continueLoop pos => Q (.continueLoop pos)
  | .returnValue pos value => Q (.returnValue pos value) ∧ Expr.PartEvery value
  | .exportValue pos e => Q (.exportValue pos e) ∧ e.Every
  | .block body => Q (.block body) ∧ body.Every

def Stmt.PartEvery : Option Stmt → Prop
  | none => True
  | some s => s.Every

def Block.Every : Block → Prop
  | .mk _ body => Stmt.AllEvery body

def Stmt.AllEvery : List Stmt → Prop
  | [] => True
  | s :: rest => s.Every ∧ Stmt.AllEvery rest

end

end Definitions

variable {P : Expr → Prop} {Q : Stmt → Prop}

theorem Expr.allEvery_iff (items : List Expr) :
    Expr.AllEvery P Q items ↔ ∀ e ∈ items, e.Every P Q := by
  induction items with
  | nil => simp [Expr.AllEvery]
  | cons e rest ih => simp [Expr.AllEvery, ih]

theorem Expr.entriesEvery_iff (entries : List (String × Expr)) :
    Expr.EntriesEvery P Q entries ↔ ∀ entry ∈ entries, entry.2.Every P Q := by
  induction entries with
  | nil => simp [Expr.EntriesEvery]
  | cons entry rest ih => simp [Expr.EntriesEvery, ih]

theorem Stmt.allEvery_iff (body : List Stmt) :
    Stmt.AllEvery P Q body ↔ ∀ s ∈ body, s.Every P Q := by
  induction body with
  | nil => simp [Stmt.AllEvery]
  | cons s rest ih => simp [Stmt.AllEvery, ih]

theorem Expr.partEvery_iff (part : Option Expr) :
    Expr.PartEvery P Q part ↔ ∀ e, part = some e → e.Every P Q := by
  cases part <;> simp [Expr.PartEvery]

theorem Stmt.partEvery_iff (part : Option Stmt) :
    Stmt.PartEvery P Q part ↔ ∀ s, part = some s → s.Every P Q := by
  cases part <;> simp [Stmt.PartEvery]

section Both

variable {P₁ P₂ : Expr → Prop} {Q₁ Q₂ : Stmt → Prop}

mutual

/-- What two facts about every part come to together. -/
theorem Expr.Every.both (hexpr : ∀ e, P₁ e → P₂ e → P e) (hstmt : ∀ s, Q₁ s → Q₂ s → Q s) :
    (e : Expr) → e.Every P₁ Q₁ → e.Every P₂ Q₂ → e.Every P Q
  | .lit .., h, h' | .name .., h, h' | .load .., h, h' => hexpr _ h h'
  | .array _ items, h, h' => ⟨hexpr _ h.1 h'.1, Expr.AllEvery.both hexpr hstmt items h.2 h'.2⟩
  | .map _ entries, h, h' => ⟨hexpr _ h.1 h'.1, Expr.EntriesEvery.both hexpr hstmt entries h.2 h'.2⟩
  | .unary _ _ e, h, h' | .field _ e _, h, h' =>
    ⟨hexpr _ h.1 h'.1, Expr.Every.both hexpr hstmt e h.2 h'.2⟩
  | .binary _ _ left right, h, h' | .index _ left right, h, h' =>
    ⟨hexpr _ h.1 h'.1, Expr.Every.both hexpr hstmt left h.2.1 h'.2.1,
      Expr.Every.both hexpr hstmt right h.2.2 h'.2.2⟩
  | .call _ callee args, h, h' =>
    ⟨hexpr _ h.1 h'.1, Expr.Every.both hexpr hstmt callee h.2.1 h'.2.1,
      Expr.AllEvery.both hexpr hstmt args h.2.2 h'.2.2⟩
  | .func _ _ body, h, h' => ⟨hexpr _ h.1 h'.1, Block.Every.both hexpr hstmt body h.2 h'.2⟩

theorem Expr.AllEvery.both (hexpr : ∀ e, P₁ e → P₂ e → P e) (hstmt : ∀ s, Q₁ s → Q₂ s → Q s) :
    (items : List Expr) → Expr.AllEvery P₁ Q₁ items → Expr.AllEvery P₂ Q₂ items →
    Expr.AllEvery P Q items
  | [], _, _ => trivial
  | e :: rest, h, h' =>
    ⟨Expr.Every.both hexpr hstmt e h.1 h'.1, Expr.AllEvery.both hexpr hstmt rest h.2 h'.2⟩

theorem Expr.EntriesEvery.both (hexpr : ∀ e, P₁ e → P₂ e → P e) (hstmt : ∀ s, Q₁ s → Q₂ s → Q s) :
    (entries : List (String × Expr)) → Expr.EntriesEvery P₁ Q₁ entries →
    Expr.EntriesEvery P₂ Q₂ entries → Expr.EntriesEvery P Q entries
  | [], _, _ => trivial
  | (_, e) :: rest, h, h' =>
    ⟨Expr.Every.both hexpr hstmt e h.1 h'.1, Expr.EntriesEvery.both hexpr hstmt rest h.2 h'.2⟩

theorem Expr.PartEvery.both (hexpr : ∀ e, P₁ e → P₂ e → P e) (hstmt : ∀ s, Q₁ s → Q₂ s → Q s) :
    (part : Option Expr) → Expr.PartEvery P₁ Q₁ part → Expr.PartEvery P₂ Q₂ part →
    Expr.PartEvery P Q part
  | none, _, _ => trivial
  | some e, h, h' => Expr.Every.both hexpr hstmt e h h'

theorem Stmt.Every.both (hexpr : ∀ e, P₁ e → P₂ e → P e) (hstmt : ∀ s, Q₁ s → Q₂ s → Q s) :
    (s : Stmt) → s.Every P₁ Q₁ → s.Every P₂ Q₂ → s.Every P Q
  | .expr e, h, h' | .define _ _ e, h, h' | .exportValue _ e, h, h' =>
    ⟨hstmt _ h.1 h'.1, Expr.Every.both hexpr hstmt e h.2 h'.2⟩
  | .assign _ _ place e, h, h' =>
    ⟨hstmt _ h.1 h'.1, Expr.Every.both hexpr hstmt place h.2.1 h'.2.1,
      Expr.Every.both hexpr hstmt e h.2.2 h'.2.2⟩
  | .branch _ cond body orElse, h, h' =>
    ⟨hstmt _ h.1 h'.1, Expr.Every.both hexpr hstmt cond h.2.1 h'.2.1,
      Block.Every.both hexpr hstmt body h.2.2.1 h'.2.2.1,
      Stmt.PartEvery.both hexpr hstmt orElse h.2.2.2 h'.2.2.2⟩
  | .loop _ init cond post body, h, h' =>
    ⟨hstmt _ h.1 h'.1, Stmt.PartEvery.both hexpr hstmt init h.2.1 h'.2.1,
      Expr.PartEvery.both hexpr hstmt cond h.2.2.1 h'.2.2.1,
      Stmt.PartEvery.both hexpr hstmt post h.2.2.2.1 h'.2.2.2.1,
      Block.Every.both hexpr hstmt body h.2.2.2.2 h'.2.2.2.2⟩
  | .breakLoop _, h, h' | .continueLoop _, h, h' => hstmt _ h h'
  | .returnValue _ value, h, h' =>
    ⟨hstmt _ h.1 h'.1, Expr.PartEvery.both hexpr hstmt value h.2 h'.2⟩
  | .block body, h, h' => ⟨hstmt _ h.1 h'.1, Block.Every.both hexpr hstmt body h.2 h'.2⟩

theorem Stmt.PartEvery.both (hexpr : ∀ e, P₁ e → P₂ e → P e) (hstmt : ∀ s, Q₁ s → Q₂ s → Q s) :
    (part : Option Stmt) → Stmt.PartEvery P₁ Q₁ part → Stmt.PartEvery P₂ Q₂ part →
    Stmt.PartEvery P Q part
  | none, _, _ => trivial
  | some s, h, h' => Stmt.Every.both hexpr hstmt s h h'

theorem Block.Every.both (hexpr : ∀ e, P₁ e → P₂ e → P e) (hstmt : ∀ s, Q₁ s → Q₂ s → Q s) :
    (body : Block) → body.Every P₁ Q₁ → body.Every P₂ Q₂ → body.Every P Q
  | .mk _ body, h, h' => Stmt.AllEvery.both hexpr hstmt body h h'

theorem Stmt.AllEvery.both (hexpr : ∀ e, P₁ e → P₂ e → P e) (hstmt : ∀ s, Q₁ s → Q₂ s → Q s) :
    (body : List Stmt) → Stmt.AllEvery P₁ Q₁ body → Stmt.AllEvery P₂ Q₂ body →
    Stmt.AllEvery P Q body
  | [], _, _ => trivial
  | s :: rest, h, h' =>
    ⟨Stmt.Every.both hexpr hstmt s h.1 h'.1, Stmt.AllEvery.both hexpr hstmt rest h.2 h'.2⟩

end

end Both

end ScriptEngine
