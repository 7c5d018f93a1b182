import ScriptEngine.Proofs.Layout.Expressions
/-! The code of every statement is laid out as its syntax tree says. -/
namespace ScriptEngine.Layout

open Compile

variable {o : ImportOptions} {base : Nat} {load : CompileContext → Pos → String → CompileM Code}
  {ctx : CompileContext} {Γ : Names} {a : Stage} {acc code : Code} {s : CompileState} {pos : Pos}

/-- The operation that stores a value in a name. -/
def fillOp : Storage → Opcode
  | .frame => .setLocal
  | _ => .setGlobal

@[simp] theorem yields_emitStore {σ : Symbol} {t : CompileState} :
    Yields (emitStore pos σ) s code t ↔
      code = #[.plain ⟨fillOp σ.storage, σ.index, 0⟩ (some pos)] ∧
      t = { s with here := s.here + (fillOp σ.storage).size } := by
  unfold emitStore
  cases σ.storage <;> exact yields_emit

/-- Storing in a name that was found. -/
theorem fillAt_of_has {L : Image} {R : Body} {x : String} {storage : Storage} {i p q : Nat}
    (hres : Γ.resolve R.captured x = some (storage, i)) (hwithin : L.Within R storage i)
    (hs : storage = .frame ∨ storage = .global)
    (h : R.Has (some pos) (fillOp storage) i 0 p q) : L.fillAt R Γ pos x p q := by
  rcases hs with rfl | rfl
  · exact ⟨i, Or.inl ⟨hres, hwithin, h⟩⟩
  · exact ⟨i, Or.inr ⟨hres, hwithin, h⟩⟩

theorem yields_assignable {x : String} {σ : Symbol} {t : CompileState}
    (h : Yields (assignable ctx pos x) s σ t) :
    ∃ t', s.symbols.resolve x = (some σ, t') ∧ t = { s with symbols := t' } ∧
      (σ.storage = .frame ∨ σ.storage = .global) := by
  simp only [assignable, yields_bind] at h
  obtain ⟨τ, u, hτ, h⟩ := h
  obtain ⟨t', ht, rfl⟩ := yields_resolve hτ
  cases hs : τ.storage with
  | builtin => simp [hs] at h
  | free => simp [hs] at h
  | global =>
    simp only [hs, yields_pure] at h
    obtain ⟨rfl, rfl⟩ := h
    exact ⟨t', ht, rfl, Or.inr hs⟩
  | frame =>
    simp only [hs, yields_pure] at h
    obtain ⟨rfl, rfl⟩ := h
    exact ⟨t', ht, rfl, Or.inl hs⟩

variable (o base load)

/-- Something that leaves a value on the stack is laid out wherever it is compiled. -/
def EmitsValue (ctx : CompileContext) (value : CompileM Code) (uses : String → Bool) (n : Nat)
    (V : Image → Body → Names → (p q : Nat) → Prop) : Prop :=
  ∀ {Γ : Names} {a : Stage} {code : Code} {s : CompileState},
    Ready (.of ctx) Γ a → Yields value a.state code s →
      ∃ log, Emitted o base (.of ctx) (Looks Γ uses) Γ (Γ.skip n) a code ⟨s, log⟩
        (fun L R _ p q => V L R Γ p q)

/-- The store in a target is laid out if what is stored is. -/
def EmitsStore (place : Expr) : Prop :=
  ∀ (ctx : CompileContext) {pos : Pos} {value : CompileM Code} {uses : String → Bool} {n : Nat}
    {V : Image → Body → Names → (p q : Nat) → Prop},
    EmitsValue o base ctx value uses n V →
      EmitsValue o base ctx (store load ctx pos value place) (fun x => place.uses x || uses x)
        (place.storeLiterals n) (fun L R Γ p q => L.storeAt R pos (V L R) Γ place p q)

/-- The code of a statement is laid out wherever it is compiled. -/
def EmitsStmt (t : Stmt) : Prop :=
  ∀ (ctx : CompileContext) {Γ : Names} {a : Stage} {code : Code} {s : CompileState},
    Ready (.of ctx) Γ a → Yields (stmt load ctx t) a.state code s →
      ∃ log, Emitted o base (.of ctx) (Looks Γ (t.uses ·)) Γ (t.after Γ) a code ⟨s, log⟩
        (fun L R J p q => L.stmtAt R J Γ t p q)

def EmitsBlock (body : Block) : Prop :=
  ∀ (ctx : CompileContext) {Γ : Names} {a : Stage} {code : Code} {s : CompileState},
    Ready (.of ctx) Γ a → Yields (block load ctx body) a.state code s →
      ∃ log, Emitted o base (.of ctx) (Looks Γ (body.uses ·)) Γ (body.after Γ) a code ⟨s, log⟩
        (fun L R J p q => L.blockAt R J Γ body p q)

def EmitsStmts (body : List Stmt) : Prop :=
  ∀ (ctx : CompileContext) {Γ : Names} {a : Stage} {acc out : Code} {s : CompileState},
    Ready (.of ctx) Γ a → Yields (stmts load ctx body acc) a.state out s →
      ∃ code log, out = acc ++ code ∧
        Emitted o base (.of ctx) (Looks Γ (Stmt.usesAny · body)) Γ (Stmt.afterAll body Γ) a code
          ⟨s, log⟩ (fun L R J p q => L.stmtsAt R J Γ body p q)

variable {o base load}

section Stores

variable {place : Pos} {x : String} {container i : Expr}

theorem EmitsStore.name : EmitsStore o base load (.name place x) := by
  intro ctx pos value uses n V hvalue Γ a code s hready h
  rw [store] at h
  simp only [yields_bind, yields_emitStore, yields_pure] at h
  obtain ⟨σ, _, hσ, code, u, hcode, _, _, ⟨rfl, rfl⟩, rfl, rfl⟩ := h
  obtain ⟨t, ht, rfl, hs⟩ := yields_assignable hσ
  have hres := Emitted.resolve o base hready ht
  obtain ⟨log, hemit⟩ := hvalue hres.ready hcode
  have hfill := Emitted.instruction o base hemit.ready (some pos)
    (fillOp σ.storage) σ.index 0
  have hall := (hres.seq hemit).seq hfill
  simp only [Array.empty_append] at hall
  refine ⟨log, hall.imp (fun _ y => ?_) ?_⟩
  · simp only [Looks, Expr.uses, Bool.or_eq_true, beq_iff_eq, or_false, @eq_comm _ x y]
    tauto
  · rintro L R J p q ⟨⟨⟨rfl, hfound, hwithin⟩, hv⟩, hhas⟩
    exact ⟨_, hv, fillAt_of_has hfound hwithin hs hhas⟩

theorem EmitsStore.index (hc : EmitsExpr o base load container)
    (hi : EmitsExpr o base load i) (hs : EmitsStore o base load container) :
    EmitsStore o base load (.index place container i) := by
  intro ctx pos value uses n V hvalue Γ a code s hready h
  rw [store] at h
  have hinner : EmitsValue o base ctx (do
      let code ← expr load ctx container
      let second ← expr load ctx i
      let third ← value
      let replace ← emit pos .setIndex 0 0
      pure (code ++ second ++ third ++ replace))
      (fun x => container.uses x || (i.uses x || uses x))
      (container.literals + i.literals + n)
      (fun L R Γ p q => ∃ m n k, L.exprAt R Γ container p m ∧
        L.exprAt R (Γ.skip container.literals) i m n ∧
        V L R (Γ.skip (container.literals + i.literals)) n k ∧
        R.Has (some pos) .setIndex 0 0 k q) := by
    intro Γ a code s hready h
    simp only [yields_bind, yields_emit, yields_pure] at h
    obtain ⟨first, _, hfirst, second, _, hsecond, third, _, hthird, _, _, ⟨rfl, rfl⟩, rfl, rfl⟩ := h
    obtain ⟨_, h₁⟩ := hc ctx hready hfirst
    obtain ⟨_, h₂⟩ := hi ctx h₁.ready hsecond
    obtain ⟨log, h₃⟩ := hvalue h₂.ready hthird
    have h₄ := Emitted.instruction o base h₃.ready (some pos) .setIndex 0 0
    have hall := ((h₁.seq h₂).seq h₃).seq h₄
    simp only [Names.skip_skip] at hall
    refine ⟨log, hall.imp (fun _ x => ?_) ?_⟩
    · simp only [Looks, Names.vars_skip, Bool.or_eq_true]
      tauto
    · rintro L R J p q ⟨⟨⟨l₁, l₂⟩, l₃⟩, l₄⟩
      exact ⟨_, _, _, l₁, l₂, l₃, l₄⟩
  obtain ⟨log, hemit⟩ := hs ctx hinner hready h
  refine ⟨log, hemit.imp (fun _ x => ?_) fun L R J p q h => h⟩
  simp only [Looks, Expr.uses, Bool.or_eq_true]
  tauto

theorem EmitsStore.field (hc : EmitsExpr o base load container)
    (hs : EmitsStore o base load container) :
    EmitsStore o base load (.field place container x) := by
  intro ctx pos value uses n V hvalue Γ a code s hready h
  rw [store] at h
  have hinner : EmitsValue o base ctx (do
      let code ← expr load ctx container
      let key ← emitConstant ctx place (.string x)
      let third ← value
      let replace ← emit pos .setIndex 0 0
      pure (code ++ key ++ third ++ replace))
      (fun y => container.uses y || uses y) (container.literals + n)
      (fun L R Γ p q => ∃ m n k, L.exprAt R Γ container p m ∧
        L.constantAt R place (.string x) m n ∧ V L R (Γ.skip container.literals) n k ∧
        R.Has (some pos) .setIndex 0 0 k q) := by
    intro Γ a code s hready h
    simp only [yields_bind, yields_emitConstant, yields_emit, yields_pure] at h
    obtain ⟨first, _, hfirst, _, _, ⟨hsize, rfl, rfl⟩, third, _, hthird, _, _, ⟨rfl, rfl⟩, rfl,
      rfl⟩ := h
    obtain ⟨_, h₁⟩ := hc ctx hready hfirst
    have h₂ := Emitted.constant o base h₁.ready place (.string x) hsize
      fun _ _ _ => trivial
    obtain ⟨log, h₃⟩ := hvalue h₂.ready hthird
    have h₄ := Emitted.instruction o base h₃.ready (some pos) .setIndex 0 0
    have hall := ((h₁.seq h₂).seq h₃).seq h₄
    simp only [Names.skip_skip] at hall
    refine ⟨log, hall.imp (fun _ y => ?_) ?_⟩
    · simp only [Looks, Names.vars_skip, Bool.or_eq_true]
      tauto
    · rintro L R J p q ⟨⟨⟨l₁, l₂⟩, l₃⟩, l₄⟩
      exact ⟨_, _, _, l₁, l₂, l₃, l₄⟩
  obtain ⟨log, hemit⟩ := hs ctx hinner hready h
  refine ⟨log, hemit.imp (fun _ y => ?_) fun L R J p q h => h⟩
  simp only [Looks, Expr.uses, Bool.or_eq_true]
  tauto

/-- Nothing else can be assigned to. -/
theorem EmitsStore.other {e : Expr} (he : e.isTarget = false) : EmitsStore o base load e := by
  intro ctx pos value uses n V hvalue Γ a code s hready h
  cases e <;> simp [Expr.isTarget] at he <;> simp [store] at h

end Stores

section Statements

attribute [local simp] Stmt.uses

variable {x : String} {e place : Expr} {body : Block} {orElse : Stmt}

theorem EmitsStmt.expr (he : EmitsExpr o base load e) : EmitsStmt o base load (.expr e) := by
  intro ctx Γ _ code s hstart hrun
  refine traced (fun a hready h => ?_) hstart hrun
  dsimp only at h
  simp only [yields_bind, yields_emit, yields_pure] at h
  obtain ⟨code, t, hcode, _, _, ⟨rfl, rfl⟩, rfl, rfl⟩ := h
  obtain ⟨log, h₁⟩ := he ctx.inner hready hcode
  have h₂ := Emitted.instruction o base h₁.ready (some e.pos) .pop 0 0
  refine ⟨log, (h₁.seq h₂).imp (fun _ x => ?_) fun L R J p q h => ⟨_, h⟩⟩
  simp [Looks, Stmt.uses]

theorem looks_define {uses : String → Bool} (h : Γ.functions ≠ []) (x y : String) :
    Looks (Γ.define x) uses y ↔ Looks Γ (fun y => !(x == y) && uses y) y := by
  obtain ⟨vars, around, hf⟩ := List.exists_cons_of_ne_nil h
  simp only [Looks, Names.define_inside hf, Names.vars, hf, List.headD_cons, List.mem_cons,
    Bool.and_eq_true, Bool.not_eq_true', beq_eq_false_iff_ne, ne_eq, not_or, @eq_comm _ y x]
  tauto

/-- A function's name is known in its body; in a function it is undefined at first. -/
theorem EmitsStmt.defineFunction (he : EmitsExpr o base load e) (hfunc : e.isFunc = true) :
    EmitsStmt o base load (.define pos x e) := by
  intro ctx Γ _ code s hstart hrun
  refine traced (fun a hready h => ?_) hstart hrun
  dsimp only at h
  rw [yields_bind] at h
  obtain ⟨_, _, hget, h⟩ := h
  obtain ⟨rfl, rfl⟩ := yields_get.mp hget
  simp only [yields_ite, yields_fail, and_false, false_or, hfunc, if_true] at h
  obtain ⟨-, h⟩ := h
  rw [yields_bind] at h
  obtain ⟨σ, _, hσ, h⟩ := h
  obtain ⟨t, hdefine, rfl, hslot⟩ := yields_define hσ
  have h₁ := Emitted.define o base hready hdefine hslot
  have hused (hf : Γ.functions ≠ []) (y : String) :
      Looks (Γ.define x) (e.uses ·) y ↔ Looks Γ ((Stmt.define pos x e).uses ·) y := by
    simp only [looks_define hf, Stmt.uses, hfunc, Bool.true_and]
  rcases hready.fits.define_storage hdefine with ⟨hs, hf⟩ | ⟨hs, hf⟩
  · simp only [hs, yields_bind, yields_emit, yields_emitStore, yields_pure] at h
    obtain ⟨_, _, ⟨rfl, rfl⟩, _, _, ⟨rfl, rfl⟩, _, _, ⟨rfl, rfl⟩, body, u, hbody, _, _, ⟨rfl, rfl⟩,
      rfl, rfl⟩ := h
    have h₂ := Emitted.instruction o base h₁.ready (some pos) .undefined 0 0
    have h₃ := Emitted.instruction o base h₂.ready (some pos) .setLocal σ.index 0
    obtain ⟨log, h₄⟩ := he ctx.inner h₃.ready hbody
    have h₅ := Emitted.instruction o base h₄.ready (some pos) .setLocal σ.index 0
    have hall := (((h₁.seq h₂).seq h₃).seq h₄).seq h₅
    simp only [Array.empty_append] at hall
    refine ⟨log, hall.imp (fun _ y => ?_) ?_⟩
    · refine Iff.trans ?_ (hused hf y)
      tauto
    · rintro L R J p q ⟨⟨⟨⟨⟨rfl, hres, hwithin, _⟩, l₂⟩, l₃⟩, l₄⟩, l₅⟩
      have hres' : (Γ.define x).resolve R.captured x = some (.frame, σ.index) := hs ▸ hres
      have hlt : σ.index < R.locals := by simpa [hs, Image.Within] using hwithin
      obtain ⟨vars, around, hcons⟩ := List.exists_cons_of_ne_nil hf
      simp only [Image.stmtAt, hfunc, if_true, hcons]
      exact ⟨_, _, ⟨_, l₂, _, Or.inl ⟨hres', hlt, l₃⟩⟩, l₄, _, Or.inl ⟨hres', hlt, l₅⟩⟩
  · simp only [hs, yields_bind, yields_emitStore, yields_pure] at h
    obtain ⟨_, _, ⟨rfl, rfl⟩, body, u, hbody, _, _, ⟨rfl, rfl⟩, rfl, rfl⟩ := h
    obtain ⟨log, h₂⟩ := he ctx.inner h₁.ready hbody
    have h₃ := Emitted.instruction o base h₂.ready (some pos) .setGlobal σ.index 0
    have hall := (h₁.seq h₂).seq h₃
    simp only [Array.empty_append] at hall
    simp only [Array.empty_append]
    refine ⟨log, hall.imp (fun hn => absurd hf hn) ?_⟩
    rintro L R J p q ⟨⟨⟨rfl, hres, hwithin, _⟩, l₂⟩, l₃⟩
    have hres' : (Γ.define x).resolve R.captured x = some (.global, σ.index) := hs ▸ hres
    have hlt : σ.index < L.cells := by simpa [hs, Image.Within] using hwithin
    simp only [Image.stmtAt, hfunc, if_true, hf]
    exact ⟨_, _, rfl, l₂, _, Or.inr ⟨hres', hlt, l₃⟩⟩

/-- Other values come before the name that they are defined as. -/
theorem EmitsStmt.defineValue (he : EmitsExpr o base load e) (hfunc : e.isFunc = false) :
    EmitsStmt o base load (.define pos x e) := by
  intro ctx Γ _ code s hstart hrun
  refine traced (fun a hready h => ?_) hstart hrun
  dsimp only at h
  rw [yields_bind] at h
  obtain ⟨_, _, hget, h⟩ := h
  obtain ⟨rfl, rfl⟩ := yields_get.mp hget
  simp only [yields_ite, yields_fail, and_false, false_or, hfunc, Bool.false_eq_true, if_false,
    yields_bind, yields_emitStore, yields_pure] at h
  obtain ⟨-, code, t, hcode, σ, _, hσ, _, _, ⟨rfl, rfl⟩, rfl, rfl⟩ := h
  obtain ⟨t', hdefine, rfl, hslot⟩ := yields_define hσ
  obtain ⟨log, h₁⟩ := he ctx.inner hready hcode
  have h₂ := Emitted.define o base h₁.ready hdefine hslot
  have h₃ := Emitted.instruction o base h₂.ready (some pos) (fillOp σ.storage)
    σ.index 0
  have hall := (h₁.seq h₂).seq h₃
  simp only [Array.append_empty] at hall
  have hnames : (Γ.skip e.literals).define x = (Γ.define x).skip e.literals := by
    unfold Names.define Names.skip
    cases Γ.functions <;> rfl
  rw [hnames] at hall
  refine ⟨log, hall.imp (fun _ y => ?_) ?_⟩
  · simp [Looks, Stmt.uses, hfunc]
  · rintro L R J p q ⟨⟨l₁, ⟨-, hres, hwithin, hs⟩⟩, l₃⟩
    rw [Names.resolve_skip] at hres
    simp only [Image.stmtAt, hfunc]
    exact ⟨_, l₁, fillAt_of_has hres hwithin hs l₃⟩

theorem EmitsStmt.assign (he : EmitsExpr o base load e) (hs : EmitsStore o base load place) :
    EmitsStmt o base load (.assign pos none place e) := by
  intro ctx Γ _ code s hstart hrun
  refine traced (fun a hready h => ?_) hstart hrun
  dsimp only at h
  obtain ⟨log, hemit⟩ := hs ctx.inner (fun hready h => he ctx.inner hready h) hready h
  refine ⟨log, hemit.imp (fun _ y => ?_) fun L R J p q h => h⟩
  simp [Looks, Stmt.uses]

theorem EmitsStmt.update {op : ArithOp} (hp : EmitsExpr o base load place)
    (he : EmitsExpr o base load e) (hs : EmitsStore o base load place) :
    EmitsStmt o base load (.assign pos (some op) place e) := by
  intro ctx Γ _ code s hstart hrun
  refine traced (fun a hready h => ?_) hstart hrun
  dsimp only at h
  have hinner : EmitsValue o base ctx.inner (do
      let first ← Compile.expr load ctx.inner place
      let second ← Compile.expr load ctx.inner e
      let apply ← emit pos (.arith op) 0 0
      pure (first ++ second ++ apply)) (fun x => place.uses x || e.uses x)
      (place.literals + e.literals)
      (fun L R Γ p q => ∃ m n, L.exprAt R Γ place p m ∧
        L.exprAt R (Γ.skip place.literals) e m n ∧ R.Has (some pos) (.arith op) 0 0 n q) := by
    intro Γ a code s hready h
    simp only [yields_bind, yields_emit, yields_pure] at h
    obtain ⟨first, _, hfirst, second, _, hsecond, _, _, ⟨rfl, rfl⟩, rfl, rfl⟩ := h
    obtain ⟨_, h₁⟩ := hp ctx.inner hready hfirst
    obtain ⟨log, h₂⟩ := he ctx.inner h₁.ready hsecond
    have h₃ := Emitted.instruction o base h₂.ready (some pos) (.arith op) 0 0
    have hall := (h₁.seq h₂).seq h₃
    rw [Names.skip_skip] at hall
    refine ⟨log, hall.imp (fun _ x => ?_) ?_⟩
    · simp only [Looks, Names.vars_skip, Bool.or_eq_true]
      tauto
    · rintro L R J p q ⟨⟨l₁, l₂⟩, l₃⟩
      exact ⟨_, _, l₁, l₂, l₃⟩
  obtain ⟨log, hemit⟩ := hs ctx.inner hinner hready h
  refine ⟨log, hemit.imp (fun _ y => ?_) fun L R J p q h => h⟩
  simp only [Looks, Stmt.uses, Bool.or_eq_true]
  tauto

theorem EmitsStmt.branch {cond : Expr} (hc : EmitsExpr o base load cond)
    (hb : EmitsBlock o base load body) : EmitsStmt o base load (.branch pos cond body none) := by
  intro ctx Γ _ code s hstart hrun
  refine traced (fun a hready h => ?_) hstart hrun
  dsimp only at h
  simp only [yields_bind, yields_lay, yields_target, yields_pure] at h
  obtain ⟨test, _, htest, _, _, rfl, inner, u, hinner, _, _, ⟨rfl, hbehind, rfl⟩, rfl, rfl⟩ := h
  obtain ⟨_, h₁⟩ := hc ctx.inner hready htest
  have h₂ := Emitted.instruction o base h₁.ready (some pos) .jumpFalsy s.here 0
  obtain ⟨log, h₃⟩ := hb ctx.inner h₂.ready hinner
  have hall := (h₁.seq h₂).seq h₃
  rw [Array.push_eq_append]
  refine ⟨log, hall.mono (fun _ y => ?_) ?_⟩
  · simp only [Looks, Stmt.uses, Names.vars_skip, Bool.or_eq_true]
    tauto
  · rintro L R J - - - ⟨⟨l₁, l₂⟩, l₃⟩
    exact ⟨hbehind, _, _, l₁, l₂, l₃⟩

theorem EmitsStmt.branchElse {cond : Expr} (hc : EmitsExpr o base load cond)
    (hb : EmitsBlock o base load body) (ho : EmitsStmt o base load orElse) :
    EmitsStmt o base load (.branch pos cond body (some orElse)) := by
  intro ctx Γ _ code s hstart hrun
  refine traced (fun a hready h => ?_) hstart hrun
  dsimp only at h
  simp only [yields_bind, yields_lay, yields_target, yields_pure] at h
  obtain ⟨test, _, htest, _, _, rfl, inner, u, hinner, _, _, rfl, _, _, ⟨rfl, hsecond, rfl⟩, other,
    v, hother, _, _, ⟨rfl, hbehind, rfl⟩, rfl, rfl⟩ := h
  obtain ⟨_, h₁⟩ := hc ctx.inner hready htest
  have h₂ := Emitted.instruction o base h₁.ready (some pos) .jumpFalsy
    (u.here + Opcode.jump.size) 0
  obtain ⟨_, h₃⟩ := hb ctx.inner h₂.ready hinner
  have h₄ := Emitted.instruction o base h₃.ready (some pos) .jump s.here 0
  obtain ⟨log, h₅⟩ := ho ctx.inner h₄.ready hother
  have hall := (((h₁.seq h₂).seq h₃).seq h₄).seq h₅
  simp only [Array.push_eq_append]
  refine ⟨log, hall.mono (fun _ y => ?_) ?_⟩
  · simp only [Looks, Stmt.uses, Block.after_vars, Names.vars_skip, Bool.or_eq_true]
    tauto
  · rintro L R J - - - ⟨⟨⟨⟨l₁, l₂⟩, l₃⟩, l₄⟩, l₅⟩
    exact ⟨hbehind, _, _, _, _, l₁, l₂, l₃, l₄, l₅⟩

theorem EmitsStmt.breakLoop : EmitsStmt o base load (.breakLoop pos) := by
  intro ctx Γ _ code s hstart hrun
  refine traced (fun a hready h => ?_) hstart hrun
  dsimp only at h
  simp only [yields_ite, yields_fail, and_false, or_false, yields_bind, yields_lay,
    yields_pure] at h
  obtain ⟨hloop, _, _, rfl, rfl, rfl⟩ := h
  exact ⟨_, (Emitted.openJump hready hloop (.breakJump pos) pos Prod.fst rfl
    (fun _ _ => rfl)).imp (by simp [Looks, Stmt.uses]) fun L R J p q h => h⟩

theorem EmitsStmt.continueLoop : EmitsStmt o base load (.continueLoop pos) := by
  intro ctx Γ _ code s hstart hrun
  refine traced (fun a hready h => ?_) hstart hrun
  dsimp only at h
  simp only [yields_ite, yields_fail, and_false, or_false, yields_bind, yields_lay,
    yields_pure] at h
  obtain ⟨hloop, _, _, rfl, rfl, rfl⟩ := h
  exact ⟨_, (Emitted.openJump hready hloop (.continueJump pos) pos Prod.snd rfl
    (fun _ _ => rfl)).imp (by simp [Looks, Stmt.uses]) fun L R J p q h => h⟩

theorem EmitsStmt.returnNone : EmitsStmt o base load (.returnValue pos none) := by
  intro ctx Γ _ code s hstart hrun
  refine traced (fun a hready h => ?_) hstart hrun
  dsimp only at h
  simp only [yields_ite, yields_fail, and_false, or_false, yields_emit] at h
  obtain ⟨hinside, rfl, rfl⟩ := h
  refine ⟨_, (Emitted.instruction _ _ hready (some pos) .ret 0 0).imp (by simp [Looks, Stmt.uses]) ?_⟩
  exact fun L R J p q h => ⟨hready.inside hinside, h⟩

theorem EmitsStmt.returnSome (he : EmitsExpr o base load e) :
    EmitsStmt o base load (.returnValue pos (some e)) := by
  intro ctx Γ _ code s hstart hrun
  refine traced (fun a hready h => ?_) hstart hrun
  dsimp only at h
  simp only [yields_ite, yields_fail, and_false, or_false, yields_bind, yields_emit,
    yields_pure] at h
  obtain ⟨hinside, code, t, hcode, _, _, ⟨rfl, rfl⟩, rfl, rfl⟩ := h
  obtain ⟨log, h₁⟩ := he ctx.inner hready hcode
  have h₂ := Emitted.instruction o base h₁.ready (some pos) .ret 1 0
  refine ⟨log, (h₁.seq h₂).imp (by simp [Looks, Stmt.uses]) ?_⟩
  exact fun L R J p q h => ⟨hready.inside hinside, _, h⟩

theorem EmitsStmt.exportValue (he : EmitsExpr o base load e) :
    EmitsStmt o base load (.exportValue pos e) := by
  intro ctx Γ _ code s hstart hrun
  refine traced (fun a hready h => ?_) hstart hrun
  dsimp only at h
  simp only [yields_ite, yields_fail, and_false, or_false, yields_bind, yields_emit,
    yields_pure] at h
  obtain ⟨hmodule, code, t, hcode, _, _, ⟨rfl, rfl⟩, rfl, rfl⟩ := h
  have hinside : (ctx.inFunction || ctx.inModule) = true := by
    simp only [Bool.and_eq_true] at hmodule
    simp [show ctx.inModule = true from hmodule.1]
  obtain ⟨log, h₁⟩ := he ctx.inner hready hcode
  have h₂ := Emitted.instruction o base h₁.ready (some pos) .ret 1 0
  refine ⟨log, (h₁.seq h₂).imp (by simp [Looks, Stmt.uses]) ?_⟩
  exact fun L R J p q h => ⟨hready.inside hinside, _, h⟩

theorem EmitsStmt.block (hb : EmitsBlock o base load body) :
    EmitsStmt o base load (.block body) := by
  intro ctx Γ _ code s hstart hrun
  refine traced (fun a hready h => ?_) hstart hrun
  obtain ⟨log, hemit⟩ := hb ctx.inner hready h
  exact ⟨log, hemit.imp (by simp [Looks, Stmt.uses]) fun L R J p q h => h⟩

theorem EmitsStmts.nil : EmitsStmts o base load [] := by
  intro ctx Γ a acc out s hready h
  rw [stmts] at h
  obtain ⟨rfl, rfl⟩ := yields_pure.mp h
  exact ⟨#[], a.log, by simp, (Emitted.nil hready).imp (by simp [Looks, Stmt.usesAny])
    fun L R J p q h => h⟩

theorem EmitsStmts.cons {t : Stmt} {rest : List Stmt} (ht : EmitsStmt o base load t)
    (hrest : EmitsStmts o base load rest) : EmitsStmts o base load (t :: rest) := by
  intro ctx Γ a acc out s hready h
  rw [stmts] at h
  obtain ⟨first, u, hfirst, h⟩ := yields_bind.mp h
  obtain ⟨_, h₁⟩ := ht ctx hready hfirst
  obtain ⟨more, log, rfl, h₂⟩ := hrest ctx h₁.ready h
  refine ⟨first ++ more, log, by simp, (h₁.seq h₂).imp (fun hf y => ?_) ?_⟩
  · simp only [Looks, Stmt.usesAny, Stmt.mem_vars_after hf, Bool.or_eq_true, Bool.and_eq_true,
      Bool.not_eq_true', Bool.eq_false_iff, ne_eq]
    tauto
  · rintro L R J p q ⟨l₁, l₂⟩
    exact ⟨_, l₁, l₂⟩

theorem Ready.enterBlock {π : Place} (h : Ready π Γ a) :
    Ready π Γ ⟨{ a.state with symbols := a.state.symbols.enterBlock }, a.log⟩ :=
  ⟨h.fits.enterBlock, h.made, h.inside⟩

theorem EmitsBlock.mk {blockPos : Pos} {stmts : List Stmt} (hs : EmitsStmts o base load stmts) :
    EmitsBlock o base load (.mk blockPos stmts) := by
  intro ctx Γ a code s hready h
  rw [Compile.block] at h
  simp only [yields_bind, yields_enterBlock, yields_leaveBlock, yields_pure] at h
  obtain ⟨_, _, rfl, code, t, hcode, _, _, rfl, rfl, rfl⟩ := h
  obtain ⟨inner, log, rfl, hemit⟩ := hs ctx hready.enterBlock hcode
  simp only [Array.empty_append]
  refine ⟨log, (Emitted.block hready hemit).imp (by simp [Looks, Block.uses]) ?_⟩
  exact fun L R J p q h => h

theorem EmitsBody.mk {blockPos : Pos} {stmts : List Stmt} (hs : EmitsStmts o base load stmts) :
    EmitsBody o base load (.mk blockPos stmts) := by
  intro ctx pos Γ a code s hready h
  rw [funcBody] at h
  obtain ⟨inner, t, hinner, h⟩ := yields_bind.mp h
  obtain ⟨inner, log, rfl, h₁⟩ := hs ctx hready hinner
  rw [yields_ite] at h
  rcases h with ⟨hlast, h⟩ | ⟨hlast, h⟩
  · obtain ⟨rfl, rfl⟩ := yields_pure.mp h
    refine ⟨log, _, Stmt.afterAll_literal _ _, ?_⟩
    simp only [Array.empty_append]
    refine h₁.imp (by simp [Looks, Block.uses]) fun L R J p q h => ⟨q, h, ?_⟩
    simp only [Block.stmts, if_pos hlast]
  · simp only [yields_bind, yields_emit, yields_pure] at h
    obtain ⟨_, _, ⟨rfl, rfl⟩, rfl, rfl⟩ := h
    have h₂ := Emitted.instruction o base h₁.ready (some pos) .ret 0 0
    refine ⟨log, _, Stmt.afterAll_literal _ _, ?_⟩
    simp only [Array.empty_append]
    refine (h₁.seq h₂).imp (by simp [Looks, Block.uses]) fun L R J p q h => ⟨_, h.1, ?_⟩
    rw [Block.stmts, if_neg hlast]
    exact h.2

/-- The code of a part that a loop may lack. -/
def partCode (load : CompileContext → Pos → String → CompileM Code) (ctx : CompileContext) :
    Option Stmt → CompileM Code
  | none => pure #[]
  | some t => stmt load ctx t

/-- The condition of a loop; room for the jump that leaves the loop lies behind it. -/
def testCode (load : CompileContext → Pos → String → CompileM Code) (ctx : CompileContext) :
    Option Expr → CompileM Code
  | none => pure #[]
  | some e => do
    let test ← Compile.expr load ctx e
    lay .jumpFalsy
    pure test

/-- The jump that leaves a loop with a condition. -/
def exitCode (pos : Pos) (loopEnd : Nat) : Option Expr → Code
  | none => #[]
  | some _ => #[.plain ⟨.jumpFalsy, loopEnd, 0⟩ (some pos)]

theorem stmt_loop (load : CompileContext → Pos → String → CompileM Code) (ctx : CompileContext)
    (pos : Pos) (init : Option Stmt) (cond : Option Expr) (post : Option Stmt) (body : Block) :
    stmt load ctx (.loop pos init cond post body) = (do
      note ctx ((Stmt.loop pos init cond post body).label ++ " @ " ++ pos.text)
      enterBlock
      let start ← partCode load ctx.inner init
      let loopStart ← here
      let test ← testCode load ctx.inner cond
      let code ← Compile.block load ctx.inner.looping body
      let lastPart ← here
      let last ← partCode load ctx.inner post
      let back ← emit pos .jump loopStart 0
      let behind ← target ctx.inner pos
      leaveBlock
      pure (start ++ test ++ exitCode pos behind cond ++ Code.close behind lastPart code ++ last ++
        back)) := by
  cases cond with
  | none => cases init <;> cases post <;> rfl
  | some e =>
    have htest (k : Code → CompileM Code) :
        testCode load ctx.inner (some e) >>= k = (do
          let test ← Compile.expr load ctx.inner e
          lay .jumpFalsy
          let test ← pure test
          k test) := by
      simp [testCode]
    simp only [htest]
    cases init <;> cases post <;> rfl

variable (ctx) in
theorem part_emitted {part : Option Stmt} (hpart : ∀ t, part = some t → EmitsStmt o base load t)
    (hready : Ready (.of ctx) Γ a) (h : Yields (partCode load ctx part) a.state code s) :
    ∃ log, Emitted o base (.of ctx) (Looks Γ (Stmt.partUses · part)) Γ (Stmt.afterPart part Γ) a
      code ⟨s, log⟩ (fun L R J p q => L.partAt R J Γ part p q) := by
  cases part with
  | none =>
    obtain ⟨rfl, rfl⟩ := yields_pure.mp h
    exact ⟨a.log, (Emitted.nil hready).imp (by simp [Looks, Stmt.partUses]) fun L R J p q h => h⟩
  | some t =>
    obtain ⟨log, hemit⟩ := hpart t rfl ctx hready h
    exact ⟨log, hemit.imp (by simp [Looks, Stmt.partUses]) fun L R J p q h => h⟩

variable (ctx pos) in
theorem test_emitted {cond : Option Expr} (hcond : ∀ e, cond = some e → EmitsExpr o base load e)
    (hready : Ready (.of ctx) Γ a) (h : Yields (testCode load ctx cond) a.state code s)
    (loopEnd : Nat) :
    ∃ log, Emitted o base (.of ctx) (Looks Γ (Expr.partUses · cond)) Γ
      (Γ.skip (Expr.partLiterals cond)) a (code ++ exitCode pos loopEnd cond) ⟨s, log⟩
      (fun L R _ p q => L.testAt R Γ pos loopEnd cond p q) := by
  cases cond with
  | none =>
    obtain ⟨rfl, rfl⟩ := yields_pure.mp h
    exact ⟨a.log, (Emitted.nil hready).imp (by simp [Looks, Expr.partUses]) fun L R J p q h => h⟩
  | some e =>
    simp only [testCode, yields_bind, yields_lay, yields_pure] at h
    obtain ⟨test, t, htest, _, _, rfl, rfl, rfl⟩ := h
    obtain ⟨log, h₁⟩ := hcond e rfl ctx hready htest
    have h₂ := Emitted.instruction o base h₁.ready (some pos) .jumpFalsy loopEnd 0
    exact ⟨log, (h₁.seq h₂).imp (by simp [Looks, Expr.partUses]) fun L R J p q h => ⟨_, h⟩⟩

theorem mem_vars_afterPart {y : String} (h : Γ.functions ≠ []) (part : Option Stmt) :
    y ∈ (Stmt.afterPart part Γ).vars ↔ y ∈ Γ.vars ∨ Stmt.partDefines y part = true := by
  cases part with
  | none => simp [Stmt.afterPart, Stmt.partDefines]
  | some t => exact Stmt.mem_vars_after h t

/-- A loop has names of its own, and the jumps of its body are closed behind it. -/
theorem EmitsStmt.loop {init post : Option Stmt} {cond : Option Expr}
    (hinit : ∀ t, init = some t → EmitsStmt o base load t)
    (hcond : ∀ e, cond = some e → EmitsExpr o base load e)
    (hpost : ∀ t, post = some t → EmitsStmt o base load t)
    (hbody : EmitsBlock o base load body) :
    EmitsStmt o base load (.loop pos init cond post body) := by
  intro ctx Γ _ code s hstart hrun
  rw [stmt_loop] at hrun
  refine traced (fun a hready h => ?_) hstart hrun
  simp only [yields_bind, yields_here, yields_emit, yields_target, yields_enterBlock,
    yields_leaveBlock, yields_pure] at h
  obtain ⟨_, _, rfl, start, _, hstart', _, u, ⟨rfl, rfl⟩, test, _, htest, inner, _, hinner, _, v,
    ⟨rfl, rfl⟩, last, w, hlast, _, _, ⟨rfl, rfl⟩, _, _, ⟨rfl, hbehind, rfl⟩, _, _, rfl, rfl,
    rfl⟩ := h
  obtain ⟨_, h₁⟩ := part_emitted ctx.inner hinit hready.enterBlock hstart'
  obtain ⟨_, h₂⟩ := test_emitted ctx.inner pos hcond h₁.ready htest
    (w.here + Opcode.jump.size)
  obtain ⟨_, h₃⟩ := hbody ctx.inner.looping
    ⟨h₂.ready.fits, h₂.ready.made, h₂.ready.inside⟩ hinner
  have h₃ := Emitted.close ctx.inLoop h₃ (w.here + Opcode.jump.size) v.here
  obtain ⟨log, h₄⟩ := part_emitted ctx.inner hpost h₃.ready hlast
  have h₅ := Emitted.instruction o base h₄.ready (some pos) .jump u.here 0
  have hall := Emitted.block hready ((((h₁.seq h₂).seq h₃).seq h₄).seq h₅)
  simp only [← Array.append_assoc] at hall
  refine ⟨log, hall.mono (fun hf y => ?_) ?_⟩
  · simp only [Looks, Stmt.uses, Block.after_vars, Names.vars_skip, mem_vars_afterPart hf,
      Bool.or_eq_true, Bool.and_eq_true, Bool.not_eq_true', Bool.eq_false_iff, ne_eq]
    tauto
  · rintro L R J - - - ⟨⟨⟨⟨l₁, l₂⟩, l₃⟩, l₄⟩, l₅⟩
    exact ⟨hbehind, _, _, _, _, l₁, l₂, l₃, l₄, l₅⟩

end Statements

mutual

theorem emitsExpr (hload : Imports o base load) : (e : Expr) → EmitsExpr o base load e
  | .lit .. => EmitsExpr.lit
  | .name .. => EmitsExpr.name
  | .array _ items => EmitsExpr.array (emitsExprs hload items)
  | .map _ entries => EmitsExpr.map (emitsEntries hload entries)
  | .unary _ _ e => EmitsExpr.unary (emitsExpr hload e)
  | .binary _ _ left right => EmitsExpr.binary (emitsExpr hload left) (emitsExpr hload right)
  | .call _ callee args => EmitsExpr.call (emitsExpr hload callee) (emitsExprs hload args)
  | .index _ container index => EmitsExpr.index (emitsExpr hload container) (emitsExpr hload index)
  | .field _ container _ => EmitsExpr.field (emitsExpr hload container)
  | .func _ _ (.mk _ body) => EmitsExpr.func (EmitsBody.mk (emitsStmts hload body))
  | .load .. => EmitsExpr.imported hload

theorem emitsExprs (hload : Imports o base load) :
    (items : List Expr) → EmitsExprs o base load items
  | [] => EmitsExprs.nil
  | e :: rest => EmitsExprs.cons (emitsExpr hload e) (emitsExprs hload rest)

theorem emitsEntries (hload : Imports o base load) : (entries : List (String × Expr)) →
    EmitsEntries o base load entries
  | [] => EmitsEntries.nil
  | (_, e) :: rest => EmitsEntries.cons (emitsExpr hload e) (emitsEntries hload rest)

theorem emitsStore (hload : Imports o base load) : (place : Expr) → EmitsStore o base load place
  | .name .. => EmitsStore.name
  | .index _ container index =>
    EmitsStore.index (emitsExpr hload container) (emitsExpr hload index) (emitsStore hload container)
  | .field _ container _ =>
    EmitsStore.field (emitsExpr hload container) (emitsStore hload container)
  | .lit .. | .array .. | .map .. | .unary .. | .binary .. | .call .. | .func .. | .load .. =>
    EmitsStore.other rfl

theorem emitsStmt (hload : Imports o base load) : (s : Stmt) → EmitsStmt o base load s
  | .expr e => EmitsStmt.expr (emitsExpr hload e)
  | .define _ _ e =>
    match h : e.isFunc with
    | true => EmitsStmt.defineFunction (emitsExpr hload e) h
    | false => EmitsStmt.defineValue (emitsExpr hload e) h
  | .assign _ none place e => EmitsStmt.assign (emitsExpr hload e) (emitsStore hload place)
  | .assign _ (some _) place e =>
    EmitsStmt.update (emitsExpr hload place) (emitsExpr hload e) (emitsStore hload place)
  | .branch _ cond body none => EmitsStmt.branch (emitsExpr hload cond) (emitsBlock hload body)
  | .branch _ cond body (some orElse) =>
    EmitsStmt.branchElse (emitsExpr hload cond) (emitsBlock hload body) (emitsStmt hload orElse)
  | .loop _ init cond post body =>
    EmitsStmt.loop (emitsPart hload init) (emitsTest hload cond) (emitsPart hload post)
      (emitsBlock hload body)
  | .breakLoop _ => EmitsStmt.breakLoop
  | .continueLoop _ => EmitsStmt.continueLoop
  | .returnValue _ none => EmitsStmt.returnNone
  | .returnValue _ (some e) => EmitsStmt.returnSome (emitsExpr hload e)
  | .exportValue _ e => EmitsStmt.exportValue (emitsExpr hload e)
  | .block body => EmitsStmt.block (emitsBlock hload body)

theorem emitsPart (hload : Imports o base load) :
    (part : Option Stmt) → ∀ t, part = some t → EmitsStmt o base load t
  | none => fun _ h => nomatch h
  | some s => fun _ h => Option.some.inj h ▸ emitsStmt hload s

theorem emitsTest (hload : Imports o base load) :
    (cond : Option Expr) → ∀ e, cond = some e → EmitsExpr o base load e
  | none => fun _ h => nomatch h
  | some e => fun _ h => Option.some.inj h ▸ emitsExpr hload e

theorem emitsBlock (hload : Imports o base load) : (body : Block) → EmitsBlock o base load body
  | .mk _ stmts => EmitsBlock.mk (emitsStmts hload stmts)

theorem emitsStmts (hload : Imports o base load) : (body : List Stmt) → EmitsStmts o base load body
  | [] => EmitsStmts.nil
  | s :: rest => EmitsStmts.cons (emitsStmt hload s) (emitsStmts hload rest)

end

end ScriptEngine.Layout
