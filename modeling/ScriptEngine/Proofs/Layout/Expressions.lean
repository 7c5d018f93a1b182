import ScriptEngine.Proofs.Layout.Function
/-!
The code of every expression is laid out as its syntax tree says, if the code of its parts is. How
modules are loaded is a parameter.
-/
namespace ScriptEngine.Layout

open Compile

variable {o : ImportOptions} {base : Nat} {load : CompileContext → Pos → String → CompileM Code}
  {ctx : CompileContext} {Γ : Names} {a : Stage} {acc code : Code} {s : CompileState} {pos : Pos}

/-- A way to load modules lays out the code of imports. -/
def Imports (o : ImportOptions) (base : Nat)
    (load : CompileContext → Pos → String → CompileM Code) : Prop :=
  ∀ (ctx : CompileContext) {pos : Pos} {name : String} {Γ : Names} {a : Stage} {code : Code}
    {s : CompileState}, Ready (.of ctx) Γ a → Yields (load ctx pos name) a.state code s →
      ∃ log, Emitted o base (.of ctx) (fun _ => False) Γ Γ a code ⟨s, log⟩
        (fun L R _ p q => L.importAt R pos name p q)

variable (ctx) in
theorem literal_emitted (l : Literal) (hready : Ready (.of ctx) Γ a)
    (h : Yields (emitLiteral ctx pos l) a.state code s) :
    Emitted o base (.of ctx) (fun _ => False) Γ Γ a code ⟨s, a.log⟩
      (fun L R _ p q => L.literalAt R pos l p q) := by
  have hconstant {v : Value} (hv : ∀ L : Image, L.Constant v)
      (h : Yields (emitConstant ctx pos v) a.state code s) :
      Emitted o base (.of ctx) (fun _ => False) Γ Γ a code ⟨s, a.log⟩
        (fun L R _ p q => L.constantAt R pos v p q) := by
    obtain ⟨hsize, rfl, rfl⟩ := yields_emitConstant.mp h
    exact Emitted.constant _ _ hready pos v hsize fun L _ _ => hv L
  cases l with
  | undefined =>
    obtain ⟨rfl, rfl⟩ := yields_emit.mp h
    exact Emitted.instruction _ _ hready _ _ _ _
  | bool v =>
    cases v with
    | false =>
      obtain ⟨rfl, rfl⟩ := yields_emit.mp h
      exact Emitted.instruction _ _ hready _ _ _ _
    | true =>
      obtain ⟨rfl, rfl⟩ := yields_emit.mp h
      exact Emitted.instruction _ _ hready _ _ _ _
  | int n => exact hconstant (fun _ => trivial) h
  | float x => exact hconstant (fun _ => trivial) h
  | char c => exact hconstant (fun _ => trivial) h
  | string t => exact hconstant (fun _ => trivial) h

variable (ctx) in
theorem name_emitted {x : String} {σ : Symbol} {t : SymbolTable} (hready : Ready (.of ctx) Γ a)
    (ht : a.state.symbols.resolve x = (some σ, t)) :
    Emitted o base (.of ctx) (fun y => y = x ∧ y ∉ Γ.vars) Γ Γ a
      #[.plain ⟨σ.storage.load, σ.index, 0⟩ (some pos)]
      ⟨{ a.state with symbols := t, here := a.state.here + σ.storage.load.size }, a.log⟩
      (fun L R _ p q => L.loadAt R Γ pos x p q) := by
  have hres := Emitted.resolve o base hready ht
  have hload := Emitted.instruction o base hres.ready (some pos) σ.storage.load
    σ.index 0
  refine (hres.seq hload).imp (by simp) ?_
  rintro L R J p q ⟨⟨rfl, hfound, hwithin⟩, hhas⟩
  exact ⟨_, _, hfound, hwithin, hhas⟩

/-- The names that a part of a function looks up outside of it. -/
def Looks (Γ : Names) (uses : String → Bool) (x : String) : Prop := uses x = true ∧ x ∉ Γ.vars

/-- Notes in the trace do not matter. -/
theorem traced {π : Place} {used : String → Prop} {Γ Γ' : Names} {a : Stage} {k : CompileM Code}
    {text : String} {laid : Laid}
    (hk : ∀ a : Stage, Ready π Γ a → Yields k a.state code s →
      ∃ log, Emitted o base π used Γ Γ' a code ⟨s, log⟩ laid)
    (hready : Ready π Γ a) (h : Yields (note ctx text >>= fun _ => k) a.state code s) :
    ∃ log, Emitted o base π used Γ Γ' a code ⟨s, log⟩ laid := by
  obtain ⟨_, _, hnote, h⟩ := yields_bind.mp h
  obtain ⟨trace, rfl⟩ := yields_note hnote
  obtain ⟨log, h⟩ := hk ⟨_, a.log⟩ (hready.of_trace trace) h
  exact ⟨log, h.of_trace⟩

variable (o base load)

/-- The code of an expression is laid out wherever it is compiled. -/
def EmitsExpr (e : Expr) : Prop :=
  ∀ (ctx : CompileContext) {Γ : Names} {a : Stage} {code : Code} {s : CompileState},
    Ready (.of ctx) Γ a → Yields (expr load ctx e) a.state code s →
      ∃ log, Emitted o base (.of ctx) (Looks Γ (e.uses ·)) Γ (Γ.skip e.literals) a code ⟨s, log⟩
        (fun L R _ p q => L.exprAt R Γ e p q)

def EmitsExprs (items : List Expr) : Prop :=
  ∀ (ctx : CompileContext) {Γ : Names} {a : Stage} {acc out : Code} {s : CompileState},
    Ready (.of ctx) Γ a → Yields (exprs load ctx items acc) a.state out s →
      ∃ code log, out = acc ++ code ∧
        Emitted o base (.of ctx) (Looks Γ (Expr.usesAny · items)) Γ
          (Γ.skip (Expr.literalsOf items)) a code ⟨s, log⟩
          (fun L R _ p q => L.exprsAt R Γ items p q)

def EmitsEntries (entries : List (String × Expr)) : Prop :=
  ∀ (ctx : CompileContext) {pos : Pos} {Γ : Names} {a : Stage} {acc out : Code}
    {s : CompileState},
    Ready (.of ctx) Γ a → Yields (mapEntries load ctx pos entries acc) a.state out s →
      ∃ code log, out = acc ++ code ∧
        Emitted o base (.of ctx) (Looks Γ (Expr.usesIn · entries)) Γ
          (Γ.skip (Expr.literalsIn entries)) a code ⟨s, log⟩
          (fun L R _ p q => L.entriesAt R Γ pos entries p q)

/-- The code of a function is laid out up to its end. -/
def EmitsBody (body : Block) : Prop :=
  ∀ (ctx : CompileContext) {pos : Pos} {Γ : Names} {a : Stage} {code : Code} {s : CompileState},
    Ready (.of ctx) Γ a → Yields (funcBody load ctx pos body) a.state code s →
      ∃ log Γ', Γ'.literal = Γ.literal + body.literals ∧
        Emitted o base (.of ctx) (Looks Γ (body.uses ·)) Γ Γ' a code ⟨s, log⟩
          (fun L R J p q => ∃ m, L.stmtsAt R J Γ body.stmts p m ∧
            if (body.stmts.getLast?.map Stmt.isReturn).getD false then m = q
            else R.Has (some pos) .ret 0 0 m q)

variable {o base load}

section Expressions

attribute [local simp] Expr.uses

variable {l : Literal} {x : String} {e left right : Expr} {items : List Expr}
  {entries : List (String × Expr)}

theorem EmitsExpr.lit : EmitsExpr o base load (.lit pos l) := by
  intro ctx Γ _ code s hstart hrun
  refine traced (fun a hready h => ?_) hstart hrun
  dsimp only at h
  exact ⟨_, (literal_emitted ctx l hready h).imp (by simp [Looks, Expr.uses])
    fun L R J p q h => h⟩

theorem EmitsExpr.name : EmitsExpr o base load (.name pos x) := by
  intro ctx Γ _ code s hstart hrun
  refine traced (fun a hready h => ?_) hstart hrun
  dsimp only at h
  simp only [yields_bind, yields_emitLoad] at h
  obtain ⟨σ, _, hres, rfl, rfl⟩ := h
  obtain ⟨t, ht, rfl⟩ := yields_resolve hres
  refine ⟨_, (name_emitted ctx hready ht).imp (fun _ y => ?_) fun L R J p q h => h⟩
  rw [Looks, Expr.uses, beq_iff_eq, eq_comm]

theorem EmitsExpr.array (hitems : EmitsExprs o base load items) :
    EmitsExpr o base load (.array pos items) := by
  intro ctx Γ _ code s hstart hrun
  refine traced (fun a hready h => ?_) hstart hrun
  dsimp only at h
  simp only [yields_bind, yields_limit, yields_emit, yields_pure] at h
  obtain ⟨_, _, ⟨hlimit, rfl⟩, _, t, hrest, _, _, ⟨rfl, rfl⟩, rfl, rfl⟩ := h
  obtain ⟨code, log, rfl, hcode⟩ := hitems ctx.inner hready hrest
  have hcollect := Emitted.instruction o base hcode.ready (some pos) .array
    items.length 0
  have hall := hcode.seq hcollect
  simp only [Array.empty_append]
  exact ⟨log, hall.imp (by simp [Looks, Expr.uses]) fun L R J p q h => ⟨hlimit, _, h⟩⟩

theorem EmitsExpr.map (hentries : EmitsEntries o base load entries) :
    EmitsExpr o base load (.map pos entries) := by
  intro ctx Γ _ code s hstart hrun
  refine traced (fun a hready h => ?_) hstart hrun
  dsimp only at h
  simp only [yields_bind, yields_limit, yields_emit, yields_pure] at h
  obtain ⟨_, _, ⟨hlimit, rfl⟩, _, t, hrest, _, _, ⟨rfl, rfl⟩, rfl, rfl⟩ := h
  obtain ⟨code, log, rfl, hcode⟩ := hentries ctx.inner hready hrest
  have hcollect := Emitted.instruction o base hcode.ready (some pos) .map
    entries.length 0
  have hall := hcode.seq hcollect
  simp only [Array.empty_append]
  exact ⟨log, hall.imp (by simp [Looks, Expr.uses]) fun L R J p q h => ⟨hlimit, _, h⟩⟩

theorem EmitsExpr.unary {op : UnaryOp} (he : EmitsExpr o base load e) :
    EmitsExpr o base load (.unary pos op e) := by
  intro ctx Γ _ code s hstart hrun
  refine traced (fun a hready h => ?_) hstart hrun
  dsimp only at h
  simp only [yields_bind, yields_emit, yields_pure] at h
  obtain ⟨code, t, hrest, _, _, ⟨rfl, rfl⟩, rfl, rfl⟩ := h
  obtain ⟨log, hcode⟩ := he ctx.inner hready hrest
  have happly := Emitted.instruction o base hcode.ready (some pos) op.opcode 0 0
  exact ⟨log, (hcode.seq happly).imp (by simp [Looks, Expr.uses]) fun L R J p q h => ⟨_, h⟩⟩

theorem EmitsExpr.binary {op : BinaryOp} (hleft : EmitsExpr o base load left)
    (hright : EmitsExpr o base load right) : EmitsExpr o base load (.binary pos op left right) := by
  intro ctx Γ _ code s hstart hrun
  refine traced (fun a hready h => ?_) hstart hrun
  dsimp only at h
  have hused (x : String) : (Looks Γ (left.uses ·) x ∨ Looks (Γ.skip left.literals) (right.uses ·) x) ↔
      Looks Γ ((Expr.binary pos op left right).uses ·) x := by
    simp only [Looks, Expr.uses, Names.vars_skip, Bool.or_eq_true]
    tauto
  obtain ⟨first, t, hfirst, h⟩ := yields_bind.mp h
  obtain ⟨log, hcode⟩ := hleft ctx.inner hready hfirst
  rw [yields_ite] at h
  rcases h with ⟨hop, h⟩ | ⟨hop, h⟩
  · simp only [yields_bind, yields_lay, yields_target, yields_pure] at h
    obtain ⟨_, _, rfl, second, u, hsecond, _, _, ⟨rfl, hbehind, rfl⟩, rfl, rfl⟩ := h
    have hjump := Emitted.instruction o base hcode.ready (some pos) op.opcode
      s.here 0
    obtain ⟨log', hcode'⟩ := hright ctx.inner hjump.ready hsecond
    have hall := (hcode.seq hjump).seq hcode'
    rw [Names.skip_skip] at hall
    rw [Array.push_eq_append]
    refine ⟨log', hall.mono (fun _ x => by rw [or_false]; exact hused x) ?_⟩
    rintro L R J - - - ⟨⟨hl, hhas⟩, hr⟩
    simp only [Image.exprAt, if_pos hop]
    exact ⟨hbehind, _, _, hl, hhas, hr⟩
  · simp only [yields_bind, yields_emit, yields_pure] at h
    obtain ⟨second, u, hsecond, _, _, ⟨rfl, rfl⟩, rfl, rfl⟩ := h
    obtain ⟨log', hcode'⟩ := hright ctx.inner hcode.ready hsecond
    have happly := Emitted.instruction o base hcode'.ready (some pos) op.opcode 0 0
    have hall := (hcode.seq hcode').seq happly
    rw [Names.skip_skip] at hall
    refine ⟨log', hall.imp (fun _ x => by rw [or_false]; exact hused x) ?_⟩
    rintro L R J p q ⟨⟨hl, hr⟩, hhas⟩
    simp only [Image.exprAt, if_neg hop]
    exact ⟨_, _, hl, hr, hhas⟩

theorem EmitsExpr.call (he : EmitsExpr o base load e) (hitems : EmitsExprs o base load items) :
    EmitsExpr o base load (.call pos e items) := by
  intro ctx Γ _ code s hstart hrun
  refine traced (fun a hready h => ?_) hstart hrun
  dsimp only at h
  simp only [yields_bind, yields_limit, yields_emit, yields_pure] at h
  obtain ⟨_, _, ⟨hlimit, rfl⟩, first, t, hfirst, _, u, hrest, _, _, ⟨rfl, rfl⟩, rfl, rfl⟩ := h
  obtain ⟨log, hcode⟩ := he ctx.inner hready hfirst
  obtain ⟨args, log', rfl, hargs⟩ := hitems ctx.inner hcode.ready hrest
  have hcall := Emitted.instruction o base hargs.ready (some pos) .call
    items.length 0
  have hall := (hcode.seq hargs).seq hcall
  rw [Names.skip_skip] at hall
  refine ⟨log', hall.imp (fun _ x => ?_) ?_⟩
  · simp only [Looks, Expr.uses, Names.vars_skip, Bool.or_eq_true]
    tauto
  · rintro L R J p q ⟨⟨hf, ha⟩, hhas⟩
    exact ⟨hlimit, _, _, hf, ha, hhas⟩

theorem EmitsExpr.index (hleft : EmitsExpr o base load left)
    (hright : EmitsExpr o base load right) : EmitsExpr o base load (.index pos left right) := by
  intro ctx Γ _ code s hstart hrun
  refine traced (fun a hready h => ?_) hstart hrun
  dsimp only at h
  simp only [yields_bind, yields_emit, yields_pure] at h
  obtain ⟨first, t, hfirst, second, u, hsecond, _, _, ⟨rfl, rfl⟩, rfl, rfl⟩ := h
  obtain ⟨log, hcode⟩ := hleft ctx.inner hready hfirst
  obtain ⟨log', hcode'⟩ := hright ctx.inner hcode.ready hsecond
  have htake := Emitted.instruction o base hcode'.ready (some pos) .index 0 0
  have hall := (hcode.seq hcode').seq htake
  rw [Names.skip_skip] at hall
  refine ⟨log', hall.imp (fun _ x => ?_) ?_⟩
  · simp only [Looks, Expr.uses, Names.vars_skip, Bool.or_eq_true]
    tauto
  · rintro L R J p q ⟨⟨hl, hr⟩, hhas⟩
    exact ⟨_, _, hl, hr, hhas⟩

theorem EmitsExpr.field (he : EmitsExpr o base load e) :
    EmitsExpr o base load (.field pos e x) := by
  intro ctx Γ _ code s hstart hrun
  refine traced (fun a hready h => ?_) hstart hrun
  dsimp only at h
  simp only [yields_bind, yields_emitConstant, yields_emit, yields_pure] at h
  obtain ⟨first, t, hfirst, _, _, ⟨hsize, rfl, rfl⟩, _, _, ⟨rfl, rfl⟩, rfl, rfl⟩ := h
  obtain ⟨log, hcode⟩ := he ctx.inner hready hfirst
  have hkey := Emitted.constant o base hcode.ready pos (.string x) hsize
    fun _ _ _ => trivial
  have htake := Emitted.instruction o base hkey.ready (some pos) .index 0 0
  refine ⟨log, ((hcode.seq hkey).seq htake).imp (by simp [Looks, Expr.uses]) ?_⟩
  rintro L R J p q ⟨⟨he, hkey⟩, hhas⟩
  exact ⟨_, _, he, hkey, hhas⟩

theorem EmitsExpr.imported (hload : Imports o base load) : EmitsExpr o base load (.load pos x) := by
  intro ctx Γ _ code s hstart hrun
  refine traced (fun a hready h => ?_) hstart hrun
  obtain ⟨log, hcode⟩ := hload ctx.inner hready h
  exact ⟨log, hcode.imp (by simp [Looks, Expr.uses]) fun L R J p q h => h⟩

theorem EmitsExprs.nil : EmitsExprs o base load [] := by
  intro ctx Γ a acc out s hready h
  rw [exprs] at h
  obtain ⟨rfl, rfl⟩ := yields_pure.mp h
  exact ⟨#[], a.log, by simp, (Emitted.nil hready).imp (by simp [Looks, Expr.usesAny])
    fun L R J p q h => h⟩

theorem EmitsExprs.cons (he : EmitsExpr o base load e) (hitems : EmitsExprs o base load items) :
    EmitsExprs o base load (e :: items) := by
  intro ctx Γ a acc out s hready h
  rw [exprs] at h
  obtain ⟨first, t, hfirst, hrest⟩ := yields_bind.mp h
  obtain ⟨log, hcode⟩ := he ctx hready hfirst
  obtain ⟨rest, log', rfl, hcode'⟩ := hitems ctx hcode.ready hrest
  have hall := hcode.seq hcode'
  rw [Names.skip_skip] at hall
  refine ⟨first ++ rest, log', by simp, hall.imp (fun _ x => ?_) ?_⟩
  · simp only [Looks, Expr.usesAny, Names.vars_skip, Bool.or_eq_true]
    tauto
  · rintro L R J p q ⟨hf, hr⟩
    exact ⟨_, hf, hr⟩

theorem EmitsEntries.nil : EmitsEntries o base load [] := by
  intro ctx pos Γ a acc out s hready h
  rw [mapEntries] at h
  obtain ⟨rfl, rfl⟩ := yields_pure.mp h
  exact ⟨#[], a.log, by simp, (Emitted.nil hready).imp (by simp [Looks, Expr.usesIn])
    fun L R J p q h => h⟩

theorem EmitsEntries.cons (he : EmitsExpr o base load e)
    (hentries : EmitsEntries o base load entries) :
    EmitsEntries o base load ((x, e) :: entries) := by
  intro ctx pos Γ a acc out s hready h
  rw [mapEntries] at h
  simp only [yields_bind, yields_emitConstant] at h
  obtain ⟨_, _, ⟨hsize, rfl, rfl⟩, first, t, hfirst, hrest⟩ := h
  have hkey := Emitted.constant o base hready pos (.string x) hsize
    fun _ _ _ => trivial
  obtain ⟨log, hcode⟩ := he ctx hkey.ready hfirst
  obtain ⟨rest, log', rfl, hcode'⟩ := hentries ctx hcode.ready hrest
  have hall := (hkey.seq hcode).seq hcode'
  rw [Names.skip_skip] at hall
  refine ⟨_ ++ first ++ rest, log', by simp, hall.imp (fun _ x => ?_) ?_⟩
  · simp only [Looks, Expr.usesIn, Names.vars_skip, Bool.or_eq_true]
    tauto
  · rintro L R J p q ⟨⟨hk, hf⟩, hr⟩
    exact ⟨_, _, hk, hf, hr⟩

/-- The code of a finished literal is a function's. -/
theorem shaped_of_body {L : Image} {R : Body} {Γ : Names} {pos : Pos} {body : Block}
    (hsmall : R.Small) (h : L.bodyAt R Γ pos body) : L.Shaped R.routine :=
  ⟨R, rfl, hsmall, Or.inl ⟨Γ, pos, body, h⟩⟩

theorem EmitsExpr.func {params : List String} {body : Block} (hbody : EmitsBody o base load body) :
    EmitsExpr o base load (.func pos params body) := by
  intro ctx Γ _ code s hstart hrun
  refine traced (fun a hready h => ?_) hstart hrun
  dsimp only at h
  simp only [yields_bind, yields_limit, yields_here, yields_withSymbols, yields_modify] at h
  obtain ⟨_, _, ⟨hlimit, rfl⟩, _, _, ⟨rfl, rfl⟩, _, _, ⟨_, hopen, rfl⟩, _, _, rfl, _, t, hparams,
    inner, u, hinner, ⟨locals, free⟩, _, ⟨t', hleave, rfl⟩, _, _, rfl, h⟩ := h
  obtain rfl : a.state.symbols.enterFunction = _ := congrArg Prod.snd hopen
  have hnames := Emitted.params o base params hready.opened hparams
  rw [Names.foldl_define_function, List.nil_append] at hnames
  obtain ⟨log, Γ', hliteral, hcode⟩ := hbody ctx.inner.function hnames.ready hinner
  have hall := hnames.seq hcode
  rw [Array.empty_append] at hall
  obtain ⟨f, fs, hfs, hfin, hemit⟩ := Emitted.function params.length
    (n := body.literals + 1) hready hall (by rw [hliteral]; simp [Names.function]; omega)
  have hfs' : u.symbols.functions = f :: fs := hfs
  obtain ⟨⟨rfl, rfl⟩, rfl⟩ : (f.slots = locals ∧ f.free = free) ∧
      { u.symbols with functions := fs } = t' := by
    simpa [SymbolTable.leaveFunction, hfs'] using hleave
  simp only [emitFunction, yields_bind, yields_makeFunction] at h
  obtain ⟨_, _, ⟨rfl, rfl⟩, h⟩ := h
  have hlaid : ∀ L : Image, ∀ R : Body, R.params = params.length →
      (0 = t.here ∧ (Γ.function params).vars.length ≤ R.locals) ∧
        (∃ m, L.stmtsAt R none (Γ.function params) body.stmts t.here m ∧
          if (body.stmts.getLast?.map Stmt.isReturn).getD false then m = R.code.size
          else R.Has (some pos) .ret 0 0 m R.code.size) →
      R.params ≤ R.locals ∧ L.bodyAt R (Γ.function params) pos body := by
    rintro L R hparams ⟨⟨hzero, hlocals⟩, hstmts⟩
    rw [← hzero] at hstmts
    cases body
    refine ⟨?_, hstmts⟩
    rw [hparams]
    simpa [Names.vars, Names.function] using hlocals
  obtain ⟨hlen, hload⟩ := Emitted.loadFunction ctx.inner (n := body.literals + 1)
    hemit.ready hfin (fun hlen L hL =>
      have hL := hlaid L _ rfl hL
      shaped_of_body ⟨hfin.locals, hlimit, hlen, hL.1⟩ hL.2) h
  have hdone := hemit.seq hload
  rw [Array.empty_append] at hdone
  have hused (x : String) : (False ∨ Looks (Γ.function params) (body.uses ·) x) ↔
      x ∉ params ∧ body.uses x = true := by
    simp only [Looks, Names.vars, Names.function, List.headD_cons, List.mem_reverse, false_or]
    exact and_comm
  refine ⟨_, hdone.mono (fun _ x => ?_) ?_⟩
  · rw [or_false, hused]
    simp [Looks, Expr.uses]
  · rintro L R J hL - - ⟨⟨heq, hunit, hid, hroutine⟩, k, hk, hpool, hfunction⟩
    have hinside := hlaid L _ rfl (hfin.laid L (hload.links hL))
    refine ⟨k, _, hk, ?_, hroutine, hfin.unit.trans hunit.symm, rfl,
      ⟨hfin.locals, hlimit, hlen, hinside.1⟩, fun x => ?_, hinside.2, ?_⟩
    · rw [hid]
      exact hpool
    · rw [hfin.captured, hused]
      exact and_comm
    · rw [heq]
      exact hfunction

end Expressions

end ScriptEngine.Layout
