import ScriptEngine.Proofs.Layout.Pieces
/-!
Function literals. A literal's code is a stretch of its own; in the code around it only the load of
the finished function appears.
-/
namespace ScriptEngine.Layout

open Encoding

variable {o : ImportOptions} {base : Nat} {π : Place} {used : String → Prop} {Γ Γ' : Names}
  {a b : Stage} {c : Code} {laid : Laid} {s : CompileState}

/-- The compiler at the start of a literal's body, before its parameters. -/
def Stage.opened (a : Stage) : Stage :=
  ⟨{ a.state with symbols := a.state.symbols.enterFunction, here := 0 }, a.log⟩

/-- The compiler behind a literal's body, with the function object made. -/
def Stage.closed (b : Stage) (fs : List ScopeFrame) (here : Nat) (m : Made) : Stage :=
  ⟨{ b.state with
    symbols := { b.state.symbols with functions := fs }, here, made := b.state.made + 1 },
    b.log ++ [m]⟩

theorem Ready.opened (h : Ready π Γ a) :
    Ready { π with looping := false, inside := true } (Γ.function []) (Stage.opened a) :=
  ⟨⟨h.fits.enterFunction.frames, h.fits.outside, h.fits.cells, h.fits.bound, h.fits.builtins,
    h.fits.slots⟩, h.made, by simp [Names.function]⟩

/-- The object of a literal is new. -/
theorem Records.function {chain : List String} {first next : Nat} {fs : List ScopeFrame}
    {here : Nat} {r : Routine} (h : Records chain (first + 1) next a b) (hle : first < next) :
    Records chain first next a (Stage.closed b fs here ⟨chain.head?, first, r, none⟩) := by
  obtain ⟨new, more, hcache, hlog, hnew, hfresh, hmore, hown⟩ := h
  refine ⟨new, more ++ [⟨chain.head?, first, r, none⟩], hcache, by simp [Stage.closed, hlog], hnew,
    hfresh, ?_, fun m hm => ?_⟩
  · rw [List.map_append, List.nodup_append]
    refine ⟨hmore, by simp, fun k hk k' hk' hkk => ?_⟩
    obtain ⟨m, hm, rfl⟩ := List.mem_map.mp hk
    obtain rfl : k' = (chain.head?, first) := by simpa [Made.key] using hk'
    have hunit : m.unit = chain.head? := congrArg Prod.fst hkk
    have hnumber : m.number = first := congrArg Prod.snd hkk
    rcases hown m hm with ⟨_, hge, _⟩ | ⟨e, he, hu⟩
    · omega
    · exact (hfresh e he).2 (List.mem_of_mem_head? (by rw [← hunit, hu]; rfl))
  · rcases List.mem_append.mp hm with hm | hm
    · rcases hown m hm with ⟨hu, hge, hlt⟩ | hnew
      · exact Or.inl ⟨hu, by omega, hlt⟩
      · exact Or.inr hnew
    · obtain rfl := List.mem_singleton.mp hm
      exact Or.inl ⟨rfl, Nat.le_refl _, hle⟩

/-- What is known of a finished function literal. -/
structure Finished (o : ImportOptions) (π : Place) (used : String → Prop) (Γ : Names) (b : Stage)
    (R : Body) (free : List Symbol) (around : List ScopeFrame) (laid : Laid) : Prop where
  locals : R.locals ≤ Compile.maxLocals
  unit : R.unit = π.chain.head?
  names : R.captured = free.map (·.name)
  captured : ∀ x, x ∈ R.captured ↔ used x ∧ Γ.IsVariable x
  owned : ∀ σ ∈ free, Owned σ Γ.functions around
  laid : ∀ L, Links o π L b → laid L R none 0 R.code.size

/-- A captured symbol is what its name means outside of the function. -/
theorem Finished.resolve {R S : Body} {free : List Symbol} {fs : List ScopeFrame} {t : SymbolTable}
    (h : Finished o π used Γ b R free fs laid) (ht : t.functions = fs)
    (hframe : Framed S t) (hadmits : Γ.Admits S.captured) {σ : Symbol} (hσ : σ ∈ free) :
    Γ.resolve S.captured σ.name = some (σ.storage, σ.index) := by
  have howned := h.owned σ hσ
  have hcaptured := hframe.captured
  rw [ht] at hcaptured
  match hf : Γ.functions, fs with
  | [], _ | _ :: _, [] =>
    simp only [hf] at howned
    exact howned.elim
  | vars :: around, f :: fs =>
    simp only [hf] at howned
    obtain ⟨more, hmore⟩ := hcaptured
    rw [← hmore] at hadmits ⊢
    refine Names.resolve_append ?_ hadmits
    simp only [Names.resolve, hf, capturedIn]
    simp only [Owned] at howned
    rw [howned]

/-- Code around a literal goes on where it stopped; the literal has captured what it uses. -/
theorem Emitted.function (params : Nat) {n : Nat} (hstart : Ready π Γ a)
    (h : Emitted o base { π with looping := false, inside := true } used (Γ.function []) Γ'
      (Stage.opened a) c b laid)
    (hn : Γ'.literal = Γ.literal + n) :
    ∃ f fs, b.state.symbols.functions = f :: fs ∧
      let R : Body := ⟨c, f.slots, params, f.captured, π.chain.head?⟩
      let d := Stage.closed b fs a.state.here ⟨π.chain.head?, Γ.literal, R.routine, none⟩
      Finished o π used Γ d R f.free fs laid ∧
      Emitted o base π (fun x => used x ∧ x ∉ Γ.vars) Γ (Γ.skip n) a #[] d
        (fun L R' _ p q => p = q ∧ R'.unit = π.chain.head? ∧
          L.ids R'.unit Γ.literal = ⟨b.state.maker, b.state.made⟩ ∧
          L.routines R'.unit Γ.literal = some R.routine) := by
  obtain ⟨f, fs, hfs, hfits, hmoves, hlimit, howned, hcaptured⟩ :=
    hstart.fits.leaveFunction h.ready.fits h.moves h.around
  refine ⟨f, fs, hfs, ?_⟩
  intro R d
  have hlinks (L : Image) (hL : Links o π L d) :
      Links o { π with looping := false, inside := true } L b := by
    obtain ⟨hmade, horigins⟩ := hL.front rfl
    exact ⟨hL.options, hL.attrs, hL.pool, hL.modules, hmade, hL.cells, horigins, hL.directory⟩
  have hliteral : Γ.literal + 1 ≤ Γ.literal + n := hn ▸ h.literal
  constructor
  · refine ⟨hlimit, rfl, rfl, hcaptured, howned, fun L hL => ?_⟩
    have hhere : b.state.here = c.size := by
      have := h.here
      simpa [Stage.opened] using this
    have hlaid := h.laid L R none (hlinks L hL) ⟨by simp [SymbolTable.current, hfs, R],
      by simp [capturedIn, hfs, R]⟩ rfl ?_ rfl ⟨[], [], by simp [R], rfl⟩
    · rw [hhere] at hlaid
      exact hlaid
    · intro x hx
      have := (hcaptured x).mp hx
      simpa [Names.around?, Names.function] using this.2
  · refine ⟨hstart, ⟨hfits.skip n, ?_, hstart.inside⟩, rfl, Nat.le_refl _,
      by simp, by simp [d, Stage.closed, Code.size], h.maker, h.pool, ?_, hmoves,
      fun L hL hv => ?_, fun L R' J hL _ hunit _ _ _ => ?_⟩
    · simp [d, Stage.closed, h.ready.made]
    · rw [Names.skip_literal]
      have hrec := h.records
      rw [hn] at hrec
      exact Records.function hrec (by omega)
    · have := h.valid L (hlinks L hL) ⟨hv.modules, hv.constants⟩
      exact ⟨this.modules, this.constants⟩
    · have hmade := hL.made b.log.length ⟨π.chain.head?, Γ.literal, R.routine, none⟩
        (by simp [d, Stage.closed])
      rw [h.ready.made] at hmade
      rw [hunit]
      exact ⟨rfl, rfl, hmade⟩

variable (o base) in
/-- Parameters are defined one after the other, and the frame has room for them. -/
theorem Emitted.params {ctx : CompileContext} {pos : Pos} {u : Unit} (params : List String)
    (hready : Ready π Γ a) (h : Compile.Yields (Compile.defineParams ctx pos params) a.state u s) :
    Emitted o base π (fun _ => False) Γ (params.foldl Names.define Γ) a #[] ⟨s, a.log⟩
      (fun _ R _ p q => p = q ∧ (params.foldl Names.define Γ).vars.length ≤ R.locals) := by
  induction params generalizing a Γ with
  | nil =>
    obtain ⟨_, rfl⟩ := Compile.yields_pure.mp h
    refine (Emitted.nil hready).mono (by simp) fun L R J _ hframe _ hpq => ⟨hpq, ?_⟩
    have hframes := hready.fits.frames
    have hlocals := hframe.locals
    unfold Names.vars
    match hf : Γ.functions, ht : a.state.symbols.functions with
    | [], _ => simp
    | vars :: around, f :: fs =>
      rw [hf, ht] at hframes
      simp only [SymbolTable.current, ht] at hlocals
      have := hframes.1.slots
      simp only [List.headD_cons]
      omega
    | vars :: around, [] =>
      rw [hf, ht] at hframes
      exact hframes.elim
  | cons x rest ih =>
    simp only [Compile.defineParams, Compile.yields_bind] at h
    obtain ⟨σ, t, hσ, h⟩ := h
    obtain ⟨t', hdefine, rfl, hslot⟩ := Compile.yields_define hσ
    have hx := Emitted.define o base hready hdefine hslot
    have hrest := ih hx.ready h
    have hall := hx.seq hrest
    simp only [Array.append_empty] at hall
    refine hall.imp (by simp) ?_
    rintro L R J p q ⟨⟨rfl, _⟩, heq, hlocals⟩
    exact ⟨heq, hlocals⟩

/-- The loads of symbols follow one another. -/
def LoadsHave (R : Body) (pos : Pos) : List Symbol → (p q : Nat) → Prop
  | [], p, q => p = q
  | σ :: rest, p, q => ∃ m, R.Has (some pos) σ.storage.load σ.index 0 p m ∧
    LoadsHave R pos rest m q

variable (o base) in
theorem Emitted.loads {pos : Pos} (free : List Symbol) (hready : Ready π Γ a) {acc out : Code}
    (h : Compile.Yields (Compile.emitLoads pos free acc) a.state out s) :
    ∃ code, out = acc ++ code ∧ Emitted o base π (fun _ => False) Γ Γ a code ⟨s, a.log⟩
      (fun _ R _ p q => LoadsHave R pos free p q) := by
  induction free generalizing a acc with
  | nil =>
    simp only [Compile.emitLoads, Compile.yields_pure] at h
    obtain ⟨rfl, rfl⟩ := h
    exact ⟨#[], by simp, Emitted.nil hready⟩
  | cons σ rest ih =>
    simp only [Compile.emitLoads, Compile.yields_bind, Compile.yields_emitLoad] at h
    obtain ⟨load, t, ⟨rfl, rfl⟩, h⟩ := h
    have hload := Emitted.instruction o base hready (some pos) σ.storage.load
      σ.index 0
    obtain ⟨code, rfl, hrest⟩ := ih hload.ready h
    refine ⟨#[.plain ⟨σ.storage.load, σ.index, 0⟩ (some pos)] ++ code, by simp,
      (hload.seq hrest).imp (by simp) fun L R J p q h => ⟨_, h⟩⟩

theorem loadsAt_of_have {L : Image} {R : Body} {pos : Pos} {p q : Nat} {free : List Symbol}
    (hfree : ∀ σ ∈ free, Γ.resolve R.captured σ.name = some (σ.storage, σ.index) ∧
      L.Within R σ.storage σ.index)
    (h : LoadsHave R pos free p q) : L.loadsAt R Γ pos (free.map (·.name)) p q := by
  induction free generalizing p with
  | nil => exact h
  | cons σ rest ih =>
    obtain ⟨m, hhas, h⟩ := h
    have hσ := hfree σ List.mem_cons_self
    exact ⟨m, ⟨_, _, hσ.1, hσ.2, hhas⟩, ih (fun τ hτ => hfree τ (List.mem_cons_of_mem _ hτ)) h⟩

/-- A finished literal is loaded where it stands. -/
theorem Emitted.loadFunction {R : Body} {free : List Symbol} {n : Nat} (ctx : CompileContext)
    {pos : Pos} (hready : Ready π (Γ.skip n) b)
    (hfin : Finished o π used Γ b R free b.state.symbols.functions laid)
    (hshape : R.captured.length ≤ Compile.maxArgs →
      ∀ L, laid L R none 0 R.code.size → L.Shaped R.routine) {id : FunctionId}
    {code : Code}
    (h : Compile.Yields (if free.isEmpty then Compile.emitConstant ctx pos (.function id R.routine)
      else do
        Compile.limit ctx pos free.length Compile.maxArgs .capturedVariables
        let loads ← Compile.emitLoads pos free #[]
        let index ← Compile.addConstant ctx pos (.function id R.routine)
        let close ← Compile.emit pos .closure index free.length
        pure (loads ++ close)) b.state code s) :
    R.captured.length ≤ Compile.maxArgs ∧
    Emitted o base π (fun _ => False) (Γ.skip n) (Γ.skip n) b code ⟨s, b.log⟩
      (fun L R' _ p q => ∃ k, k < Compile.maxConstants ∧
        L.pool[k]? = some (.function id R.routine) ∧ L.functionAt R' Γ pos k R.captured p q) := by
  have hshaped (hlen : R.captured.length ≤ Compile.maxArgs) :
      ∀ L, Links o π L b → L.Constant (.function id R.routine) :=
    fun L hL => hshape hlen L (hfin.laid L hL)
  cases free with
  | nil =>
    have hnone : R.captured = [] := hfin.names
    simp only [List.isEmpty_nil, if_true, Compile.yields_emitConstant] at h
    obtain ⟨hsize, rfl, rfl⟩ := h
    refine ⟨by simp [hnone], ?_⟩
    refine (Emitted.constant _ _ hready pos _ hsize fun L hL _ =>
      hshaped (by simp [hnone]) L hL).imp (by simp) ?_
    rintro L R' J p q ⟨k, hk, hpool, hhas⟩
    exact ⟨k, hk, hpool, by simpa [hnone, Image.functionAt] using hhas⟩
  | cons σ rest =>
    simp only [List.isEmpty_cons, if_false, Compile.yields_bind, Compile.yields_limit,
      Compile.yields_addConstant, Compile.yields_emit, Compile.yields_pure, Bool.false_eq_true] at h
    obtain ⟨_, _, ⟨hlimit, rfl⟩, loads, t, hloads, k, _, ⟨rfl, hsize, rfl⟩, close, _,
      ⟨rfl, rfl⟩, rfl, rfl⟩ := h
    obtain ⟨code, rfl, hemit⟩ := Emitted.loads o base _ hready hloads
    have hlen : R.captured.length = (σ :: rest).length := by simp [hfin.names]
    have hadd := Emitted.addConstant o base hemit.ready _ hsize
      fun L hL _ => hshaped (by omega) L (hemit.links hL)
    have hclose := Emitted.instruction o base hadd.ready (some pos) .closure
      t.pool.size (σ :: rest).length
    have hknown : Emitted o base π (fun _ => False) (Γ.skip n) (Γ.skip n) b #[] b
        (fun L R' _ p q => p = q ∧ ∀ τ ∈ σ :: rest,
          Γ.resolve R'.captured τ.name = some (τ.storage, τ.index) ∧
            L.Within R' τ.storage τ.index) :=
      (Emitted.nil hready).mono (by simp) fun L R' J hL hframe hadmits hpq =>
        ⟨hpq, fun τ hτ =>
          have hres := hfin.resolve rfl hframe hadmits hτ
          ⟨hres, hready.fits.within hframe hL.cells hres⟩⟩
    refine ⟨by omega, ?_⟩
    have hall := ((hknown.seq hemit).seq hadd).seq hclose
    simp only [Array.append_empty, Array.empty_append] at hall ⊢
    refine hall.imp (by simp) ?_
    rintro L R' J p q ⟨⟨⟨⟨rfl, hfree⟩, hloads⟩, heq, hk, hpool⟩, hhas⟩
    have hnames : R.captured = σ.name :: rest.map (·.name) := hfin.names
    refine ⟨t.pool.size, hk, hpool, ?_⟩
    simp only [hnames, Image.functionAt]
    exact ⟨_, loadsAt_of_have hfree hloads, by simpa [heq] using hhas⟩

end ScriptEngine.Layout
