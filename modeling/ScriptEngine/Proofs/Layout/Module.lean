import ScriptEngine.Proofs.Layout.Statements
/-!
Imports. A module is compiled where it is met first, with names of its own; what its code is laid out
from is the module's text alone.
-/
namespace ScriptEngine.Layout

open Compile Encoding

variable {o : ImportOptions} {base : Nat} {load : CompileContext → Pos → String → CompileM Code}
  {ctx : CompileContext} {π : Place} {used : String → Prop} {Γ Γ' : Names} {a b : Stage}
  {c code : Code} {s : CompileState} {pos : Pos} {key directory : String} {body : List Stmt}

/-- The compiler at the start of a module. -/
def Stage.entered (a : Stage) : Stage :=
  ⟨{ a.state with symbols := a.state.symbols.forModule, here := 0 }, a.log⟩

/-- The compiler behind a module, where it goes on as before. -/
def Stage.left (b : Stage) (before : CompileState) (key directory : String) (source : ByteArray)
    (r : Routine) : Stage :=
  ⟨{ b.state with
    symbols := before.symbols, here := before.here, made := b.state.made + 1
    cache := (key, .function ⟨b.state.maker, b.state.made⟩ r) :: b.state.cache },
    b.log ++ [⟨some key, 0, r, some (directory, source)⟩]⟩

theorem Ready.entered (h : Ready π Γ a) (key directory : String) :
    Ready ⟨key :: π.chain, directory, false, true⟩ .forModule (Stage.entered a) where
  fits := {
    frames := ⟨⟨fun _ => by simp [ScopeFrame.lookup?, ScopeFrame.empty, slotOf], rfl,
      Nat.le_refl _, Nat.zero_le _⟩, by simp [ScopeFrame.empty], trivial⟩
    outside := fun _ => by
      simp [Stage.entered, SymbolTable.forModule, SymbolTable.empty, ScopeFrame.lookup?,
        ScopeFrame.empty, Names.forModule]
    cells := rfl
    bound := by simp [Names.forModule]
    builtins := h.fits.builtins
    slots := rfl }
  made := h.made
  inside := by simp [Names.forModule]

/-- What a module's code is: its statements and a return. -/
def moduleLaid (body : List Stmt) : Laid := fun L R J p q =>
  ∃ m, L.stmtsAt R J .forModule body p m ∧
    if (body.getLast?.map fun s => s.isReturn || s.isExport).getD false then m = q
    else R.Has none .ret 0 0 m q

theorem moduleRoutine_emitted (hload : Imports o base load) (hready : Ready (.of ctx) Γ a)
    {r : Routine} (h : Yields (moduleRoutine load ctx key directory body) a.state r s) :
    ∃ b c used Γ', Emitted o base ⟨key :: ctx.chain, directory, false, true⟩ used .forModule Γ'
        (Stage.entered a) c b (moduleLaid body) ∧
      r = c.toRoutine b.state.symbols.current.slots 0 ∧
      s = { b.state with symbols := a.state.symbols, here := a.state.here } := by
  simp only [moduleRoutine, yields_bind, yields_get, yields_set] at h
  obtain ⟨_, _, ⟨rfl, rfl⟩, _, _, rfl, _, u, hnote, code, t, hcode, h⟩ := h
  have htrace := yields_note hnote
  have hentered := hready.entered key directory
  obtain ⟨trace, rfl⟩ := htrace
  have hstmts : EmitsStmts o base load body := emitsStmts hload body
  obtain ⟨inner, log, rfl, h₁⟩ := hstmts { ctx with
    file := key, importDir := directory, inModule := true, inFunction := false, inLoop := false
    chain := key :: ctx.chain, depth := ctx.depth + 1 } (hentered.of_trace trace) hcode
  have h₁ := h₁.of_trace
  rw [Array.empty_append] at h
  simp only [yields_ite, yields_bind, yields_pure, yields_get, yields_modify, yields_lay] at h
  rcases h with ⟨hlast, _, _, ⟨rfl, rfl⟩, _, _, ⟨rfl, rfl⟩, _, _, rfl, rfl, rfl⟩ |
    ⟨hlast, _, _, rfl, _, _, ⟨rfl, rfl⟩, _, _, ⟨rfl, rfl⟩, _, _, rfl, rfl, rfl⟩
  · refine ⟨_, _, _, _, h₁.imp (fun _ _ => Iff.rfl) fun L R J p q h => ⟨q, h, ?_⟩,
      rfl, rfl⟩
    rw [if_pos hlast]
  · have h₂ := Emitted.instruction o base h₁.ready none .ret 0 0
    rw [Array.push_eq_append]
    refine ⟨_, _, _, _, (h₁.seq h₂).imp (fun _ _ => Iff.rfl)
      fun L R J p q h => ⟨_, h.1, ?_⟩, rfl, rfl⟩
    rw [if_neg hlast]
    exact h.2

/-- Behind a module's statements its one function is open. -/
theorem Emitted.module_frame {laid : Laid}
    (h : Emitted o base ⟨key :: π.chain, directory, false, true⟩ used .forModule Γ'
      (Stage.entered a) c b laid) :
    b.state.symbols.globals = 0 ∧ ∃ f, b.state.symbols.functions = [f] ∧ f.captured = [] ∧
      f.slots ≤ 256 := by
  have hmoves := h.moves.2
  have hframes := h.ready.fits.frames
  have haround := h.around
  match hf : b.state.symbols.functions, hΓ : Γ'.functions with
  | [], _ => simp [Names.around?, Names.forModule, Stage.entered, SymbolTable.forModule, hf] at hmoves
  | f :: fs, [] =>
    rw [hf, hΓ] at hframes
    exact hframes.elim
  | f :: fs, vars :: around =>
    simp only [Names.around?, Names.forModule, List.tail?_cons, Stage.entered,
      SymbolTable.forModule, hf] at hmoves
    rw [hf, hΓ] at hframes
    obtain rfl : around = [] := by simpa [Names.around?, Names.forModule, hΓ] using haround
    cases fs with
    | cons f' fs => exact hframes.2.2.elim
    | nil =>
      refine ⟨hmoves.2.1, f, rfl, ?_, hframes.1.limit⟩
      refine List.eq_nil_iff_forall_not_mem.mpr fun x hx => ?_
      simpa [ScopeFrame.captured, ScopeFrame.empty] using (hmoves.2.2.1.captured x).mp hx

theorem Records.module {r : Routine} {n first next : Nat} {source : ByteArray}
    (h : Records (key :: π.chain) first next (Stage.entered a) b) (hfirst : 0 < first)
    (hchain : key ∉ π.chain) (hnew : key ∉ a.keys) :
    Records π.chain n n a (Stage.left b a.state key directory source r) := by
  obtain ⟨new, more, hcache, hlog, hnodup, hfresh, hmore, hown⟩ := h
  refine ⟨(key, .function ⟨b.state.maker, b.state.made⟩ r) :: new,
    more ++ [⟨some key, 0, r, some (directory, source)⟩], congrArg _ hcache, ?_, ?_, ?_, ?_, fun m hm => Or.inr ?_⟩
  · rw [← List.append_assoc]
    exact congrArg (· ++ _) hlog
  · refine List.nodup_cons.mpr ⟨fun hk => ?_, hnodup⟩
    obtain ⟨e, he, hkey⟩ := List.mem_map.mp hk
    exact (hfresh e he).2 (hkey ▸ List.mem_cons_self)
  · intro e he
    rcases List.mem_cons.mp he with rfl | he
    · exact ⟨hnew, hchain⟩
    · exact ⟨(hfresh e he).1, fun hc => (hfresh e he).2 (List.mem_cons_of_mem _ hc)⟩
  · rw [List.map_append, List.nodup_append]
    refine ⟨hmore, by simp, fun k hk k' hk' hkk => ?_⟩
    obtain ⟨m, hm, rfl⟩ := List.mem_map.mp hk
    obtain rfl : k' = (some key, 0) := by simpa [Made.key] using hk'
    have hunit : m.unit = some key := congrArg Prod.fst hkk
    have hnumber : m.number = 0 := congrArg Prod.snd hkk
    rcases hown m hm with ⟨_, hge, _⟩ | ⟨e, he, hu⟩
    · omega
    · have : e.1 = key := by simpa [hunit] using hu.symm
      exact (hfresh e he).2 (this ▸ List.mem_cons_self)
  · rcases List.mem_append.mp hm with hm | hm
    · rcases hown m hm with ⟨hu, _⟩ | ⟨e, he, hu⟩
      · exact ⟨_, List.mem_cons_self, hu⟩
      · exact ⟨e, List.mem_cons_of_mem _ he, hu⟩
    · rw [List.mem_singleton.mp hm]
      exact ⟨_, List.mem_cons_self, rfl⟩

/-- A module that is met first is compiled in between. -/
theorem Emitted.module (hready : Ready π Γ a) (hchain : key ∉ π.chain)
    (hnew : key ∉ a.keys)
    (h : Emitted o base ⟨key :: π.chain, directory, false, true⟩ used .forModule Γ'
      (Stage.entered a) c b (moduleLaid body)) {source : ByteArray}
    (hsource : ∀ L : Image, L.options = o → L.IsSource key source)
    (hdirectory : o.registry[key]? = none → directory = Path.parent key)
    (hparse : parse key source = .ok body) :
    Emitted o base π (fun _ => False) Γ Γ a #[]
      (Stage.left b a.state key directory source (c.toRoutine b.state.symbols.current.slots 0))
      (fun _ _ _ p q => p = q) := by
  obtain ⟨hglobals, f, hfs, hcaptured, hlimit⟩ := h.module_frame
  have hslots : b.state.symbols.current.slots = f.slots := by simp [SymbolTable.current, hfs]
  rw [hslots]
  let R : Body := ⟨c, f.slots, 0, [], some key⟩
  let d := Stage.left b a.state key directory source R.routine
  have horigin (L : Image) (hL : Links o π L d) :
      L.directory (some key) = directory ∧ L.source key = source :=
    hL.origins key R.routine directory source (by simp [d, Stage.left])
  have hlinks (L : Image) (hL : Links o π L d) :
      Links o ⟨key :: π.chain, directory, false, true⟩ L b := by
    obtain ⟨hmade, horigins⟩ := hL.front rfl
    exact ⟨hL.options, hL.attrs, hL.pool, fun e he => hL.modules e (List.mem_cons_of_mem _ he),
      hmade, by simp [hglobals], horigins, (horigin L hL).1⟩
  have hhere : b.state.here = c.size := by simpa [Stage.entered] using h.here
  refine ⟨hready, ⟨hready.fits, ?_, hready.inside⟩, rfl, Nat.le_refl _, Nat.le_refl _, ?_, h.maker,
    h.pool, Records.module h.records Nat.one_pos hchain hnew, Moves.refl hready.fits,
    fun L hL hv => ?_, fun _ _ _ _ _ _ _ _ _ => rfl⟩
  · simp [Stage.left, h.ready.made]
  · simp [Stage.left, Code.size]
  · have hold := h.valid L (hlinks L hL) ⟨hv.modules, hv.constants⟩
    refine ⟨fun e he => ?_, hold.constants⟩
    rcases List.mem_cons.mp he with rfl | he
    · obtain ⟨hfiles, rfl⟩ := horigin L hL
      have hmade := hL.made b.log.length ⟨some key, 0, R.routine, some (directory, L.source key)⟩
        (by simp [Stage.left, Body.routine, R])
      have hlaid := h.laid L R none (hlinks L hL)
        ⟨Nat.le_of_eq hslots, by simp [capturedIn, hfs, hcaptured]⟩ rfl
        (fun x hx => by simp [R] at hx) rfl ⟨[], [], by simp [R], rfl⟩
      rw [hhere] at hlaid
      have hparent (hnone : L.options.registry[key]? = none) := hdirectory (hL.options ▸ hnone)
      refine ⟨hsource L hL.options, fun hnone => hfiles.trans (hparent hnone), body, R, hparse, ?_,
        hmade.2, rfl, rfl, rfl, ⟨hlimit, Nat.zero_le _, Nat.zero_le _, Nat.zero_le _⟩, hlaid⟩
      rw [hmade.1, h.ready.made]
      rfl
    · exact hold.modules e he

theorem mem_of_lookup {α β : Type} [BEq α] [LawfulBEq α] {l : List (α × β)} {x : α} {y : β}
    (h : l.lookup x = some y) : (x, y) ∈ l := by
  obtain ⟨pre, post, rfl, _⟩ := List.lookup_eq_some_iff.mp h
  simp

/-- The function of a module is at hand once the module has been compiled. -/
theorem moduleFunction_emitted (hload : Imports o base load) (hready : Ready (.of ctx) Γ a)
    {source : ByteArray} {f : Value}
    (hsource : ∀ L : Image, L.options = o → L.IsSource key source)
    (hdirectory : o.registry[key]? = none → directory = Path.parent key)
    (h : Yields (moduleFunction load ctx pos key directory source) a.state f s) :
    (key, f) ∈ s.cache ∧ ∃ log, Emitted o base (.of ctx) (fun _ => False) Γ Γ a #[] ⟨s, log⟩
      (fun _ _ _ p q => p = q) := by
  simp only [moduleFunction, yields_ite, yields_fail, and_false, false_or, yields_bind,
    yields_get] at h
  obtain ⟨hchain, _, _, ⟨rfl, rfl⟩, h⟩ := h
  have hkey : key ∉ ctx.chain := by simpa using hchain
  cases hcache : a.state.cache.lookup key with
  | some f' =>
    simp only [hcache, yields_pure] at h
    obtain ⟨rfl, rfl⟩ := h
    exact ⟨mem_of_lookup hcache, a.log, Emitted.nil hready⟩
  | none =>
    simp only [hcache] at h
    cases hparse : parse key source with
    | error e => simp [hparse] at h
    | ok body =>
      simp only [hparse, yields_bind, yields_modify, yields_pure] at h
      obtain ⟨r, t, hr, _, _, hf, _, _, rfl, rfl, rfl⟩ := h
      obtain ⟨rfl, rfl⟩ := yields_makeFunction.mp hf
      obtain ⟨b, c, used, Γ', hemit, rfl, rfl⟩ := moduleRoutine_emitted hload hready hr
      have hnew : key ∉ a.keys := fun hk => by
        obtain ⟨e, he, rfl⟩ := List.mem_map.mp hk
        simpa using List.lookup_eq_none_iff.mp hcache e he
      exact ⟨List.mem_cons_self, _, Emitted.module hready hkey hnew hemit hsource hdirectory hparse⟩

variable (o base) in
/-- The function of a module is called. -/
theorem moduleCall_emitted (hready : Ready (.of ctx) Γ a) {f : Value} (hf : (key, f) ∈ a.state.cache)
    (h : Yields (emitModuleCall ctx pos f) a.state code s) :
    Emitted o base (.of ctx) (fun _ => False) Γ Γ a code ⟨s, a.log⟩
      (fun L R _ p q => ∃ m, L.modules key = some f ∧ L.constantAt R pos f p m ∧
        R.Has (some pos) .call 0 0 m q) := by
  simp only [emitModuleCall, yields_bind, yields_emitConstant, yields_emit, yields_pure] at h
  obtain ⟨_, _, ⟨hsize, rfl, rfl⟩, _, _, ⟨rfl, rfl⟩, rfl, rfl⟩ := h
  have hshaped (L : Image) (hv : Valid base L a) : L.Constant f := by
    obtain ⟨_, _, body, R, _, hfr, _, _, _, _, hsmall, hlaid⟩ := hv.modules _ hf
    simp only at hfr
    rw [hfr]
    exact ⟨R, rfl, hsmall, Or.inr ⟨body, hlaid⟩⟩
  have h₁ := Emitted.constant o base hready pos f hsize fun L _ => hshaped L
  have h₂ := Emitted.instruction o base h₁.ready (some pos) .call 0 0
  refine (h₁.seq h₂).mono (by simp) fun L R J hL _ _ h => ⟨_, hL.modules _ hf, h⟩

theorem Imports.module (hload : Imports o base load)
    (hready : Ready (.of ctx) Γ a) {source : ByteArray}
    (hsource : ∀ L : Image, L.options = o → L.IsSource key source)
    (hdirectory : o.registry[key]? = none → directory = Path.parent key)
    (h : Yields (moduleFunction load ctx pos key directory source >>= emitModuleCall ctx pos) a.state
      code s) :
    ∃ log, Emitted o base (.of ctx) (fun _ => False) Γ Γ a code ⟨s, log⟩
      (fun L R _ p q => ∃ f m, L.modules key = some f ∧ L.constantAt R pos f p m ∧
        R.Has (some pos) .call 0 0 m q) := by
  obtain ⟨f, t, hfunction, hcall⟩ := yields_bind.mp h
  obtain ⟨hf, log, h₁⟩ := moduleFunction_emitted hload hready hsource hdirectory hfunction
  have h₂ := moduleCall_emitted o base h₁.ready hf hcall
  have hall := h₁.seq h₂
  rw [Array.empty_append] at hall
  refine ⟨log, hall.imp (by simp) ?_⟩
  rintro L R J p q ⟨rfl, h⟩
  exact ⟨f, h⟩

theorem importModule_succ (o : ImportOptions) (depth : Nat) (ctx : CompileContext) (pos : Pos)
    (name : String) :
    importModule o (depth + 1) ctx pos name = (do
      match o.registry[name]? with
      | some (.attrs entries) => emitConstant ctx pos (.module name (Entries.ofList entries))
      | some (.script text) =>
        let f ← moduleFunction (importModule o depth) ctx pos name ctx.importDir text.toUTF8
        emitModuleCall ctx pos f
      | none =>
        if o.fileImport then
          match o.path ctx.importDir name with
          | .error cause => fail ctx pos cause
          | .ok path =>
            match (← get).cache.lookup path with
            | some f => emitModuleCall ctx pos f
            | none =>
              match o.files.read path with
              | .error fault => fail ctx pos (.moduleRead name fault)
              | .ok source =>
                let f ← moduleFunction (importModule o depth) ctx pos path (Path.parent path) source
                emitModuleCall ctx pos f
        else if o.namesFile name then fail ctx pos (.fileImportDisabled name)
        else fail ctx pos (.moduleNotFound name)) := by
  delta importModule
  rfl

/-- Every import is laid out, however deeply modules import one another. -/
theorem imports_importModule (o : ImportOptions) (base depth : Nat) :
    Imports o base (importModule o depth) := by
  induction depth with
  | zero =>
    intro ctx pos name Γ a code s _ h
    exact (yields_fail h).elim
  | succ depth ih =>
    intro ctx pos name Γ a code s hready h
    rw [importModule_succ] at h
    cases hname : o.registry[name]? with
    | some source =>
      cases source with
      | attrs entries =>
        simp only [hname, yields_emitConstant] at h
        obtain ⟨hsize, rfl, rfl⟩ := h
        have hemit := Emitted.constant o base hready pos
          (.module name (Entries.ofList entries)) hsize
          fun L hL _ => (hL.attrs name entries hname).symm
        refine ⟨_, hemit.mono (by simp) fun L R J hL _ _ h => ?_⟩
        simp only [Image.importAt, hL.options, hname, hL.attrs name entries hname]
        exact h
      | script text =>
        simp only [hname] at h
        obtain ⟨log, hemit⟩ := Imports.module ih hready
          (fun L hL => Or.inl ⟨text, by rw [hL]; exact hname, rfl⟩) (by simp [hname]) h
        refine ⟨log, hemit.mono (by simp) fun L R J hL _ _ h => ?_⟩
        simp only [Image.importAt, hL.options, hname]
        exact h
    | none =>
      simp only [hname, yields_ite, yields_fail, and_false, or_false] at h
      obtain ⟨hfile, h⟩ := h
      have hdone {key : String} {log : List Made} (hpath : o.path ctx.importDir name = .ok key)
          (hemit : Emitted o base (.of ctx) (fun _ => False) Γ Γ a code ⟨s, log⟩
            (fun L R _ p q => ∃ f m, L.modules key = some f ∧ L.constantAt R pos f p m ∧
              R.Has (some pos) .call 0 0 m q)) :
          Emitted o base (.of ctx) (fun _ => False) Γ Γ a code ⟨s, log⟩
            (fun L R _ p q => L.importAt R pos name p q) := by
        refine hemit.housed.mono (by simp) fun L R J hL _ _ h => ?_
        obtain ⟨hdirectory, f, m, h⟩ := h
        simp only [Image.importAt, hL.options, hname, hdirectory]
        exact ⟨hfile, key, f, m, hpath, h⟩
      cases hpath : o.path ctx.importDir name with
      | error cause => simp [hpath] at h
      | ok path =>
        simp only [hpath, yields_bind, yields_get] at h
        obtain ⟨_, _, ⟨rfl, rfl⟩, h⟩ := h
        cases hcache : a.state.cache.lookup path with
        | some f =>
          simp only [hcache] at h
          have hf := mem_of_lookup hcache
          have hemit := moduleCall_emitted o base hready hf h
          exact ⟨_, hdone hpath (hemit.imp (by simp) fun L R J p q h => ⟨f, h⟩)⟩
        | none =>
          simp only [hcache] at h
          cases hread : o.files.read path with
          | error fault => simp [hread] at h
          | ok source =>
            simp only [hread] at h
            obtain ⟨log, hemit⟩ := Imports.module ih hready
              (fun L hL => Or.inr ⟨by rw [hL]; exact hfile, by rw [hL]; exact hread⟩)
              (fun _ => rfl) h
            exact ⟨log, hdone hpath hemit⟩

end ScriptEngine.Layout
