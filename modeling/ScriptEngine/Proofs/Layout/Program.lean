import Mathlib.Data.List.Nodup
import ScriptEngine.Compile.Program
import ScriptEngine.Proofs.Layout.Module
import ScriptEngine.Script.Basic
/-! Whole programs: every part of a program that compiles is laid out in its bytecode. -/
namespace ScriptEngine

/-- The names at the start of a script. The bound names have the first cells. -/
def Script.names (s : Script) : Names :=
  s.bindings.foldl (fun Γ b => Γ.define b.1) ⟨[], [], 0, 0⟩

/-- An artifact is made of the compilation of the script's text. -/
theorem Script.compile_artifact {s : Script} {maker : Nat} {a : Artifact}
    (h : (s.compile maker).1 = .ok a) :
    ∃ body c, parse s.file s.source = .ok body ∧
      (ScriptEngine.compile (s.compileOptions maker) s.file body).1 = .ok c ∧ a = s.artifact c := by
  unfold Script.compile at h
  split at h
  · cases h
  · rename_i body hparse
    split at h
    · cases h
    · rename_i c trace hcompile
      refine ⟨body, c, hparse, by rw [hcompile], ?_⟩
      dsimp only at h
      split at h
      · exact (Except.ok.inj h).symm
      · split at h
        · cases h
        · exact (Except.ok.inj h).symm

/-- All that a finished program refers to is laid out, but for some constants that came from
outside. -/
structure Image.Complete (L : Image) (foreign : List Value) : Prop where
  modules : ∀ key f, L.modules key = some f → L.ModuleAt key f
  constants : ∀ v ∈ L.pool, v ∈ foreign ∨ L.Constant v
  /-- Every literal has a function object of its own. -/
  distinct : ∀ u n u' n', (L.routines u n).isSome → (L.routines u' n').isSome →
    L.ids u n = L.ids u' n' → u = u' ∧ n = n'

/-- A program is laid out in the code of a main routine. -/
structure Image.Lays (L : Image) (R : Body) (Γ : Names) (body : List Stmt) : Prop where
  locals : R.locals = 0
  captured : R.captured = []
  unit : R.unit = none
  code : L.mainAt R Γ body

namespace Layout

open Compile Encoding

variable {Γ : Names} {t : SymbolTable}

/-- A table that knows the builtins alone. -/
def builtinSymbols : SymbolTable :=
  Builtin.all.toList.zipIdx.foldl (fun t (b, i) => SymbolTable.defineBuiltin t b.name i) .empty

theorem builtinSymbols_eq : builtinSymbols = { SymbolTable.empty with
    builtins := builtinSymbols.builtins } := by
  simp [builtinSymbols, Builtin.all, SymbolTable.defineBuiltin, SymbolTable.empty]

theorem builtins_builtinSymbols (x : String) :
    builtinSymbols.builtins[x]? = Builtin.all.findIdx? (·.name = x) := by
  simp [builtinSymbols, Builtin.all, SymbolTable.defineBuiltin, SymbolTable.empty,
    Std.TreeMap.getElem?_insert, List.findIdx?_cons, Builtin.name]
  by_cases hx : x ∈ Builtin.all.toList.map Builtin.name
  · simp only [Builtin.all, Builtin.name, List.map_cons, List.map_nil, List.mem_cons,
      List.not_mem_nil, or_false] at hx
    rcases hx with rfl | rfl | rfl | rfl | rfl | rfl | rfl | rfl <;> simp
  · simp only [Builtin.all, Builtin.name, List.map_cons, List.map_nil, List.mem_cons,
      List.not_mem_nil, or_false, not_or, @eq_comm _ x] at hx
    simp [hx]

theorem Fits.bindings (bindings : List (String × Value)) (h : Fits Γ t) (hΓ : Γ.functions = []) :
    let Γ' := bindings.foldl (fun Γ b => Γ.define b.1) Γ
    Fits Γ' (bindings.foldl (fun t b => (t.define b.1).2) t) ∧ Γ'.functions = [] := by
  induction bindings generalizing Γ t with
  | nil => exact ⟨h, hΓ⟩
  | cons b rest ih =>
    have hsymbol : (t.define b.1).1.storage = .global := by
      simp [SymbolTable.define, h.functions_eq_nil.mpr hΓ]
    have hsplit : t.define b.1 = ((t.define b.1).1, (t.define b.1).2) := rfl
    have hdefine := h.define hsplit (fun hs => by simp [hsymbol] at hs)
    exact ih hdefine.1 (by simp only [Names.define_outside hΓ, hΓ])

theorem script_fits (s : Script) : Fits s.names s.symbols ∧ s.names.functions = [] := by
  have h : Fits ⟨[], [], 0, 0⟩ builtinSymbols := by
    rw [builtinSymbols_eq]
    refine ⟨trivial, fun x => ?_, rfl, by simp, fun x => ?_, rfl⟩
    · simp [SymbolTable.empty, ScopeFrame.lookup?, ScopeFrame.empty]
    · rw [← builtinSymbols_eq, builtins_builtinSymbols]
  exact h.bindings s.bindings rfl

variable {o : CompileOptions} {file : String} {body : List Stmt} {c : Compilation}
  {trace : Array String}

/-- Where the files lie that a module imports, and its text. -/
def Stage.origin (b : Stage) (key : String) : Option (String × ByteArray) :=
  (b.log.find? (·.key = (some key, 0))).bind (·.origin)

/-- What the code of a finished compilation refers to. -/
def Stage.image (b : Stage) (o : ImportOptions) (directory : String) : Image where
  options := o
  pool := b.state.pool
  cells := b.state.symbols.globals
  attrs name :=
    match o.registry[name]? with
    | some (.attrs entries) => Entries.ofList entries
    | _ => []
  modules key := b.state.cache.lookup key
  source key := ((Stage.origin b key).map (·.2)).getD .empty
  directory
    | none => directory
    | some key => ((Stage.origin b key).map (·.1)).getD directory
  ids unit number := ⟨b.state.maker, b.log.findIdx (·.key = (unit, number))⟩
  routines unit number := (b.log.find? (·.key = (unit, number))).map (·.routine)

theorem lookup_of_nodup {α β : Type} [BEq α] [LawfulBEq α] {l : List (α × β)} {e : α × β}
    (hnodup : (l.map (·.1)).Nodup) (h : e ∈ l) : l.lookup e.1 = some e.2 := by
  obtain ⟨pre, post, rfl⟩ := List.append_of_mem h
  refine List.lookup_eq_some_iff.mpr ⟨pre, post, rfl, fun p hp => ?_⟩
  simp only [List.map_append, List.map_cons, List.nodup_append] at hnodup
  have := hnodup.2.2 p.1 (List.mem_map_of_mem hp) e.1 List.mem_cons_self
  simpa using fun he => this he.symm

/-- Each literal has been recorded once. -/
theorem Stage.find_made {b : Stage} (hlog : (b.log.map Made.key).Nodup) {j : Nat} {m : Made}
    (hm : b.log[j]? = some m) : b.log.findIdx (·.key = (m.unit, m.number)) = j ∧
      b.log.find? (·.key = (m.unit, m.number)) = some m := by
  obtain ⟨hj, hmj⟩ := List.getElem?_eq_some_iff.mp hm
  have hother (k : Nat) (hk : k < j) : (b.log[k]).key ≠ m.key := fun he => by
    have hjlog : j < (b.log.map Made.key).length := by simpa using hj
    have hklog : k < (b.log.map Made.key).length := Nat.lt_trans hk hjlog
    have hinj : (b.log.map Made.key)[k] = (b.log.map Made.key)[j] ↔ k = j :=
      hlog.getElem_inj_iff
    simp only [List.getElem_map, hmj] at hinj
    exact absurd (hinj.mp he) (by omega)
  refine ⟨(List.findIdx_eq hj).mpr ⟨by simp [hmj, Made.key], fun k hk =>
    decide_eq_false (hother k hk)⟩, ?_⟩
  refine List.find?_eq_some_iff_getElem.mpr ⟨by simp [Made.key], j, hj, hmj, fun k hk => ?_⟩
  rw [Bool.not_eq_true']
  exact decide_eq_false (hother k hk)

theorem Stage.links_image {b : Stage} {o : ImportOptions} {directory : String}
    (hcache : b.keys.Nodup) (hlog : (b.log.map Made.key).Nodup) :
    Links o ⟨[], directory, false, false⟩ (Stage.image b o directory) b where
  options := rfl
  attrs name entries h := by simp [Stage.image, h]
  pool := List.prefix_refl _
  modules e he := lookup_of_nodup hcache he
  made j m hm := by
    obtain ⟨hindex, hfound⟩ := Stage.find_made hlog hm
    exact ⟨congrArg _ hindex, by simp [Stage.image, hfound]⟩
  cells := Nat.le_refl _
  origins key r directory source hm := by
    obtain ⟨j, hj⟩ := List.getElem?_of_mem hm
    have horigin : Stage.origin b key = some (directory, source) := by
      simp only [Stage.origin, (Stage.find_made hlog hj).2, Option.bind_some]
    simp [Stage.image, horigin]
  directory := rfl

theorem Stage.image_distinct (b : Stage) (o : ImportOptions) (directory : String)
    (u : Option String) (n : Nat) (u' : Option String) (n' : Nat) :
    let L := Stage.image b o directory
    (L.routines u n).isSome → (L.routines u' n').isSome → L.ids u n = L.ids u' n' →
      u = u' ∧ n = n' := by
  intro L h h' hids
  have hkey {u : Option String} {n : Nat} (h : (L.routines u n).isSome) :
      (b.log[b.log.findIdx (·.key = (u, n))]?).map Made.key = some (u, n) := by
    simp only [L, Stage.image, Option.isSome_map, List.find?_isSome] at h
    obtain ⟨m, hm, hmk⟩ := h
    have hlt : b.log.findIdx (·.key = (u, n)) < b.log.length :=
      List.findIdx_lt_length_of_exists ⟨m, hm, hmk⟩
    have hfound := List.findIdx_getElem (p := fun m : Made => decide (m.key = (u, n))) (w := hlt)
    simpa [List.getElem?_eq_getElem hlt] using hfound
  have hindex : b.log.findIdx (·.key = (u, n)) = b.log.findIdx (·.key = (u', n')) :=
    congrArg FunctionId.serial hids
  have := hkey h
  rw [hindex, hkey h'] at this
  simpa [eq_comm] using this

/-- Outside of functions the compiler stays there, and needs no frame. -/
theorem Emitted.outside {o : ImportOptions} {base : Nat} {π : Place} {used : String → Prop}
    {Γ' : Names} {a b : Stage} {code : Code} {laid : Laid}
    (h : Emitted o base π used Γ Γ' a code b laid) (hΓ : Γ.functions = []) :
    b.state.symbols.functions = [] ∧ b.state.symbols.current.slots = 0 := by
  have hmoves := h.moves.2
  have hnil : b.state.symbols.functions = [] := by
    match ha : a.state.symbols.functions, hb : b.state.symbols.functions with
    | [], [] => rfl
    | _ :: _, _ | [], _ :: _ => simp [Names.around?, hΓ, ha, hb] at hmoves
  exact ⟨hnil, by simp [SymbolTable.current, hnil, h.ready.fits.slots]⟩

/-- A program that compiles is laid out in its bytecode. -/
theorem compile_laid (hfits : Fits Γ o.symbols) (hΓ : Γ.functions = [])
    (h : compile o file body = (.ok c, trace)) :
    ∃ (L : Image) (R : Body), c.bytecode.file = file ∧ L.options = o.toImportOptions ∧
      L.directory none = o.importDir ∧ L.pool = c.bytecode.pool ∧
      L.cells = c.symbols.globals ∧ R.routine = c.bytecode.main ∧ L.Lays R Γ body ∧
      L.Complete o.pool.toList ∧ o.pool.toList <+: L.pool.toList ∧
      (∀ name, L.attrs name = match o.registry[name]? with
        | some (.attrs entries) => Entries.ofList entries
        | _ => []) ∧
      ∀ u n, (L.routines u n).isSome → (L.ids u n).maker = o.maker := by
  dsimp only [compile] at h
  split at h
  · rename_i main s hrun
    obtain ⟨rfl, rfl⟩ : ⟨⟨file, main, s.pool⟩, s.symbols, s.made⟩ = c ∧ s.trace = trace := by
      simpa using h
    have hmain : Yields (mainRoutine o file body) _ main s := hrun
    simp only [mainRoutine, yields_bind, yields_lay, yields_get, yields_pure] at hmain
    obtain ⟨_, t, hnote, code, u, hcode, _, _, rfl, _, _, ⟨rfl, rfl⟩, rfl, rfl⟩ := hmain
    obtain ⟨trace, rfl⟩ := yields_note hnote
    have hstmts : EmitsStmts o.toImportOptions o.pool.size
        (importModule o.toImportOptions o.maxDepth) body :=
      emitsStmts (imports_importModule _ _ _) body
    obtain ⟨code, log, rfl, h₁⟩ :=
      hstmts _ (Γ := Γ) (a := ⟨_, []⟩) ⟨hfits, rfl, by simp [Place.of]⟩ hcode
    have h₂ := Emitted.instruction o.toImportOptions o.pool.size h₁.ready none
      .suspend 0 0
    have hall := h₁.seq h₂
    obtain ⟨hfunctions, hslots⟩ := hall.outside hΓ
    obtain ⟨new, more, hcache, hlog, hnew, _, hmore, _⟩ := hall.records
    let b : Stage := ⟨{ u with here := u.here + Opcode.suspend.size }, log⟩
    have hkeys : b.keys.Nodup := by
      change (u.cache.map (·.1)).Nodup
      rw [show u.cache = new ++ [] from hcache, List.append_nil]
      exact hnew
    have hmade : (b.log.map Made.key).Nodup := by
      rw [hlog]
      exact hmore
    let L : Image := Stage.image b o.toImportOptions o.importDir
    have hL : Links o.toImportOptions _ L b := Stage.links_image hkeys hmade
    have hvalid := hall.valid _ hL ⟨by simp, fun k v hk hv => by
      rw [Array.getElem?_eq_none hk] at hv
      simp at hv⟩
    have hcode : (#[] ++ code).push (.plain ⟨.suspend, 0, 0⟩ none) =
        code ++ #[.plain ⟨.suspend, 0, 0⟩ none] := by simp
    let R : Body := ⟨code ++ #[.plain ⟨.suspend, 0, 0⟩ none], 0, 0, [], none⟩
    have hlaid := hall.laid L R none hL
      ⟨Nat.le_of_eq hslots, by rw [hfunctions]; exact List.nil_prefix⟩ rfl
      (fun x hx => by simp [R] at hx) rfl ⟨[], [], by simp [R, Item.closeFor], rfl⟩
    have hhere := hall.here
    simp only [Nat.zero_add] at hhere
    refine ⟨L, R, rfl, rfl, rfl, rfl, rfl, ?_, ⟨rfl, rfl, rfl, ?_⟩,
      ⟨fun key f hf => hvalid.modules (key, f) (mem_of_lookup hf), fun v hv => ?_,
        Stage.image_distinct b _ _⟩, hall.pool, fun _ => rfl, fun u n _ => hall.maker⟩
    · rw [hcode]
      exact congrArg (Code.toRoutine _ · 0) hslots.symm
    · simp only [Image.mainAt]
      rw [hhere] at hlaid
      exact ⟨_, hlaid⟩
    · obtain ⟨k, hk⟩ := Array.getElem?_of_mem hv
      by_cases hbase : k < o.pool.size
      · obtain ⟨more, hmore⟩ := hall.pool
        have hseed : o.pool.toList[k]? = some v := by
          rw [← Array.getElem?_toList, show L.pool.toList =
            o.pool.toList ++ more from hmore.symm, List.getElem?_append_left (by simpa using hbase)]
            at hk
          exact hk
        exact Or.inl (List.mem_of_getElem? hseed)
      · exact Or.inr (hvalid.constants k v (by omega) hk)
  · simp at h

end Layout

end ScriptEngine
