import ScriptEngine.Proofs.Merge.Layout
/-! Every script that compiles is laid out in the bytecode of its artifact. -/
namespace ScriptEngine

/-- The attributes that a host module has among some constants. -/
def attributesIn (constants : List Value) (name : String) : Option (List (String × Value)) :=
  match constants.find? (ConstantKey.of? · = some (.module name)) with
  | some (.module _ attrs) => some attrs
  | _ => none

/-- The attributes of a host module as the host registered them. -/
def Registry.attributes (r : Registry) (name : String) : List (String × Value) :=
  match r[name]? with
  | some (.attrs entries) => Entries.ofList entries
  | _ => []

/-- What a script can import. -/
def Script.imports (s : Script) : ImportOptions :=
  { registry := s.registry, files := s.files, fileImport := s.fileImport, extension := s.extension }

/-- A script's artifact, laid out. Modules among the constants at the start take the place of
registered modules of their name. -/
structure Script.Laid (s : Script) (a : Artifact) (body : List Stmt) (L : Image) (R : Body) :
    Prop where
  parsed : parse s.file s.source = .ok body
  options : L.options = s.imports
  directory : L.directory none = s.importDir
  pool : L.pool = a.bytecode.pool
  file : a.bytecode.file = s.file
  main : R.routine = a.bytecode.main
  cells : L.cells = a.globals.size
  globals : a.globals = s.globals.resize L.cells
  lays : L.Lays R s.names body
  complete : ∃ moved, L.Complete (s.pool.map (Value.redirect moved))
  attrs : ∀ name, L.attrs name = (attributesIn s.pool name).getD (s.registry.attributes name)

namespace Image

variable {L : Image} {foreign : List Value}

theorem merge_attrs (h : L.Complete foreign) (hseeds : foreign <+: L.pool.toList) (name : String) :
    L.merge.attrs name = (attributesIn foreign name).getD (L.attrs name) := by
  obtain ⟨more, hmore⟩ := hseeds
  have hmodule : ((foreign ++ more).find? (ConstantKey.of? · = some (.module name))).getD
      (.module name (L.attrs name)) = .module name (L.merge.attrs name) := by
    rw [hmore]
    exact first_module name
  rw [List.find?_append] at hmodule
  unfold attributesIn
  cases hseed : foreign.find? (ConstantKey.of? · = some (.module name)) with
  | some v =>
    simp only [hseed, Option.some_or, Option.getD_some] at hmodule
    simp [hmodule]
  | none =>
    simp only [hseed, Option.none_or] at hmodule
    cases hnew : more.find? (ConstantKey.of? · = some (.module name)) with
    | none =>
      simp only [hnew, Option.getD_none, Value.module.injEq, true_and] at hmodule
      simp [hmodule]
    | some v =>
      obtain rfl : v = .module name (L.merge.attrs name) := by simpa [hnew] using hmodule
      have hmem : .module name (L.merge.attrs name) ∈ L.pool := by
        rw [← Array.mem_toList_iff, ← hmore]
        exact List.mem_append_right _ (List.mem_of_find?_eq_some hnew)
      rcases h.constants _ hmem with hv | hv
      · have := List.find?_eq_none.mp hseed _ hv
        simp [ConstantKey.of?] at this
      · exact hv

end Image

theorem script_laid {s : Script} {maker : Nat} {a : Artifact} (h : (s.compile maker).1 = .ok a) :
    ∃ body L R, s.Laid a body L R := by
  obtain ⟨body, c, hparse, hok, rfl⟩ := Script.compile_artifact h
  have hcompile : ScriptEngine.compile (s.compileOptions maker) s.file body = (.ok c, _) :=
    Prod.ext hok rfl
  obtain ⟨hfits, hΓ⟩ := Layout.script_fits s
  obtain ⟨L, R, hfile, hoptions, hdirectory, hpool, hcells, hmain, hlays, hcomplete, hseeds,
      hattrs, -⟩ :=
    Layout.compile_laid (o := s.compileOptions maker) hfits hΓ hcompile
  have hL : L.CallsModules := fun key f hf => by
    obtain ⟨_, _, _, R', _, rfl, _⟩ := hcomplete.modules key f hf
    exact ⟨_, _, rfl⟩
  refine ⟨body, L.merge, R.redirect L.moved, hparse, hoptions, hdirectory, ?_, hfile, ?_, ?_, ?_,
    Image.Lays.merge hL hlays, ⟨_, Image.Complete.merge hL hcomplete⟩, fun name => ?_⟩
  · simp [Image.merge, Script.artifact, Bytecode.merge, hpool]
  · rw [Body.routine_redirect, hmain]
    simp [Script.artifact, Bytecode.merge, Routine.redirect, Image.moved, hpool]
  · simp only [Script.artifact, Globals.size_resize]
    exact hcells
  · rw [show L.merge.cells = c.symbols.globals from hcells]
    rfl
  · rw [Image.merge_attrs hcomplete hseeds, hattrs]
    simp only [Script.compileOptions, List.toList_toArray]
    rfl

end ScriptEngine
