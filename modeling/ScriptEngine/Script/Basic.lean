import ScriptEngine.Bytecode.Listing
import ScriptEngine.Bytecode.Merge
import ScriptEngine.Compile.Program
import ScriptEngine.Script.Artifact
/-! Source text with the host values and limits that it is compiled with. -/
namespace ScriptEngine

structure Script where
  source : ByteArray
  file : String
  /-- What is put behind the name of an imported file without an extension. -/
  extension : String
  /-- Host values by name; the position of a name is its global slot. -/
  bindings : List (String × Value)
  registry : Registry
  files : FileTree
  fileImport : Bool
  importDir : String
  /-- Allocations that a run may make; unlimited if negative. -/
  maxAllocs : Int
  /-- Objects that the pool may hold; unlimited if negative. -/
  maxConstantObjects : Int
  /-- The constants at the start. -/
  pool : List Value
  traced : Bool

namespace Script

def defaultFile : String := "(main)"

def defaultExtension : String := ".glint"

def ofSource (source : ByteArray) (file extension : String) : Script :=
  { source, file, extension, bindings := [], registry := ∅, files := .empty, fileImport := false
    importDir := ".", maxAllocs := -1, maxConstantObjects := -1, pool := [], traced := false }

/-- Puts a value in the place of the binding with that name, or behind all. -/
def bind (name : String) (v : Value) : List (String × Value) → List (String × Value)
  | [] => [(name, v)]
  | (other, w) :: rest =>
    if other = name then (name, v) :: rest else (other, w) :: bind name v rest

/-- A name that is bound keeps its place; a new one goes last. -/
theorem map_fst_bind (name : String) (v : Value) (bs : List (String × Value)) :
    (bind name v bs).map (·.1) =
      if name ∈ bs.map (·.1) then bs.map (·.1) else bs.map (·.1) ++ [name] := by
  induction bs with
  | nil => rfl
  | cons b rest ih =>
    obtain ⟨other, w⟩ := b
    by_cases ho : other = name
    · subst ho
      simp [bind]
    · have hn : name ≠ other := fun he => ho he.symm
      by_cases hm : name ∈ rest.map (·.1)
      · simp only [hm, if_true] at ih
        simp [bind, ho, hn, ih, List.mem_map.mp hm]
      · simp only [hm, if_false] at ih
        simp only [bind, ho, if_false, List.map_cons, ih, List.mem_cons, hn, hm, or_self,
          List.cons_append]

theorem lookup_bind (name other : String) (v : Value) (bs : List (String × Value)) :
    (bind name v bs).lookup other = if other = name then some v else bs.lookup other := by
  have lookup_ne {key : String} (w : Value) (rest : List (String × Value)) (h : other ≠ key) :
      List.lookup other ((key, w) :: rest) = rest.lookup other := by
    rw [List.lookup_cons, beq_false_of_ne h]
  induction bs with
  | nil =>
    by_cases ho : other = name
    · simp [bind, ho]
    · simp [bind, lookup_ne v [] ho, ho]
  | cons b rest ih =>
    obtain ⟨key, w⟩ := b
    by_cases hk : key = name
    · subst hk
      by_cases ho : other = key
      · simp [bind, ho]
      · simp [bind, lookup_ne _ rest ho, ho]
    · by_cases hb : other = key
      · subst hb
        simp [bind, hk]
      · simp only [bind, hk, if_false, lookup_ne _ _ hb, ih]

def addValue (s : Script) (name : String) (v : Value) : Script :=
  { s with bindings := bind name v s.bindings }

/-- Binds converted host data. -/
def add (s : Script) (name : String) (d : Datum) : Except ScriptError Script :=
  match d.toValue with
  | .ok v => .ok (s.addValue name v)
  | .error e => .error (.conversion e)

def isBound (s : Script) (name : String) : Bool := s.bindings.any (·.1 = name)

def remove (s : Script) (name : String) : Script :=
  { s with bindings := s.bindings.filter (·.1 ≠ name) }

def setImportDir (s : Script) (path : String) : Except ScriptError Script :=
  if path = "" then .error .invalidPath
  else .ok { s with importDir := Path.absolute s.files.workingDirectory path }

/-- The builtins, and the bound names in the first global slots. -/
def symbols (s : Script) : SymbolTable :=
  let builtins := Builtin.all.toList.zipIdx.foldl
    (fun t (b, i) => SymbolTable.defineBuiltin t b.name i) .empty
  s.bindings.foldl (fun t (name, _) => (t.define name).2) builtins

/-- The bound values in their slots. -/
def globals (s : Script) : Globals := ⟨(s.bindings.map fun b => some b.2).toArray⟩

def compileOptions (s : Script) (maker : Nat) : CompileOptions :=
  { registry := s.registry, files := s.files, fileImport := s.fileImport, extension := s.extension
    importDir := s.importDir, symbols := s.symbols, pool := s.pool.toArray, traced := s.traced
    maker }

/-- The artifact of a compilation, with equal constants merged. -/
def artifact (s : Script) (c : Compilation) : Artifact :=
  { names := c.symbols.globalSymbols.map fun symbol => (symbol.name, symbol.index)
    bytecode := c.bytecode.merge
    globals := s.globals.resize c.symbols.globals
    maxAllocs := s.maxAllocs
    made := 0 }

/-- Compiles the script to an artifact of its own, with a trace if one is wanted. -/
def compile (s : Script) (maker : Nat) : Except ScriptError Artifact × List String :=
  match parse s.file s.source with
  | .error e => (.error (.parse e), [])
  | .ok body =>
    match ScriptEngine.compile (s.compileOptions maker) s.file body with
    | (.error e, trace) => (.error (.compile e), trace.toList)
    | (.ok c, trace) =>
      let a := s.artifact c
      let trace := if s.traced then trace.toList ++ a.bytecode.listAll else []
      let count := a.bytecode.countObjects
      match limitOf s.maxConstantObjects with
      | none => (.ok a, trace)
      | some limit =>
        (if limit < count then .error (.constantLimit count limit) else .ok a, trace)

end Script

end ScriptEngine
