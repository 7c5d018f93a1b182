import ScriptEngine.Compile.Lower
import ScriptEngine.Modules.Registry
import ScriptEngine.Program.Parser
/-!
Imported modules. A module written as a script is compiled once, to a function without parameters
that yields what the module exports; every import of it calls that function.
-/
namespace ScriptEngine

/-- What can be imported: registered modules first, then files. -/
structure ImportOptions where
  registry : Registry
  files : FileTree
  /-- Whether files can be imported at all. -/
  fileImport : Bool
  /-- What is put behind a file name without an extension, with or without its dot. -/
  extension : String

namespace ImportOptions

/-- A name that means a file rather than a registered module. -/
def namesFile (o : ImportOptions) (name : String) : Bool :=
  name.toList.contains '/' || name.toList.contains '\\' || name.toList.head? = some '.' ||
    o.extension.toList.isSuffixOf name.toList

/-- The path of a module's file, which is also its key. An extension has to be one name. -/
def path (o : ImportOptions) (directory name : String) : Except CompileCause String :=
  let path := Path.join directory name
  let extension := o.extension.toList.dropWhile (· = '.')
  if (Path.extension? path).isSome || extension.isEmpty then .ok path
  else if extension.contains '/' then .error (.extensionIsPath (String.ofList extension))
  else .ok (Path.addExtension path (String.ofList extension))

/-- No module is compiled while this many others wait for it: their keys are different, each a name in
the registry or the path of a file that was read. -/
def maxDepth (o : ImportOptions) : Nat := o.registry.size + Path.readable + 1

end ImportOptions

namespace Compile

/-- Calls a module's function. -/
def emitModuleCall (ctx : CompileContext) (pos : Pos) (f : Value) : CompileM Code := do
  let push ← emitConstant ctx pos f
  let call ← emit pos .call 0 0
  pure (push ++ call)

/-- The routine of a module that has been read. The names of the importing program are not in force
in it. -/
def moduleRoutine (load : CompileContext → Pos → String → CompileM Code) (ctx : CompileContext)
    (key directory : String) (body : List Stmt) : CompileM Routine := do
  let outside ← get
  set { outside with symbols := outside.symbols.forModule, here := 0 }
  let ctx := { ctx with
    file := key, importDir := directory, inModule := true, inFunction := false, inLoop := false
    chain := key :: ctx.chain, depth := ctx.depth + 1 }
  note ctx ("Module " ++ key)
  let code ← stmts load ctx body #[]
  let code ←
    if (body.getLast?.map fun s => s.isReturn || s.isExport).getD false then pure code
    else do
      lay .ret
      pure (code.push (.plain ⟨.ret, 0, 0⟩ none))
  let locals := (← get).symbols.current.slots
  modify fun s => { s with symbols := outside.symbols, here := outside.here }
  pure (code.toRoutine locals 0)

/-- The function of a module: the one compiled before, if there is one. -/
def moduleFunction (load : CompileContext → Pos → String → CompileM Code) (ctx : CompileContext)
    (pos : Pos) (key directory : String) (source : ByteArray) : CompileM Value := do
  if ctx.chain.contains key then fail ctx pos (.cyclicImport key)
  else
    match (← get).cache.lookup key with
    | some f => pure f
    | none =>
      match parse key source with
      | .error e => fail ctx pos (.moduleSyntax key e)
      | .ok body =>
        let f ← makeFunction (← moduleRoutine load ctx key directory body)
        modify fun s => { s with cache := (key, f) :: s.cache }
        pure f

/-- Code that leaves the value of an imported module on the stack. -/
def importModule (o : ImportOptions) :
    (depth : Nat) → CompileContext → Pos → String → CompileM Code
  | 0, ctx, pos, name => fail ctx pos (.importDepth name)
  | depth + 1, ctx, pos, name => do
    match o.registry[name]? with
    | some (.attrs entries) => emitConstant ctx pos (.module name (Entries.ofList entries))
    | some (.script text) =>
      let f ← moduleFunction (importModule o depth) ctx pos name ctx.importDir text.toUTF8
      emitModuleCall ctx pos f
    | none =>
      if o.fileImport then
        match o.path ctx.importDir name with
        | .error cause => fail ctx pos cause
        | .ok path =>
          match (← get).cache.lookup path with
          | some f => emitModuleCall ctx pos f
          | none =>
            match o.files.read path with
            | .error fault => fail ctx pos (.moduleRead name fault)
            | .ok source =>
              let f ← moduleFunction (importModule o depth) ctx pos path (Path.parent path) source
              emitModuleCall ctx pos f
      else if o.namesFile name then fail ctx pos (.fileImportDisabled name)
      else fail ctx pos (.moduleNotFound name)

end Compile

end ScriptEngine
