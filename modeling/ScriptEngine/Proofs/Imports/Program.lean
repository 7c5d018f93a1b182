import ScriptEngine.Compile.Program
import ScriptEngine.Proofs.Imports.Modules
/-!
Imports in whole programs, where files cannot be imported: the compiler gets to an end, reports the
cycles that there are and no others, and compiles every script once.
-/
namespace ScriptEngine

namespace Imports

open Compile
open Layout (importModule_succ)
open Scoping (run_bind)

variable {α : Type} {o : ImportOptions} {traced : Bool} {deep : Prop} {chain names : List String}
  {ctx : CompileContext} {pos : Pos} {x k text : String} {depth : Nat} {s s' : CompileState}
  {f : Value} {m : CompileM α} {ending : Ending}

/-- The state that a part leaves, whether it succeeds or fails. -/
def left (m : CompileM α) (s : CompileState) : CompileState :=
  match m.run s with
  | .ok _ s' | .error _ s' => s'

/-- How following imports ended with a part of a compilation. -/
def ended (m : CompileM α) (s : CompileState) : Ending :=
  match m.run s with
  | .ok _ _ => .finished
  | .error e _ => .of e.cause

/-- Following the imports of a program comes upon a module that is being followed. -/
def Closes (R : Registry) (names : List String) (k : String) : Prop :=
  ∃ entered known', Walk R [] [] names entered (.cyclic k) known'

/-- Between the states the imports `names` are followed within the modules `chain`, and the modules
that had functions keep them. -/
structure Onward (o : ImportOptions) (traced : Bool) (chain names : List String) (m : CompileM α)
    (s : CompileState) : Prop where
  trip : Trip o traced chain names (ended m s) s (left m s)
  keeps : ∀ k f, s.cache.lookup k = some f → (left m s).cache.lookup k = some f

/-- What an import does in a state: the script that it names is not compiled if it has a function, and
its function is called, whichever of its imports this is. -/
structure SharesWork (o : ImportOptions) (depth : Nat) (ctx : CompileContext) (pos : Pos) (x : String)
    (s : CompileState) : Prop where
  again : ∀ text f, o.registry[x]? = some (.script text) → x ∉ ctx.chain → s.cache.lookup x = some f →
    (importModule o depth ctx pos x).run s = (emitModuleCall ctx pos f).run s
  calls : ∀ text code s', o.registry[x]? = some (.script text) →
    (importModule o depth ctx pos x).run s = .ok code s' →
      ∃ f, s'.cache.lookup x = some f ∧ s'.pool.back? = some f ∧ code =
        #[.plain ⟨.constant, s'.pool.size - 1, 0⟩ (some pos), .plain ⟨.call, 0, 0⟩ (some pos)]

/-- The modules that had functions keep them. -/
theorem Trip.keeps (h : Trip o traced chain names ending s s') (hk : s.cache.lookup k = some f) :
    s'.cache.lookup k = some f := by
  obtain ⟨entered, hgrows, hwalk⟩ := h
  obtain ⟨new, hnew, -⟩ := hgrows.cache
  obtain ⟨fresh, hfresh, hentered, -⟩ := hwalk.known_eq
  have hkeys : fresh = new.map (·.1) := by
    rw [known, known, hnew, List.map_append] at hfresh
    exact (List.append_cancel_right hfresh).symm
  have hmem : k ∉ new.map (·.1) := fun hmem =>
    (hwalk.entered_fresh k (hentered k (hkeys ▸ hmem))).2 (mem_known hk)
  have hnone : new.lookup k = none := by
    rw [List.lookup_eq_none_iff]
    intro e he
    by_contra hne
    have heq : k = e.1 := by simpa using hne
    exact hmem (List.mem_map.mpr ⟨e, he, heq.symm⟩)
  rw [hnew, List.lookup_append, hnone, hk]
  rfl

theorem Follows.onward (h : Follows o traced deep chain names m) (s : CompileState) :
    Onward o traced chain names m s := by
  have hs := h.run s
  have htrip : Trip o traced chain names (ended m s) s (left m s) := by
    unfold ended left
    cases hrun : m.run s with
    | ok a s' =>
      rw [hrun] at hs
      exact hs
    | error e s' =>
      rw [hrun] at hs
      exact hs.1
  exact ⟨htrip, fun _ _ => htrip.keeps⟩

/-- A script that has a function is not compiled again. -/
theorem importModule_again (hx : o.registry[x]? = some (.script text)) (hchain : x ∉ ctx.chain)
    (hf : s.cache.lookup x = some f) :
    (importModule o (depth + 1) ctx pos x).run s = (emitModuleCall ctx pos f).run s := by
  rw [importModule_succ, hx]
  dsimp only
  rw [run_bind, moduleFunction_again hchain hf]

/-- An import calls the function that its script has from then on. -/
theorem importModule_calls {code : Code} (hx : o.registry[x]? = some (.script text))
    (h : (importModule o (depth + 1) ctx pos x).run s = .ok code s') :
    ∃ f, s'.cache.lookup x = some f ∧ s'.pool.back? = some f ∧
      code = #[.plain ⟨.constant, s'.pool.size - 1, 0⟩ (some pos), .plain ⟨.call, 0, 0⟩ (some pos)] := by
  have hyields : Yields (importModule o (depth + 1) ctx pos x) s code s' := h
  rw [importModule_succ, hx] at hyields
  obtain ⟨f, t, hf, hcall⟩ := yields_bind.mp hyields
  have hlookup := moduleFunction_yields hf
  simp only [emitModuleCall, yields_bind, yields_emitConstant, yields_emit, yields_pure] at hcall
  obtain ⟨_, _, ⟨-, rfl, rfl⟩, _, _, ⟨rfl, rfl⟩, rfl, rfl⟩ := hcall
  exact ⟨f, hlookup, by simp, by simp⟩

/-- A main program follows its imports, and they do not nest too deeply. -/
theorem follows_mainRoutine {o : CompileOptions} (hfile : o.fileImport = false) (file : String)
    (body : List Stmt) :
    Follows o.toImportOptions o.traced False [] (Stmt.allImports body) (mainRoutine o file body) := by
  refine mainRoutine_along Within.passed (fun ctx pos x h => ?_) file body ⟨rfl, rfl⟩
  have hstart : False ∨ Room o.toImportOptions o.maxDepth ctx.chain := .inr (h.chain_eq ▸ .start _)
  have himport := follows_importModule hfile o.maxDepth ctx pos x hstart
  rw [h.chain_eq, h.traced_eq] at himport
  exact himport

/-- A compilation follows the imports of its program. -/
theorem compile_trip {o : CompileOptions} (hfile : o.fileImport = false) (file : String)
    (body : List Stmt) :
    (∃ entered known',
      Walk o.registry [] [] (Stmt.allImports body) entered (.ofResult (compile o file body).1) known' ∧
      (o.traced = true → announced (compile o file body).2 = entered)) ∧
    ∀ e x, (compile o file body).1 = .error e → e.cause ≠ .importDepth x := by
  obtain ⟨⟨s, ⟨entered, hgrows, hwalk⟩, htrace⟩, hdeep⟩ :=
    compile_along (follows_mainRoutine hfile file body)
  exact ⟨⟨entered, _, hwalk, fun ht => htrace ▸ hgrows.trace ht⟩, hdeep⟩

end Imports

open Imports

/-- With file imports off, the compiler gets to an end. While nothing else is wrong, it reports a cycle
if and only if following the imports in the order in which they are compiled comes upon a module that
is being followed. It compiles the body of every script once, and later imports call the same
function. Whether an import succeeds or fails, and however deeply it is nested, the imports behind it
are followed within the same modules as itself, the constants have grown at their end, and the modules
by such as were compiled to their end. -/
theorem imports_end_and_share {o : CompileOptions} (hfile : o.fileImport = false) (file : String)
    (body : List Stmt) :
    (∀ e x, (compile o file body).1 = .error e → e.cause ≠ .importDepth x) ∧
    (∀ k, (∃ e, (compile o file body).1 = .error e ∧ e.cause = .cyclicImport k) ↔
      Closes o.registry (Stmt.allImports body) k ∧
        ∀ e, (compile o file body).1 = .error e → ∃ k', e.cause = .cyclicImport k') ∧
    (Acyclic o.registry → ∀ e k, (compile o file body).1 = .error e → e.cause ≠ .cyclicImport k) ∧
    (∃ entered known', entered.Nodup ∧
      Walk o.registry [] [] (Stmt.allImports body) entered (.ofResult (compile o file body).1) known' ∧
      (o.traced = true → announced (compile o file body).2 = entered)) ∧
    ∀ (depth : Nat) (ctx : CompileContext) (s : CompileState),
      (∀ body code, Onward o.toImportOptions ctx.traced ctx.chain (Stmt.allImports body)
        (Compile.stmts (Compile.importModule o.toImportOptions depth) ctx body code) s) ∧
      ∀ pos x, Onward o.toImportOptions ctx.traced ctx.chain [x]
          (Compile.importModule o.toImportOptions depth ctx pos x) s ∧
        SharesWork o.toImportOptions (depth + 1) ctx pos x s := by
  obtain ⟨⟨entered, known', hwalk, htrace⟩, hdepth⟩ := compile_trip hfile file body
  have hcloses (e : CompileError) (k : String) (he : (compile o file body).1 = .error e)
      (hk : e.cause = .cyclicImport k) : Closes o.registry (Stmt.allImports body) k := by
    rw [he, Ending.ofResult, hk] at hwalk
    exact ⟨entered, known', hwalk⟩
  refine ⟨hdepth, fun k => ⟨?_, ?_⟩, ?_, ⟨entered, known', hwalk.entered_nodup, hwalk, htrace⟩, ?_⟩
  · rintro ⟨e, he, hk⟩
    refine ⟨hcloses e k he hk, fun e' he' => ⟨k, ?_⟩⟩
    obtain rfl : e = e' := Except.error.inj (he.symm.trans he')
    exact hk
  · rintro ⟨⟨entered', known'', hclosed⟩, hcyclic⟩
    cases hresult : (compile o file body).1 with
    | ok c =>
      rw [hresult] at hwalk
      exact nomatch (hwalk.unique hclosed (by simp [Ending.ofResult]) (by simp)).1
    | error e =>
      obtain ⟨k', hk'⟩ := hcyclic e hresult
      rw [hresult, Ending.ofResult, hk'] at hwalk
      obtain rfl : k' = k := by
        simpa [Ending.of] using (hwalk.unique hclosed (by simp [Ending.of]) (by simp)).1
      exact ⟨e, rfl, hk'⟩
  · intro hR e k he hk
    obtain ⟨_, _, hclosed⟩ := hcloses e k he hk
    exact hR.not_cyclic hclosed
  · intro depth ctx s
    have hload (ctx' : CompileContext) (pos : Pos) (x : String)
        (h : Within ctx.chain ctx.traced ctx') :
        Follows o.toImportOptions ctx.traced True ctx.chain [x]
          (Compile.importModule o.toImportOptions depth ctx' pos x) := by
      have hany : True ∨ Room o.toImportOptions depth ctx'.chain := .inl trivial
      have himport := follows_importModule hfile depth ctx' pos x hany
      rw [h.chain_eq, h.traced_eq] at himport
      exact himport
    refine ⟨fun body code => ?_, fun pos x => ⟨(hload ctx pos x ⟨rfl, rfl⟩).onward s, ?_⟩⟩
    · exact (followsStmts hload body ctx code ⟨rfl, rfl⟩).onward s
    · exact ⟨fun text f hx hchain hf => importModule_again hx hchain hf,
        fun text code s' hx h => importModule_calls hx h⟩

/-- Two scripts that share a third one, and two that import each other. -/
def sharingScripts : List (String × String) :=
  [("a", "export [import(\"b\"), import(\"c\")]"), ("b", "export import(\"d\")"),
    ("c", "export import(\"d\")"), ("d", "export 1"), ("x", "export import(\"y\")"),
    ("y", "export import(\"x\")")]

def sharingOptions : CompileOptions :=
  { registry := Std.TreeMap.ofList (sharingScripts.map fun (x, text) => (x, ModuleSource.script text))
    files := .empty, fileImport := false, extension := ".glint", importDir := "."
    symbols := .empty, pool := #[], traced := true, maker := 0 }

/-- A program that imports one module. -/
def importing (x : String) : List Stmt := [.expr (.load ⟨0, 1, 1⟩ x)]

/-- The module whose import closes a cycle, if that is the cause. -/
def CompileCause.cyclic? : CompileCause → Option String
  | cyclicImport key => some key
  | _ => none

theorem CompileCause.eq_of_cyclic? {c : CompileCause} {key : String} (h : c.cyclic? = some key) :
    c = cyclicImport key := by
  cases c <;> cases h
  rfl

/-- The shared script is entered once, and only the others close a cycle. -/
theorem imports_end_and_share_diamond :
    sharingOptions.fileImport = false ∧
    (["a", "b", "d", "c"].Nodup ∧ ∃ known',
      Walk sharingOptions.registry [] [] ["a"] ["a", "b", "d", "c"] .finished known') ∧
    Closes sharingOptions.registry ["x"] "x" := by
  have hannounced : announced (compile sharingOptions "m" (importing "a")).2 = ["a", "b", "d", "c"] := by
    decide +kernel
  have hok : ((compile sharingOptions "m" (importing "a")).1.toOption.any fun _ => true) = true := by
    decide +kernel
  have hcyclic : Compile.failsBy (fun c => c.cyclic? == some "x")
      (compile sharingOptions "m" (importing "x")).1 = true := by decide +kernel
  refine ⟨rfl, ?_, ?_⟩
  · obtain ⟨-, -, -, ⟨entered, known', hnodup, hwalk, htrace⟩, -⟩ :=
      imports_end_and_share (o := sharingOptions) rfl "m" (importing "a")
    rw [hannounced] at htrace
    obtain rfl := htrace rfl
    obtain ⟨c, hresult, -⟩ := Compile.eq_ok_of_any hok
    rw [hresult] at hwalk
    exact ⟨hnodup, known', hwalk⟩
  · obtain ⟨-, hreports, -⟩ := imports_end_and_share (o := sharingOptions) rfl "m" (importing "x")
    obtain ⟨e, hresult, hcause⟩ := Compile.eq_error_of_failsBy hcyclic
    have hcause := CompileCause.eq_of_cyclic? (eq_of_beq hcause)
    exact ((hreports "x").mp ⟨e, hresult, hcause⟩).1

end ScriptEngine
