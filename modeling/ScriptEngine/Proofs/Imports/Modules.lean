import Mathlib.Data.List.Perm.Subperm
import ScriptEngine.Compile.Program
import ScriptEngine.Proofs.Files.Path
import ScriptEngine.Proofs.Imports.Parts
import ScriptEngine.Proofs.Layout.Module
/-!
Imports of registered modules. A script is compiled at its first import, within the modules that wait
for it; later imports call the same function. Modules that wait for one another are different scripts
of the registry, which bounds how deeply imports nest.
-/
namespace ScriptEngine.Imports

open Compile
open Layout (importModule_succ mem_of_lookup)
open Scoping (run_bind)

variable {o : ImportOptions} {traced : Bool} {deep : Prop} {chain names : List String}
  {load : CompileContext → Pos → String → CompileM Code} {ctx : CompileContext} {pos : Pos}
  {key x text : String} {depth : Nat} {s s' : CompileState} {f : Value}

theorem not_mem_known (h : s.cache.lookup key = none) : key ∉ known s := by
  intro hmem
  obtain ⟨e, he, hkey⟩ := List.mem_map.mp hmem
  have hne := List.lookup_eq_none_iff.mp h e he
  simp [hkey] at hne

theorem mem_known (h : s.cache.lookup key = some f) : key ∈ known s :=
  List.mem_map.mpr ⟨_, mem_of_lookup h, rfl⟩

/-- A script that has a function is not compiled again. -/
theorem moduleFunction_again {directory : String} {source : ByteArray} (hchain : key ∉ ctx.chain)
    (hf : s.cache.lookup key = some f) :
    (moduleFunction load ctx pos key directory source).run s = .ok f s := by
  have hget : (get : CompileM CompileState).run s = .ok s s := rfl
  unfold moduleFunction
  rw [if_neg (List.contains_iff_mem.not.mpr hchain), run_bind, hget]
  dsimp only
  rw [hf]
  rfl

/-- A script has the function that is called from then on. -/
theorem moduleFunction_yields {directory : String} {source : ByteArray}
    (h : Yields (moduleFunction load ctx pos key directory source) s f s') :
    s'.cache.lookup key = some f := by
  simp only [moduleFunction, yields_ite, yields_fail, and_false, false_or, yields_bind,
    yields_get] at h
  obtain ⟨-, t, t', ⟨ht, ht'⟩, h⟩ := h
  rw [ht, ht'] at h
  cases hcache : s.cache.lookup key with
  | some f' =>
    simp only [hcache, yields_pure] at h
    obtain ⟨rfl, rfl⟩ := h
    exact hcache
  | none =>
    simp only [hcache] at h
    cases hparse : parse key source with
    | error e => simp [hparse] at h
    | ok body =>
      simp only [hparse, yields_bind, yields_modify, yields_pure] at h
      obtain ⟨_, _, _, _, _, _, _, _, rfl, rfl, rfl⟩ := h
      exact List.lookup_cons_self

/-- Between the states the module is announced, and nothing else about modules has changed. -/
structure Announces (traced : Bool) (key : String) (s s' : CompileState) : Prop where
  pool : s.pool.toList <+: s'.pool.toList
  cache : s'.cache = s.cache
  trace : traced = true → announced s'.trace = announced s.trace ++ [key]

/-- The trace announces the module. -/
theorem note_module (ctx : CompileContext) (key : String) (s : CompileState) :
    ∃ s', (note ctx ("Module " ++ key)).run s = .ok () s' ∧ Announces ctx.traced key s s' := by
  unfold note
  cases ctx.traced with
  | false => exact ⟨s, rfl, List.prefix_refl _, rfl, fun h => nomatch h⟩
  | true =>
    refine ⟨_, rfl, List.prefix_refl _, rfl, fun _ => ?_⟩
    simp [announced, announced?_indented, announced?_module]

/-- The context of the body of a module. -/
def within (ctx : CompileContext) (key directory : String) : CompileContext :=
  { ctx with
    file := key, importDir := directory, inModule := true, inFunction := false, inLoop := false
    chain := key :: ctx.chain, depth := ctx.depth + 1 }

/-- The module is announced, and then the imports of its body are followed within the module. -/
theorem moduleRoutine_along {T : Trail traced} {P : CompileContext → Prop} (hP : Passed P)
    (hload : ∀ ctx' pos x, P ctx' → Along T deep [x] (load ctx' pos x)) (directory : String)
    (body : List Stmt) (hwithin : P (within ctx key directory)) (s : CompileState) :
    ∃ noted, Announces ctx.traced key s noted ∧
      T.Outcome deep (Stmt.allImports body) noted
        ((moduleRoutine load ctx key directory body).run s) := by
  let routine : CompileM Routine := do
    let code ← stmts load (within ctx key directory) body #[]
    let code ←
      if (body.getLast?.map fun s => s.isReturn || s.isExport).getD false then pure code
      else do
        lay .ret
        pure (code.push (.plain ⟨.ret, 0, 0⟩ none))
    let locals := (← get).symbols.current.slots
    modify fun t => { t with symbols := s.symbols, here := s.here }
    pure (code.toRoutine locals 0)
  have hroutine : Along T deep (Stmt.allImports body) routine := by
    refine (alongStmts ⟨hP, hload⟩ body _ #[] hwithin).before fun code => ?_
    have hrest (code : Code) : Along T deep [] (do
        let locals := (← get).symbols.current.slots
        modify fun t => { t with symbols := s.symbols, here := s.here }
        pure (code.toRoutine locals 0)) :=
      Along.get.bind fun _ => (Along.restore ..).bind fun _ => .pure _
    exact .ite ((Along.pure code).bind hrest) ((Along.lay _).bind fun _ => (Along.pure _).bind hrest)
  let start : CompileState := { s with symbols := s.symbols.forModule, here := 0 }
  obtain ⟨noted, hnote, hannounces⟩ := note_module (within ctx key directory) key start
  have hrun : (moduleRoutine load ctx key directory body).run s = routine.run noted := by
    unfold moduleRoutine
    rw [run_bind]
    change EStateM.run (note (within ctx key directory) ("Module " ++ key) >>= fun _ => routine) start = _
    rw [run_bind, hnote]
  refine ⟨noted, ⟨hannounces.pool, hannounces.cache, hannounces.trace⟩, ?_⟩
  rw [hrun]
  exact hroutine.run noted

/-- The imports of a main program are followed from the start. -/
theorem mainRoutine_along {o : CompileOptions} {T : Trail o.traced} {P : CompileContext → Prop}
    (hP : Passed P)
    (hload : ∀ ctx pos x, P ctx →
      Along T deep [x] (importModule o.toImportOptions o.maxDepth ctx pos x))
    (file : String) (body : List Stmt)
    (hmain : P ⟨file, o.importDir, false, false, false, [], 0, o.traced⟩) :
    Along T deep (Stmt.allImports body) (mainRoutine o file body) :=
  (Along.note (announced?_file file)).bind fun _ =>
    (alongStmts ⟨hP, hload⟩ body _ #[] hmain).before fun _ => (Along.lay _).bind fun _ => Along.get.bind fun _ => .pure _

/-- How following imports ended with a compilation. -/
def Ending.ofResult {α : Type} : Except CompileError α → Ending
  | .ok _ => .finished
  | .error e => .of e.cause

/-- A compilation follows the imports of its program. -/
theorem compile_along {o : CompileOptions} {T : Trail o.traced} {file : String} {body : List Stmt}
    (hmain : Along T deep names (mainRoutine o file body)) :
    (∃ s, T.Leads names (.ofResult (compile o file body).1)
        ⟨o.symbols, o.pool, 0, [], #[], o.maker, 0⟩ s ∧ (compile o file body).2 = s.trace) ∧
      ∀ e x, (compile o file body).1 = .error e → e.cause = .importDepth x → deep := by
  have hrun := hmain.run ⟨o.symbols, o.pool, 0, [], #[], o.maker, 0⟩
  unfold compile
  dsimp only
  cases hend : (mainRoutine o file body).run ⟨o.symbols, o.pool, 0, [], #[], o.maker, 0⟩ with
  | ok main s =>
    rw [hend] at hrun
    exact ⟨⟨s, hrun, rfl⟩, fun e x h => nomatch h⟩
  | error e s =>
    rw [hend] at hrun
    refine ⟨⟨s, hrun.1, rfl⟩, fun e' x h hcause => ?_⟩
    obtain rfl : e = e' := Except.error.inj h
    exact hrun.2 x hcause

/-- The body of a script is compiled within the script. -/
theorem moduleRoutine_trip (directory : String) (body : List Stmt)
    (hload : ∀ ctx' pos x, Within (key :: ctx.chain) ctx.traced ctx' →
      Follows o ctx.traced deep (key :: ctx.chain) [x] (load ctx' pos x)) (s : CompileState) :
    match (moduleRoutine load ctx key directory body).run s with
    | .ok _ s' => ∃ entered, Grows o ctx.traced (key :: entered) s s' ∧
      Walk o.registry (key :: ctx.chain) (known s) (Stmt.allImports body) entered .finished (known s')
    | .error e s' => (∃ entered, Grows o ctx.traced (key :: entered) s s' ∧
      Walk o.registry (key :: ctx.chain) (known s) (Stmt.allImports body) entered (.of e.cause)
        (known s')) ∧ ∀ x, e.cause = .importDepth x → deep := by
  obtain ⟨noted, hannounces, hrun⟩ :=
    moduleRoutine_along Within.passed hload directory body ⟨rfl, rfl⟩ s
  have hstart : Grows o ctx.traced [key] s noted :=
    ⟨hannounces.pool, ⟨[], hannounces.cache, by simp⟩, hannounces.trace⟩
  have hknown : known noted = known s := congrArg (List.map _) hannounces.cache
  cases hend : (moduleRoutine load ctx key directory body).run s with
  | ok r s' =>
    rw [hend] at hrun
    obtain ⟨entered, hgrows, hwalk⟩ := hrun
    exact ⟨entered, hstart.trans hgrows, hknown ▸ hwalk⟩
  | error e s' =>
    rw [hend] at hrun
    obtain ⟨⟨entered, hgrows, hwalk⟩, hdeep⟩ := hrun
    exact ⟨⟨entered, hstart.trans hgrows, hknown ▸ hwalk⟩, hdeep⟩

/-- The function of a script is compiled at its first import, and then it is at hand. -/
theorem follows_moduleFunction (hx : o.registry[key]? = some (.script text))
    (hload : key ∉ ctx.chain → ∀ ctx' pos x, Within (key :: ctx.chain) ctx.traced ctx' →
      Follows o ctx.traced deep (key :: ctx.chain) [x] (importModule o depth ctx' pos x)) :
    Follows o ctx.traced deep ctx.chain [key]
      (moduleFunction (importModule o depth) ctx pos key ctx.importDir text.toUTF8) := by
  by_cases hchain : key ∈ ctx.chain
  · refine ⟨fun s => ?_⟩
    unfold moduleFunction
    rw [if_pos (List.contains_iff_mem.mpr hchain)]
    exact ⟨⟨[], .refl o _ s, .cyclic hx hchain⟩, fun x hcause => nomatch hcause⟩
  refine ⟨fun s => ?_⟩
  unfold moduleFunction
  have hget : (get : CompileM CompileState).run s = .ok s s := rfl
  rw [if_neg (List.contains_iff_mem.not.mpr hchain), run_bind, hget]
  dsimp only
  cases hlookup : s.cache.lookup key with
  | some f => exact ⟨[], .refl o _ s, .again hx hchain (mem_known hlookup) .nil⟩
  | none =>
    have hknown := not_mem_known hlookup
    cases hparse : parse key text.toUTF8 with
    | error e => exact ⟨⟨[], .refl o _ s, .stop⟩, fun x hcause => nomatch hcause⟩
    | ok body =>
      have hbody : Script o.registry key body := ⟨text, hx, hparse⟩
      have hroutine := moduleRoutine_trip ctx.importDir body (hload hchain) s
      dsimp only
      rw [run_bind]
      cases hrun : (moduleRoutine (importModule o depth) ctx key ctx.importDir body).run s with
      | error e s' =>
        rw [hrun] at hroutine
        obtain ⟨⟨entered, hgrows, hwalk⟩, hdeep⟩ := hroutine
        exact ⟨⟨_, hgrows, .inside hbody hchain hknown hwalk (Ending.of_ne_finished _)⟩, hdeep⟩
      | ok r s' =>
        rw [hrun] at hroutine
        obtain ⟨entered, hgrows, hwalk⟩ := hroutine
        obtain ⟨new, hnew, hall⟩ := hgrows.cache
        refine ⟨_, ⟨hgrows.pool, ⟨(key, .function ⟨s'.maker, s'.made⟩ r) :: new, ?_, ?_⟩, ?_⟩,
          .first hbody hchain hknown hwalk .nil⟩
        · exact congrArg _ hnew
        · intro e he
          rcases List.mem_cons.mp he with rfl | he
          · exact ⟨body, depth, ctx, s, s', r, hbody, hrun, rfl⟩
          · exact hall e he
        · rw [List.append_nil]
          exact hgrows.trace

/-- A module can go by the key: it names something in the registry, or it can be the path of a file. -/
def CanBeKey (o : ImportOptions) (key : String) : Prop :=
  key ∈ o.registry.keys ∨ key.utf8ByteSize < Path.maxSize

/-- There is room for more modules that wait: those that do have different keys. -/
structure Room (o : ImportOptions) (depth : Nat) (chain : List String) : Prop where
  nodup : chain.Nodup
  keys : ∀ k ∈ chain, CanBeKey o k
  room : o.registry.size + Path.readable < depth + chain.length

theorem canBeKey_of_script (hx : o.registry[key]? = some (.script text)) : CanBeKey o key := by
  refine .inl ?_
  rw [Std.TreeMap.mem_keys, Std.TreeMap.mem_iff_isSome_getElem?, hx]
  rfl

theorem Room.start (o : ImportOptions) : Room o o.maxDepth [] := by
  refine ⟨List.nodup_nil, List.forall_mem_nil _, ?_⟩
  unfold ImportOptions.maxDepth
  omega

theorem Room.depth_pos (h : Room o depth chain) : 0 < depth := by
  have hregistered : (chain.filter (· ∈ o.registry.keys)).length ≤ o.registry.size := by
    rw [← Std.TreeMap.length_keys]
    refine ((h.nodup.filter _).subperm fun k hk => ?_).length_le
    simpa using (List.mem_filter.mp hk).2
  have hpaths : (chain.filter fun k => !decide (k ∈ o.registry.keys)).length ≤ Path.readable := by
    refine Path.length_le_readable (h.nodup.filter _) fun k hk => ?_
    obtain ⟨hk, hnot⟩ := List.mem_filter.mp hk
    exact (h.keys k hk).resolve_left (by simpa using hnot)
  have hsplit : chain.length = _ := List.length_eq_length_filter_add fun k => decide (k ∈ o.registry.keys)
  have hroom := h.room
  omega

theorem Room.enter (h : Room o (depth + 1) chain) (hchain : key ∉ chain) (hkey : CanBeKey o key) :
    Room o depth (key :: chain) := by
  refine ⟨List.nodup_cons.mpr ⟨hchain, h.nodup⟩, List.forall_mem_cons.mpr ⟨hkey, h.keys⟩, ?_⟩
  have hroom := h.room
  rw [List.length_cons]
  omega

theorem follows_emitModuleCall (f : Value) :
    Follows o traced deep chain [] (emitModuleCall ctx pos f) :=
  (Along.emitConstant f).bind fun _ => (Along.emit ..).bind fun _ => .pure _

theorem Follows.attrs {α : Type} {m : CompileM α} {entries : List (String × Value)}
    (hm : Follows o traced deep chain names m) (hx : o.registry[x]? = some (.attrs entries)) :
    Follows o traced deep chain (x :: names) m := by
  refine ⟨fun s => ?_⟩
  have hs := hm.run s
  cases hrun : m.run s with
  | ok a s' =>
    rw [hrun] at hs
    obtain ⟨entered, hgrows, hwalk⟩ := hs
    exact ⟨entered, hgrows, .attrs hx hwalk⟩
  | error e s' =>
    rw [hrun] at hs
    obtain ⟨⟨entered, hgrows, hwalk⟩, hdeep⟩ := hs
    exact ⟨⟨entered, hgrows, .attrs hx hwalk⟩, hdeep⟩

/-- An import follows the registry, and imports nest no more deeply than there is room for. -/
theorem follows_importModule (hfile : o.fileImport = false) (depth : Nat) :
    ∀ (ctx : CompileContext) (pos : Pos) (x : String), (deep ∨ Room o depth ctx.chain) →
      Follows o ctx.traced deep ctx.chain [x] (importModule o depth ctx pos x) := by
  induction depth with
  | zero =>
    intro ctx pos x hdeep
    refine ⟨fun s => ⟨⟨[], .refl o _ s, .stop⟩, fun _ _ => ?_⟩⟩
    rcases hdeep with hdeep | hroom
    · exact hdeep
    · exact absurd hroom.depth_pos (Nat.lt_irrefl 0)
  | succ depth ih =>
    intro ctx pos x hdeep
    rw [importModule_succ]
    cases hx : o.registry[x]? with
    | none =>
      rw [if_neg (by simp [hfile])]
      exact .ite (.fail id) (.fail id)
    | some source =>
      cases source with
      | attrs entries => exact Follows.attrs (Along.emitConstant _) hx
      | script text =>
        refine (follows_moduleFunction hx fun hchain ctx' pos' x' h => ?_).before fun f =>
          follows_emitModuleCall f
        have hroom : deep ∨ Room o depth ctx'.chain := by
          rw [h.chain_eq]
          exact hdeep.imp_right fun hroom => hroom.enter hchain (canBeKey_of_script hx)
        have hinner := ih ctx' pos' x' hroom
        rw [h.chain_eq, h.traced_eq] at hinner
        exact hinner

end ScriptEngine.Imports
