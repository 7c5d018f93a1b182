import ScriptEngine.Proofs.Files.Places
import ScriptEngine.Proofs.Imports.Modules
/-!
Imports of registered modules and of files. A file goes by the path that an import comes to: it is
compiled at the first import of that path, within the modules that wait for it, and later imports of the
path call the same function.
-/
namespace ScriptEngine.Imports

open Compile
open Layout (importModule_succ)
open Scoping (run_bind)

variable {o : ImportOptions} {traced : Bool} {T : Trail traced} {deep : Prop}
  {chain names : List String} {directory directory' key x : String}
  {load : CompileContext → Pos → String → CompileM Code} {ctx : CompileContext} {pos : Pos}
  {source : ByteArray} {depth : Nat} {s s' : CompileState} {ending : Ending}

/-- The imports `names` are followed from a directory and within the modules `chain`, as long as none of
these is known. The trace, if one is kept, grows by the modules entered. -/
def FileTrip (o : ImportOptions) (traced : Bool) (chain : List String) (directory : String)
    (names : List String) (ending : Ending) (s s' : CompileState) : Prop :=
  (∀ k ∈ chain, k ∉ known s) → ∃ entered,
    (traced = true → announced s'.trace = announced s.trace ++ entered) ∧
      Tour o id chain directory (known s) names entered ending (known s')

namespace FileTrip

variable {names' : List String} {s'' : CompileState}

theorem of_still (h : Still traced s s')
    (htour : ∀ known, Tour o id chain directory known names [] ending known) :
    FileTrip o traced chain directory names ending s s' := by
  refine fun _ => ⟨[], fun ht => by rw [h.trace ht, List.append_nil], ?_⟩
  rw [known, known, h.cache]
  exact htour _

theorem append (h : FileTrip o traced chain directory names .finished s s')
    (h' : FileTrip o traced chain directory names' ending s' s'') :
    FileTrip o traced chain directory (names ++ names') ending s s'' := by
  intro hfresh
  obtain ⟨entered, htrace, htour⟩ := h hfresh
  obtain ⟨entered', htrace', htour'⟩ := h' (htour.chain_fresh hfresh)
  refine ⟨entered ++ entered', fun ht => ?_, htour.append htour'⟩
  rw [htrace' ht, htrace ht, List.append_assoc]

theorem append_left (h : FileTrip o traced chain directory names ending s s')
    (hending : ending ≠ .finished) : FileTrip o traced chain directory (names ++ names') ending s s' := by
  intro hfresh
  obtain ⟨entered, htrace, htour⟩ := h hfresh
  exact ⟨entered, htrace, htour.append_left hending⟩

/-- A module that is known is not entered again. -/
theorem again (h : FileTrip o traced chain directory names ending s s') (hkey : Keys o directory x key)
    (hknown : key ∈ known s) : FileTrip o traced chain directory (x :: names) ending s s' := by
  intro hfresh
  obtain ⟨entered, htrace, htour⟩ := h hfresh
  exact ⟨entered, htrace, .again hkey (fun hmem => hfresh key hmem hknown) hknown htour⟩

/-- A module of the host imports nothing. -/
theorem attrs {entries : List (String × Value)} (h : FileTrip o traced chain directory names ending s s')
    (hx : o.registry[x]? = some (.attrs entries)) :
    FileTrip o traced chain directory (x :: names) ending s s' := by
  intro hfresh
  obtain ⟨entered, htrace, htour⟩ := h hfresh
  exact ⟨entered, htrace, .attrs hx htour⟩

end FileTrip

/-- The imports of modules of any kind. -/
def fileTrail (o : ImportOptions) (traced : Bool) (chain : List String) (directory : String) :
    Trail traced where
  Leads := FileTrip o traced chain directory
  still h := .of_still h fun _ => .nil
  stop h := .of_still h fun _ => .stop
  append := FileTrip.append
  append_left := FileTrip.append_left

/-- The part compiled lies within the modules `chain`, and its imports are seen from the directory. -/
structure Amid (chain : List String) (directory : String) (traced : Bool) (ctx : CompileContext) : Prop
    extends Within chain traced ctx where
  directory_eq : ctx.importDir = directory

theorem Amid.passed : Passed (Amid chain directory traced) where
  inner h := ⟨⟨h.chain_eq, h.traced_eq⟩, h.directory_eq⟩
  function h := ⟨⟨h.chain_eq, h.traced_eq⟩, h.directory_eq⟩
  looping h := ⟨⟨h.chain_eq, h.traced_eq⟩, h.directory_eq⟩

/-- What was followed may be told as more. -/
theorem outcome_imp {names' : List String} {α : Type} {r : EStateM.Result CompileError CompileState α}
    (h : (fileTrail o traced chain directory).Outcome deep names s r)
    (himp : ∀ ending s', FileTrip o traced chain directory names ending s s' →
      FileTrip o traced chain directory names' ending s s') :
    (fileTrail o traced chain directory).Outcome deep names' s r := by
  cases r with
  | ok a s' => exact himp _ _ h
  | error e s' => exact ⟨himp _ _ h.1, h.2⟩

theorem not_ofImports_of_path {cause : CompileCause} (h : o.path directory x = .error cause) :
    ¬ cause.OfImports := by
  rw [ImportOptions.path] at h
  split at h
  · cases h
  split at h
  · obtain rfl := Except.error.inj h
    exact id
  · cases h

/-- A module is compiled at the first import of its key, and then it is at hand. -/
theorem along_moduleFunction (hkey : Keys o ctx.importDir x key)
    (hopens : ∀ body, parse key source = .ok body → Opens o ctx.importDir x key directory' body)
    (hload : key ∉ ctx.chain → ∀ ctx' pos x, Amid (key :: ctx.chain) directory' ctx.traced ctx' →
      Along (fileTrail o ctx.traced (key :: ctx.chain) directory') deep [x] (load ctx' pos x)) :
    Along (fileTrail o ctx.traced ctx.chain ctx.importDir) deep [x]
      (moduleFunction load ctx pos key directory' source) := by
  by_cases hchain : key ∈ ctx.chain
  · refine ⟨fun s => ?_⟩
    unfold moduleFunction
    rw [if_pos (List.contains_iff_mem.mpr hchain)]
    exact ⟨.of_still (.refl _ s) fun _ => .cyclic hkey hchain, fun x hcause => nomatch hcause⟩
  refine ⟨fun s => ?_⟩
  unfold moduleFunction
  have hget : (get : CompileM CompileState).run s = .ok s s := rfl
  rw [if_neg (List.contains_iff_mem.not.mpr hchain), run_bind, hget]
  dsimp only
  cases hlookup : s.cache.lookup key with
  | some f =>
    have hstay : FileTrip o ctx.traced ctx.chain ctx.importDir [] .finished s s :=
      .of_still (.refl _ s) fun _ => .nil
    exact hstay.again hkey (mem_known hlookup)
  | none =>
    have hknown := not_mem_known hlookup
    cases hparse : parse key source with
    | error e =>
      exact ⟨.of_still (.refl _ s) fun _ => .stop, fun x hcause => nomatch hcause⟩
    | ok body =>
      have hbody := hopens body hparse
      obtain ⟨noted, hannounces, hinner⟩ :=
        moduleRoutine_along Amid.passed (hload hchain) directory' body ⟨⟨rfl, rfl⟩, rfl⟩ s
      have hnoted : known noted = known s := congrArg (List.map _) hannounces.cache
      have hfresh (h : ∀ k ∈ ctx.chain, k ∉ known s) : ∀ k ∈ key :: ctx.chain, k ∉ known noted := by
        rw [hnoted]
        exact List.forall_mem_cons.mpr ⟨hknown, h⟩
      dsimp only
      rw [run_bind]
      cases hrun : (moduleRoutine load ctx key directory' body).run s with
      | error e s' =>
        rw [hrun] at hinner
        obtain ⟨htrip, hdeep⟩ := hinner
        refine ⟨fun h => ?_, hdeep⟩
        obtain ⟨entered, htrace, htour⟩ := htrip (hfresh h)
        rw [hnoted] at htour
        refine ⟨key :: entered, fun ht => ?_, .inside hbody hchain hknown htour (Ending.of_ne_finished _)⟩
        rw [htrace ht, hannounces.trace ht, List.append_assoc, List.singleton_append]
      | ok r s' =>
        rw [hrun] at hinner
        intro h
        obtain ⟨entered, htrace, htour⟩ := hinner (hfresh h)
        rw [hnoted] at htour
        refine ⟨key :: (entered ++ []), fun ht => ?_, .first hbody hchain hknown htour .nil⟩
        refine (htrace ht).trans ?_
        rw [hannounces.trace ht, List.append_assoc, List.singleton_append, List.append_nil]

theorem along_emitModuleCall (f : Value) : Along T deep [] (emitModuleCall ctx pos f) :=
  (Along.emitConstant f).bind fun _ => (Along.emit ..).bind fun _ => .pure _

/-- An import is followed, and imports nest no more deeply than there is room for. -/
theorem along_importModule (depth : Nat) :
    ∀ (ctx : CompileContext) (pos : Pos) (x : String), (deep ∨ Room o depth ctx.chain) →
      Along (fileTrail o ctx.traced ctx.chain ctx.importDir) deep [x] (importModule o depth ctx pos x) := by
  induction depth with
  | zero =>
    intro ctx pos x hdeep
    refine ⟨fun s => ⟨.of_still (.refl _ s) fun _ => .stop, fun _ _ => ?_⟩⟩
    rcases hdeep with hdeep | hroom
    · exact hdeep
    · exact absurd hroom.depth_pos (Nat.lt_irrefl 0)
  | succ depth ih =>
    intro ctx pos x hdeep
    have hload {key directory' : String} (hkey : CanBeKey o key) (hchain : key ∉ ctx.chain)
        (ctx' : CompileContext) (pos : Pos) (x : String)
        (h : Amid (key :: ctx.chain) directory' ctx.traced ctx') :
        Along (fileTrail o ctx.traced (key :: ctx.chain) directory') deep [x]
          (importModule o depth ctx' pos x) := by
      have hroom : deep ∨ Room o depth ctx'.chain := by
        rw [h.chain_eq]
        exact hdeep.imp_right fun hroom => hroom.enter hchain hkey
      have hinner := ih ctx' pos x hroom
      rw [h.chain_eq, h.traced_eq, h.directory_eq] at hinner
      exact hinner
    rw [importModule_succ]
    cases hx : o.registry[x]? with
    | some source =>
      cases source with
      | attrs entries =>
        exact ⟨fun s => outcome_imp ((Along.emitConstant _).run s) fun ending s' h => h.attrs hx⟩
      | script text =>
        exact (along_moduleFunction (.script hx) (fun body hbody => .script hx hbody)
          (hload (canBeKey_of_script hx))).before fun f => along_emitModuleCall f
    | none =>
      by_cases hfile : o.fileImport = true
      · dsimp only
        rw [if_pos hfile]
        cases hpath : o.path ctx.importDir x with
        | error cause => exact Along.fail (not_ofImports_of_path hpath)
        | ok path =>
          have hkey : Keys o ctx.importDir x path := .file hx hfile hpath
          have hget (s : CompileState) : (get : CompileM CompileState).run s = .ok s s := rfl
          refine ⟨fun s => ?_⟩
          dsimp only
          rw [run_bind, hget]
          dsimp only
          cases hlookup : s.cache.lookup path with
          | some f =>
            exact outcome_imp ((along_emitModuleCall f).run s) fun ending s' h =>
              h.again hkey (mem_known hlookup)
          | none =>
            dsimp only
            cases hread : o.files.read path with
            | error fault => exact (Along.fail id).run s
            | ok source =>
              refine ((along_moduleFunction hkey (fun body hbody => .file hx hfile hpath hread hbody)
                (hload (.inr (o.files.read_ok hread).1))).before fun f => along_emitModuleCall f).run s
      · rw [if_neg hfile]
        exact .ite (.fail id) (.fail id)

end ScriptEngine.Imports
