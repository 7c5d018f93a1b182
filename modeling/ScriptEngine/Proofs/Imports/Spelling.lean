import ScriptEngine.Proofs.Imports.Cycles
/-!
Imports in whole programs, whatever can be imported. The compiler tells files apart by the paths that
imports come to, as they are spelled, which suffices to end and to let no cycle of files pass; that it
reports every such cycle, and compiles every file once, takes files that are met under one path each.
-/
namespace ScriptEngine

namespace Imports

open Compile

/-- A module as what it is: the file that its key opens, or else its key. -/
def identity (o : ImportOptions) (key : String) : String ⊕ List String :=
  match o.files.place? key with
  | some place => .inr place
  | none => .inl key

/-- Every file is met under one path. -/
def SpelledAlike (o : ImportOptions) (directory : String) (names : List String) : Prop :=
  ∀ directory₁ directory₂ x y key key', Met o directory names directory₁ x →
    Met o directory names directory₂ y → Keys o directory₁ x key → Keys o directory₂ y key' →
    identity o key = identity o key' → key = key'

/-- Following the imports `names` from a directory comes upon a module that is being followed, by the
last key; what a module is identified with is a parameter. -/
def Revisits {K : Type} (o : ImportOptions) (identity : String → K) (directory : String)
    (names : List String) (key : String) : Prop :=
  ∃ entered known, Tour o identity [] directory [] names entered (.cyclic key) known

/-- The compiler reports a cycle that the module closes. -/
def Reports {α : Type} (result : Except CompileError α) (key : String) : Prop :=
  ∃ e, result = .error e ∧ e.cause = .cyclicImport key

/-- The module that closes the cycle that the compiler reports. -/
def cycle? {α : Type} : Except CompileError α → Option String
  | .ok _ => none
  | .error e =>
    match e.cause with
    | .cyclicImport key => some key
    | _ => none

theorem reports_of_cycle? {α : Type} {result : Except CompileError α} {key : String}
    (h : cycle? result = some key) : Reports result key := by
  cases result with
  | ok a => cases h
  | error e =>
    refine ⟨e, rfl, ?_⟩
    unfold cycle? at h
    dsimp only at h
    split at h
    · rename_i key' hcause
      rw [hcause, Option.some.inj h]
    · cases h

/-- The compiler reports no error but a cycle. -/
def OnlyCycles {α : Type} (result : Except CompileError α) : Prop :=
  ∀ e, result = .error e → ∃ key, e.cause = .cyclicImport key

variable {o : ImportOptions} {directory directory' key : String}
  {names names' chain known entered known' : List String} {ending : Ending}

/-- Where files are met under one path each, to follow paths is to follow files. -/
theorem Tour.identified {K : Type} {identity : String → K} {S : String → Prop}
    (hS : ∀ k, S k → ∀ k', S k' → identity k = identity k' → k = k')
    (hkeys : ∀ directory₁ x key, Met o directory names directory₁ x → Keys o directory₁ x key → S key)
    (h : Tour o id chain directory' known names' entered ending known')
    (hmet : ∀ x ∈ names', Met o directory names directory' x) (hchain : ∀ k ∈ chain, S k)
    (hknown : ∀ k ∈ known, S k) :
    (∀ k ∈ known', S k) ∧ Tour o identity (chain.map identity) directory' (known.map identity) names'
      (entered.map identity) ending (known'.map identity) := by
  have hmem {ks : List String} {k : String} (hk : S k) (hks : ∀ k ∈ ks, S k) :
      identity k ∈ ks.map identity ↔ k ∈ ks := by
    refine ⟨fun h => ?_, List.mem_map_of_mem⟩
    obtain ⟨k', hk', heq⟩ := List.mem_map.mp h
    exact hS k' (hks k' hk') k hk heq ▸ hk'
  induction h with
  | nil => exact ⟨hknown, .nil⟩
  | stop => exact ⟨hknown, .stop⟩
  | attrs hx _ ih =>
    obtain ⟨hall, htour⟩ := ih (fun y hy => hmet y (List.mem_cons_of_mem _ hy)) hchain hknown
    exact ⟨hall, .attrs hx htour⟩
  | again hkey hout hin _ ih =>
    have hk := hkeys _ _ _ (hmet _ List.mem_cons_self) hkey
    obtain ⟨hall, htour⟩ := ih (fun y hy => hmet y (List.mem_cons_of_mem _ hy)) hchain hknown
    exact ⟨hall, .again hkey ((hmem hk hchain).not.mpr hout) ((hmem hk hknown).mpr hin) htour⟩
  | cyclic hkey hin =>
    have hk := hkeys _ _ _ (hmet _ List.mem_cons_self) hkey
    exact ⟨hknown, .cyclic hkey ((hmem hk hchain).mpr hin)⟩
  | inside hopens hout hnew _ hending ih =>
    have hx := hmet _ List.mem_cons_self
    have hk := hkeys _ _ _ hx hopens.keys
    obtain ⟨hall, htour⟩ := ih (fun y hy => .inside hx hopens hy)
      (List.forall_mem_cons.mpr ⟨hk, hchain⟩) hknown
    exact ⟨hall, .inside hopens ((hmem hk hchain).not.mpr hout) ((hmem hk hknown).not.mpr hnew) htour
      hending⟩
  | first hopens hout hnew _ _ ih ihrest =>
    have hx := hmet _ List.mem_cons_self
    have hk := hkeys _ _ _ hx hopens.keys
    obtain ⟨hall, hinner⟩ := ih (fun y hy => .inside hx hopens hy)
      (List.forall_mem_cons.mpr ⟨hk, hchain⟩) hknown
    obtain ⟨hall', hrest⟩ := ihrest (fun y hy => hmet y (List.mem_cons_of_mem _ hy)) hchain
      (List.forall_mem_cons.mpr ⟨hk, hall⟩)
    rw [List.map_cons, List.map_append]
    exact ⟨hall', .first hopens ((hmem hk hchain).not.mpr hout) ((hmem hk hknown).not.mpr hnew) hinner
      hrest⟩

/-- From the start, where files are met under one path each, to follow paths is to follow files. -/
theorem SpelledAlike.tour (h : SpelledAlike o directory names)
    (htour : Tour o id [] directory [] names entered ending known) :
    Tour o (identity o) [] directory [] names (entered.map (identity o)) ending
      (known.map (identity o)) := by
  let S (key : String) : Prop := ∃ directory₁ x, Met o directory names directory₁ x ∧ Keys o directory₁ x key
  have hS (k : String) (hk : S k) (k' : String) (hk' : S k') (heq : identity o k = identity o k') :
      k = k' := by
    obtain ⟨directory₁, x, hmet, hkeys⟩ := hk
    obtain ⟨directory₂, y, hmet', hkeys'⟩ := hk'
    exact h _ _ _ _ _ _ hmet hmet' hkeys hkeys' heq
  exact (htour.identified hS (fun d x _ hmet hkeys => ⟨d, x, hmet, hkeys⟩) (fun x hx => .here hx)
    (List.forall_mem_nil _) (List.forall_mem_nil _)).2

section Check

/-- The key that an import comes to, computed. -/
def key? (o : ImportOptions) (directory x : String) : Option String :=
  match o.registry[x]? with
  | some (.script _) => some x
  | some (.attrs _) => none
  | none => (o.path directory x).toOption

/-- The module that an import opens, computed. -/
def open? (o : ImportOptions) (directory x : String) : Option (String × String × List Stmt) :=
  match o.registry[x]? with
  | some (.script text) => (parse x text.toUTF8).toOption.map (x, directory, ·)
  | some (.attrs _) => none
  | none => do
    let key ← (o.path directory x).toOption
    let source ← (o.files.read key).toOption
    let body ← (parse key source).toOption
    pure (key, Path.parent key, body)

theorem Keys.key?_eq {x : String} (h : Keys o directory x key) : key? o directory x = some key := by
  unfold key?
  cases h with
  | script hx => rw [hx]
  | file hx _ hpath =>
    rw [hx, hpath]
    rfl

theorem Opens.open?_eq {x : String} {body : List Stmt} (h : Opens o directory x key directory' body) :
    open? o directory x = some (key, directory', body) := by
  unfold open?
  cases h with
  | script hx hbody =>
    rw [hx]
    dsimp only
    rw [hbody]
    rfl
  | file hx _ hpath hread hbody => simp [hx, hpath, hread, hbody, Except.toOption]

/-- Whatever the imports in the list open imports only what is in the list. -/
def closedUnder (o : ImportOptions) (met : List (String × String)) : Bool :=
  met.all fun m =>
    match open? o m.1 m.2 with
    | some (_, directory, body) => (Stmt.allImports body).all fun y => met.contains (directory, y)
    | none => true

/-- The imports in the list come to one path for each file. -/
def spellsAlike (o : ImportOptions) (met : List (String × String)) : Bool :=
  met.all fun m => met.all fun n =>
    match key? o m.1 m.2, key? o n.1 n.2 with
    | some key, some key' => identity o key ≠ identity o key' || key = key'
    | _, _ => true

variable {met : List (String × String)} {x : String}

theorem Met.mem (h : Met o directory names directory' x) (hstart : ∀ x ∈ names, (directory, x) ∈ met)
    (hclosed : closedUnder o met = true) : (directory', x) ∈ met := by
  induction h with
  | here hx => exact hstart _ hx
  | inside _ hopens hy ih =>
    have hall := List.all_eq_true.mp hclosed _ ih
    dsimp only at hall
    rw [hopens.open?_eq] at hall
    exact List.contains_iff_mem.mp (List.all_eq_true.mp hall _ hy)

/-- A finite list of imports tells that files are met under one path each. -/
theorem spelledAlike_of_check (hstart : ∀ x ∈ names, (directory, x) ∈ met)
    (hclosed : closedUnder o met = true) (hcheck : spellsAlike o met = true) :
    SpelledAlike o directory names := by
  intro directory₁ directory₂ x y key key' hmet hmet' hkeys hkeys' hsame
  have hall := List.all_eq_true.mp hcheck _ (hmet.mem hstart hclosed)
  have hone := List.all_eq_true.mp hall _ (hmet'.mem hstart hclosed)
  dsimp only at hone
  rw [hkeys.key?_eq, hkeys'.key?_eq] at hone
  simpa [hsame] using hone

end Check

section Compile

variable {o : CompileOptions}

/-- A main program follows its imports, and they do not nest too deeply. -/
theorem along_mainRoutine (o : CompileOptions) (file : String) (body : List Stmt) :
    Along (fileTrail o.toImportOptions o.traced [] o.importDir) False (Stmt.allImports body)
      (mainRoutine o file body) := by
  refine mainRoutine_along Amid.passed (fun ctx pos x h => ?_) file body ⟨⟨rfl, rfl⟩, rfl⟩
  have hstart : False ∨ Room o.toImportOptions o.maxDepth ctx.chain := .inr (h.chain_eq ▸ .start _)
  have himport := along_importModule o.maxDepth ctx pos x hstart
  rw [h.chain_eq, h.traced_eq, h.directory_eq] at himport
  exact himport

/-- A compilation follows the imports of its program, and gets to an end. -/
theorem compile_tour (o : CompileOptions) (file : String) (body : List Stmt) :
    (∃ entered known, Tour o.toImportOptions id [] o.importDir [] (Stmt.allImports body) entered
      (.ofResult (compile o file body).1) known ∧
      (o.traced = true → announced (compile o file body).2 = entered)) ∧
    ∀ e x, (compile o file body).1 = .error e → e.cause ≠ .importDepth x := by
  obtain ⟨⟨s, htrip, htrace⟩, hdeep⟩ := compile_along (along_mainRoutine o file body)
  obtain ⟨entered, hentered, htour⟩ := htrip (List.forall_mem_nil _)
  exact ⟨⟨entered, _, htour, fun ht => htrace ▸ hentered ht⟩, hdeep⟩

/-- While nothing else is wrong, the cycles reported are those that following the imports comes upon. -/
theorem reports_iff {K : Type} {identity : String → K} {names : List String} {entered known : List K}
    {α : Type} {result : Except CompileError α} {o : ImportOptions} {directory : String}
    (htour : Tour o identity [] directory [] names entered (.ofResult result) known) (key : String) :
    Reports result key ↔ Revisits o identity directory names key ∧ OnlyCycles result := by
  constructor
  · rintro ⟨e, rfl, hcause⟩
    rw [Ending.ofResult, hcause] at htour
    refine ⟨⟨_, _, htour⟩, fun e' he' => ⟨key, ?_⟩⟩
    obtain rfl := Except.error.inj he'
    exact hcause
  · rintro ⟨⟨entered', known', hrevisits⟩, honly⟩
    cases result with
    | ok c => exact nomatch (htour.unique hrevisits (by simp [Ending.ofResult]) (by simp)).1
    | error e =>
      obtain ⟨key', hcause⟩ := honly e rfl
      rw [Ending.ofResult, hcause] at htour
      obtain rfl : key' = key := by
        simpa [Ending.of] using (htour.unique hrevisits (by simp [Ending.of]) (by simp)).1
      exact ⟨e, rfl, hcause⟩

end Compile

end Imports

open Imports

/-- Whatever modules and files can be imported, and however their paths are spelled, the compiler gets
to an end, enters no path twice, and while nothing else is wrong reports a cycle if and only if
following the imports comes upon a path that is being followed. No program that gets to a cycle of files
compiles. If every file is met under one path, then no file is entered twice, and a cycle is reported if
and only if following the imports comes upon a file that is being followed. -/
theorem cycles_of_files_end (o : CompileOptions) (file : String) (body : List Stmt) :
    (∀ e x, (compile o file body).1 = .error e → e.cause ≠ .importDepth x) ∧
    (∀ key, Reports (compile o file body).1 key ↔
      Revisits o.toImportOptions id o.importDir (Stmt.allImports body) key ∧
        OnlyCycles (compile o file body).1) ∧
    (SpelledAlike o.toImportOptions o.importDir (Stmt.allImports body) →
      ∀ key, Reports (compile o file body).1 key ↔
        Revisits o.toImportOptions (identity o.toImportOptions) o.importDir (Stmt.allImports body) key ∧
          OnlyCycles (compile o file body).1) ∧
    ∃ entered known, entered.Nodup ∧
      Tour o.toImportOptions id [] o.importDir [] (Stmt.allImports body) entered
        (.ofResult (compile o file body).1) known ∧
      (o.traced = true → announced (compile o file body).2 = entered) ∧
      (SpelledAlike o.toImportOptions o.importDir (Stmt.allImports body) →
        (entered.map (identity o.toImportOptions)).Nodup) ∧
      (o.files.Sound → Apart o.toImportOptions o.importDir (Stmt.allImports body) →
        ∀ c, (compile o file body).1 = .ok c →
          (∀ x ∈ Stmt.allImports body, ∀ key, Keys o.toImportOptions o.importDir x key → key ∈ entered) ∧
          ∀ key ∈ entered, ∀ place, o.files.place? key = some place → ¬ Cyclic o.toImportOptions place) := by
  obtain ⟨⟨entered, known, htour, htrace⟩, hdepth⟩ := compile_tour o file body
  refine ⟨hdepth, reports_iff htour, fun halike => reports_iff (halike.tour htour),
    entered, known, htour.entered_nodup, htour, htrace, fun halike => (halike.tour htour).entered_nodup,
    fun hsound hapart c hc => ?_⟩
  rw [hc] at htour
  obtain ⟨hlinked, hsettled⟩ := htour.linked (fun x hx => Met.here hx) .nil
  obtain ⟨new, hnew, hentered, hall⟩ := htour.known_eq
  rw [List.append_nil] at hnew
  subst hnew
  refine ⟨fun x hx key hkey => ?_, fun key hkey place hplace => ?_⟩
  · rcases hsettled rfl x hx with ⟨entries, hattrs⟩ | ⟨key', hmem, hkey'⟩
    · exact (hkey.ne_attrs hattrs).elim
    · obtain rfl := hkey.unique hkey'
      exact hentered _ hmem
  · exact hlinked.not_cyclic hsound hapart (hall rfl key hkey) hplace

/-- Two pairs of files that import each other, one of them over a path that grows, and a file that
imports another one over two paths. -/
def spelledFiles : FileTree where
  workingDirectory := "/"
  files := [
    (["p", "a.glint"], "export import(\"./b\")".toUTF8),
    (["p", "b.glint"], "export import(\"./a\")".toUTF8),
    (["p", "c.glint"], "export import(\"s/d\")".toUTF8),
    (["p", "s", "d.glint"], "export import(\"../c\")".toUTF8),
    (["p", "e.glint"], "export [import(\"s/f\"), import(\"./s/f\")]".toUTF8),
    (["p", "s", "f.glint"], "export 1".toUTF8)]
  directories := []

def spelledOptions : CompileOptions :=
  { registry := ∅, files := spelledFiles, fileImport := true, extension := ".glint", importDir := "/p"
    symbols := .empty, pool := #[], traced := true, maker := 0 }

/-- A program that imports one file. -/
def fileImporting (x : String) : List Stmt := [.expr (.load ⟨0, 1, 1⟩ x)]

theorem spelledFiles_sound : spelledFiles.Sound := by
  unfold FileTree.Sound
  decide +kernel

theorem Except.eq_ok_of_toOption {ε α : Type} {r : Except ε α} {a : α} (h : r.toOption = some a) :
    r = .ok a := by
  cases r with
  | ok b => exact congrArg _ (Option.some.inj h)
  | error e => cases h

/-- The file that a path opens imports another one, as a computation tells. -/
theorem fileEdge_of_open? {o : ImportOptions} {path x path' : String} {place place' : List String}
    {names : List String} (hplace : o.files.place? path = some place)
    (hnames : ((o.files.read path).toOption.bind fun source =>
      (parse path source).toOption.map Stmt.allImports) = some names)
    (hx : x ∈ names) (hnone : o.registry[x]? = none)
    (hpath : (o.path (Path.parent path) x).toOption = some path')
    (hplace' : o.files.place? path' = some place') : FileEdge o place place' := by
  obtain ⟨source, hread, hparsed⟩ := Option.bind_eq_some_iff.mp hnames
  obtain ⟨body, hbody, rfl⟩ := Option.map_eq_some_iff.mp hparsed
  exact ⟨path, source, body, x, path', hplace, Except.eq_ok_of_toOption hread,
    Except.eq_ok_of_toOption hbody, hx, hnone, Except.eq_ok_of_toOption hpath, hplace'⟩

theorem spelledOptions_none (x : String) : spelledOptions.registry[x]? = none :=
  Std.TreeMap.getElem?_emptyc

theorem spelledOptions_apart (names : List String) :
    Apart spelledOptions.toImportOptions "/p" names := by
  refine ⟨fun key text h => ?_, fun _ _ key text _ _ _ h => ?_⟩
  · simp [spelledOptions_none] at h
  · simp [spelledOptions_none] at h

/-- One of the pairs is a cycle. -/
theorem spelledFiles_cyclic : Cyclic spelledOptions.toImportOptions ["p", "c.glint"] := by
  have hdown : FileEdge spelledOptions.toImportOptions ["p", "c.glint"] ["p", "s", "d.glint"] :=
    @fileEdge_of_open? _ "/p/c.glint" "s/d" "/p/s/d.glint" _ _ ["s/d"] (by decide +kernel)
      (by decide +kernel) List.mem_cons_self (spelledOptions_none _) (by decide +kernel)
      (by decide +kernel)
  have hup : FileEdge spelledOptions.toImportOptions ["p", "s", "d.glint"] ["p", "c.glint"] :=
    @fileEdge_of_open? _ "/p/s/d.glint" "../c" "/p/s/../c.glint" _ _ ["../c"] (by decide +kernel)
      (by decide +kernel) List.mem_cons_self (spelledOptions_none _) (by decide +kernel)
      (by decide +kernel)
  exact ⟨_, .refl, .tail (.single hdown) hup⟩

/-- The cycle over paths that come back is reported, the file with two imports leads to no cycle, and the
cycle over paths that grow does not compile either. -/
theorem cycles_of_files_end_spelled :
    (SpelledAlike spelledOptions.toImportOptions "/p" ["./a"] ∧
      Revisits spelledOptions.toImportOptions (identity spelledOptions.toImportOptions) "/p" ["./a"]
        "/p/./a.glint") ∧
    (spelledFiles.Sound ∧ Apart spelledOptions.toImportOptions "/p" ["e"] ∧
      ¬ Cyclic spelledOptions.toImportOptions ["p", "e.glint"]) ∧
    (compile spelledOptions "m" (fileImporting "c")).1.isOk = false := by
  refine ⟨?_, ?_, ?_⟩
  · have halike : SpelledAlike spelledOptions.toImportOptions "/p" ["./a"] :=
      @spelledAlike_of_check _ _ _ [("/p", "./a"), ("/p", "./b")] (by decide) (by decide +kernel)
        (by decide +kernel)
    obtain ⟨-, -, hreports, -⟩ := cycles_of_files_end spelledOptions "m" (fileImporting "./a")
    have hreported : cycle? (compile spelledOptions "m" (fileImporting "./a")).1 = some "/p/./a.glint" := by
      decide +kernel
    exact ⟨halike, ((hreports halike _).mp (reports_of_cycle? hreported)).1⟩
  · obtain ⟨-, -, -, entered, known, -, -, htrace, -, hcycles⟩ :=
      cycles_of_files_end spelledOptions "m" (fileImporting "e")
    have hannounced : announced (compile spelledOptions "m" (fileImporting "e")).2 =
        ["/p/e.glint", "/p/s/f.glint", "/p/./s/f.glint"] := by decide +kernel
    have hok : (compile spelledOptions "m" (fileImporting "e")).1.isOk = true := by decide +kernel
    cases hresult : (compile spelledOptions "m" (fileImporting "e")).1 with
    | error e =>
      rw [hresult] at hok
      cases hok
    | ok c =>
      have hapart := spelledOptions_apart ["e"]
      obtain ⟨-, hnot⟩ := hcycles spelledFiles_sound hapart c hresult
      have hentered : "/p/e.glint" ∈ entered := by
        rw [← htrace rfl, hannounced]
        exact List.mem_cons_self
      exact ⟨spelledFiles_sound, hapart, hnot _ hentered _ (by decide +kernel)⟩
  · obtain ⟨-, -, -, entered, known, -, -, -, -, hcycles⟩ :=
      cycles_of_files_end spelledOptions "m" (fileImporting "c")
    cases hresult : (compile spelledOptions "m" (fileImporting "c")).1 with
    | error e => rfl
    | ok c =>
      obtain ⟨hmet, hnot⟩ := hcycles spelledFiles_sound (spelledOptions_apart ["c"]) c hresult
      have hkey : Keys spelledOptions.toImportOptions "/p" "c" "/p/c.glint" :=
        .file (spelledOptions_none _) rfl (Except.eq_ok_of_toOption (by decide +kernel))
      have hentered := hmet "c" List.mem_cons_self _ hkey
      exact absurd spelledFiles_cyclic (hnot _ hentered _ (by decide +kernel))

/-- A file that is met under two paths is compiled under both. -/
example : announced (compile spelledOptions "m" (fileImporting "e")).2 =
    ["/p/e.glint", "/p/s/f.glint", "/p/./s/f.glint"] := by decide +kernel

end ScriptEngine
