import Mathlib.Logic.Relation
import ScriptEngine.Proofs.Imports.Files
/-!
Cycles of files. What has been followed to its end imports only what had been followed before, so a file
that imports itself, over whatever paths, is never followed to its end. Where every file is met under one
path only, paths tell files apart.
-/
namespace ScriptEngine

theorem parseText_rename {file file' : String} {text : List Char} {body : List Stmt}
    (h : parseText file text = .ok body) : parseText file' text = .ok body := by
  unfold parseText at h ⊢
  split at h
  · cases h
  · split at h
    · exact h
    · cases h

/-- The statements of a script do not depend on what it is called. -/
theorem parse_rename {file file' : String} {source : ByteArray} {body : List Stmt}
    (h : parse file source = .ok body) : parse file' source = .ok body := by
  unfold parse at h ⊢
  split at h
  · exact parseText_rename h
  · cases h

namespace Imports

open Compile Relation
open FileTree (place?_eq_some place?_of_read place?_unique lead_parent)

/-- When the imports `names` of a program are followed from a directory, the import is met, if not
something else is wrong before. -/
inductive Met (o : ImportOptions) (directory : String) (names : List String) :
    (directory' x : String) → Prop where
  | here {x : String} (hx : x ∈ names) : Met o directory names directory x
  | inside {directory₁ x key directory₂ y : String} {body : List Stmt}
      (hmet : Met o directory names directory₁ x) (hopens : Opens o directory₁ x key directory₂ body)
      (hy : y ∈ Stmt.allImports body) : Met o directory names directory₂ y

/-- The file at a place imports a file, if it is opened by some path. -/
def FileEdge (o : ImportOptions) (place place' : List String) : Prop :=
  ∃ path source body x path', o.files.place? path = some place ∧ o.files.read path = .ok source ∧
    parse path source = .ok body ∧ x ∈ Stmt.allImports body ∧ o.registry[x]? = none ∧
    o.path (Path.parent path) x = .ok path' ∧ o.files.place? path' = some place'

/-- From the file at a place one gets to a file that imports itself, directly or through others. -/
def Cyclic (o : ImportOptions) (place : List String) : Prop :=
  ∃ place', ReflTransGen (FileEdge o) place place' ∧ TransGen (FileEdge o) place' place'

/-- No registered script goes by the path of a file. -/
structure Apart (o : ImportOptions) (directory : String) (names : List String) : Prop where
  scripts : ∀ key text, o.registry[key]? = some (.script text) → o.files.place? key = none
  paths : ∀ directory' x key text, Met o directory names directory' x → o.registry[x]? = none →
    o.path directory' x = .ok key → o.registry[key]? ≠ some (.script text)

/-- The import needs nothing but what is known. -/
def Settled (o : ImportOptions) (directory : String) (known : List String) (x : String) : Prop :=
  (∃ entries, o.registry[x]? = some (.attrs entries)) ∨ ∃ key ∈ known, Keys o directory x key

/-- Every module imports only modules that became known before it, which stand behind it. -/
inductive Linked (o : ImportOptions) (directory : String) (names : List String) : List String → Prop where
  | nil : Linked o directory names []
  | cons {directory₁ x key directory₂ : String} {body : List Stmt} {known : List String}
      (hmet : Met o directory names directory₁ x) (hopens : Opens o directory₁ x key directory₂ body)
      (hsettled : ∀ y ∈ Stmt.allImports body, Settled o directory₂ known y)
      (hknown : Linked o directory names known) : Linked o directory names (key :: known)

variable {o : ImportOptions} {directory directory' key x : String}
  {names names' chain known entered known' : List String} {ending : Ending}
  {place place' place'' : List String}

theorem Settled.mono (h : Settled o directory known x) (hsub : known ⊆ known') :
    Settled o directory known' x := by
  rcases h with hattrs | ⟨key, hkey, hkeys⟩
  · exact .inl hattrs
  · exact .inr ⟨key, hsub hkey, hkeys⟩

/-- Following imports keeps what is known linked, and to the end it settles them. -/
theorem Tour.linked (h : Tour o id chain directory' known names' entered ending known')
    (hmet : ∀ x ∈ names', Met o directory names directory' x) (hknown : Linked o directory names known) :
    Linked o directory names known' ∧
      (ending = .finished → ∀ x ∈ names', Settled o directory' known' x) := by
  induction h with
  | nil => exact ⟨hknown, by simp⟩
  | stop | cyclic => exact ⟨hknown, by simp⟩
  | attrs hx hrest ih =>
    obtain ⟨hlinked, hsettled⟩ := ih (fun y hy => hmet y (List.mem_cons_of_mem _ hy)) hknown
    exact ⟨hlinked, fun hend => List.forall_mem_cons.mpr ⟨.inl ⟨_, hx⟩, hsettled hend⟩⟩
  | again hkey _ hmem hrest ih =>
    obtain ⟨hlinked, hsettled⟩ := ih (fun y hy => hmet y (List.mem_cons_of_mem _ hy)) hknown
    refine ⟨hlinked, fun hend => List.forall_mem_cons.mpr ⟨.inr ⟨_, ?_, hkey⟩, hsettled hend⟩⟩
    exact hrest.known_suffix.subset hmem
  | inside hopens _ _ _ hending ih =>
    have hinner := ih (fun y hy => .inside (hmet _ List.mem_cons_self) hopens hy) hknown
    exact ⟨hinner.1, fun hend => absurd hend hending⟩
  | first hopens _ _ _ hrest ih ihrest =>
    have hx := hmet _ List.mem_cons_self
    obtain ⟨hinner, hall⟩ := ih (fun y hy => .inside hx hopens hy) hknown
    obtain ⟨hlinked, hsettled⟩ := ihrest (fun y hy => hmet y (List.mem_cons_of_mem _ hy))
      (.cons hx hopens (hall rfl) hinner)
    refine ⟨hlinked, fun hend => List.forall_mem_cons.mpr ⟨.inr ⟨_, ?_, hopens.keys⟩, hsettled hend⟩⟩
    exact hrest.known_suffix.subset List.mem_cons_self

namespace Linked

theorem opens (h : Linked o directory names known) (hkey : key ∈ known) :
    ∃ directory₁ x directory₂ body, Met o directory names directory₁ x ∧
      Opens o directory₁ x key directory₂ body := by
  induction h with
  | nil => cases hkey
  | cons hmet hopens _ _ ih =>
    rcases List.mem_cons.mp hkey with rfl | hkey
    · exact ⟨_, _, _, _, hmet, hopens⟩
    · exact ih hkey

/-- A file that is known has the files that it imports behind it. -/
theorem behind (hsound : o.files.Sound) (hapart : Apart o directory names)
    (h : Linked o directory names (key :: known)) (hplace : o.files.place? key = some place)
    (hedge : FileEdge o place place') : ∃ key' ∈ known, o.files.place? key' = some place' := by
  cases h with
  | @cons directory₁ x _ directory₂ body _ hmet hopens hsettled hknown =>
    obtain ⟨path, source, body', y, path', hpath, hread, hparse, hy, hnone, hpath', hplace'⟩ := hedge
    cases hopens with
    | script hx => simp [hapart.scripts _ _ hx] at hplace
    | file hx hfile hkeypath hread' hbody =>
      rename_i source'
      -- Both paths open the file at the place, so the text is the same.
      have hsame : source = source' := by
        obtain ⟨⟨contents, hcontents, hfileAt⟩, -⟩ := place?_eq_some hpath
        obtain ⟨⟨contents', hcontents', hfileAt'⟩, -⟩ := place?_eq_some hplace
        obtain rfl := Except.ok.inj (hread.symm.trans hcontents)
        obtain rfl := Except.ok.inj (hread'.symm.trans hcontents')
        exact Option.some.inj (hfileAt.symm.trans hfileAt')
      subst hsame
      obtain rfl : body = body' := Except.ok.inj ((parse_rename hbody).symm.trans hparse)
      rcases hsettled y hy with ⟨entries, hattrs⟩ | ⟨key', hmem, hkeys⟩
      · simp [hnone] at hattrs
      have hmet' : Met o directory names (Path.parent key) y :=
        .inside hmet (.file hx hfile hkeypath hread' hbody) hy
      cases hkeys with
      | script hscript => simp [hnone] at hscript
      | file _ _ hkeypath' =>
        obtain ⟨d, z, d', body₁, -, hopens'⟩ := hknown.opens hmem
        cases hopens' with
        | script hscript => exact absurd hscript (hapart.paths _ _ _ _ hmet' hnone hkeypath')
        | file _ _ _ hreadkey _ =>
          obtain ⟨found, hfound⟩ := place?_of_read hreadkey
          refine ⟨key', hmem, ?_⟩
          rw [hfound, place?_unique (lead_parent hsound hplace) (lead_parent hsound hpath) hkeypath'
            hpath' hfound hplace']

/-- A file that a known one imports is known. -/
theorem edge (hsound : o.files.Sound) (hapart : Apart o directory names)
    (h : Linked o directory names known) (hkey : key ∈ known) (hplace : o.files.place? key = some place)
    (hedge : FileEdge o place place') : ∃ key' ∈ known, o.files.place? key' = some place' := by
  induction h with
  | nil => cases hkey
  | cons hmet hopens hsettled hknown ih =>
    rcases List.mem_cons.mp hkey with rfl | hkey
    · obtain ⟨key', hmem, hplace'⟩ :=
        behind hsound hapart (.cons hmet hopens hsettled hknown) hplace hedge
      exact ⟨key', List.mem_cons_of_mem _ hmem, hplace'⟩
    · obtain ⟨key', hmem, hplace'⟩ := ih hkey
      exact ⟨key', List.mem_cons_of_mem _ hmem, hplace'⟩

/-- Whatever a known file leads to is known. -/
theorem reaches (hsound : o.files.Sound) (hapart : Apart o directory names)
    (h : Linked o directory names known) (hkey : key ∈ known) (hplace : o.files.place? key = some place)
    (hreach : ReflTransGen (FileEdge o) place place') :
    ∃ key' ∈ known, o.files.place? key' = some place' := by
  induction hreach with
  | refl => exact ⟨key, hkey, hplace⟩
  | tail _ hlast ih =>
    obtain ⟨key', hmem, hplace'⟩ := ih
    exact h.edge hsound hapart hmem hplace' hlast

/-- No known file imports itself. -/
theorem acyclic (hsound : o.files.Sound) (hapart : Apart o directory names)
    (h : Linked o directory names known) (hkey : key ∈ known) (hplace : o.files.place? key = some place) :
    ¬ TransGen (FileEdge o) place place := by
  intro hcycle
  induction h generalizing key with
  | nil => cases hkey
  | cons hmet hopens hsettled hknown ih =>
    rcases List.mem_cons.mp hkey with rfl | hkey
    · obtain ⟨next, hedge, hback⟩ := TransGen.head'_iff.mp hcycle
      obtain ⟨key', hmem, hplace'⟩ :=
        behind hsound hapart (.cons hmet hopens hsettled hknown) hplace hedge
      obtain ⟨key'', hmem', hplace''⟩ := hknown.reaches hsound hapart hmem hplace' hback
      exact ih hmem' hplace''
    · exact ih hkey hplace

/-- From no known file does one get to a file that imports itself. -/
theorem not_cyclic (hsound : o.files.Sound) (hapart : Apart o directory names)
    (h : Linked o directory names known) (hkey : key ∈ known) (hplace : o.files.place? key = some place) :
    ¬ Cyclic o place := by
  rintro ⟨place', hreach, hcycle⟩
  obtain ⟨key', hmem, hplace'⟩ := h.reaches hsound hapart hkey hplace hreach
  exact h.acyclic hsound hapart hmem hplace' hcycle

end Linked

end Imports

end ScriptEngine
