import ScriptEngine.Proofs.Globals.Edits
import ScriptEngine.Proofs.Globals.Slots
/-!
What a host sees of an artifact: the names that it lists, their slots, and the value of each, which it
can set one by one. Runs, sets and clones leave the names as they are, and an artifact does not change
with another.
-/
namespace ScriptEngine

/-- The names that an artifact lists, by slot. -/
def Artifact.listed (a : Artifact) : List String := a.names.map (·.1)

/-- All ways to read an artifact agree, and each listed name can be set apart from the others. -/
structure Artifact.Coherent (a : Artifact) : Prop where
  listed : a.getAll.map (·.1) = a.listed
  entry : ∀ e ∈ a.getAll, a.get e.1 = e.2
  other : ∀ x ∉ a.listed, a.get x = .undefined
  defined : ∀ x, a.isDefined x = true ↔ a.get x ≠ .undefined
  set : ∀ x ∈ a.listed, ∀ v, ∃ b, a.setValue x v = .ok b ∧ b.listed = a.listed ∧ b.get x = v ∧
    ∀ y, y ≠ x → b.get y = a.get y
  refused : ∀ x ∉ a.listed, ∀ v, a.setValue x v = .error (.undefinedVariable x)

/-- What a host does with an artifact. -/
inductive Use where
  | set (name : String) (value : Value)
  | run (c : Conditions)
  | runWithCancel (c : Conditions) (number : Nat) (token : CancelToken) (latency : Nat)

/-- What becomes of the artifact. -/
def Use.change (a : Artifact) : Use → Artifact
  | set x v =>
    match a.setValue x v with
    | .ok b => b
    | .error _ => a
  | run c => (a.run c).artifact
  | runWithCancel c number token latency => (a.runWithCancel c number token latency).artifact

/-- What a host does with the artifacts it holds, each known by its place. -/
inductive HostStep where
  | use (place : Nat) (u : Use)
  | clone (place : Nat)

namespace HostStep

/-- The artifacts that the host holds after a step; a clone goes last. -/
def perform (shelf : List Artifact) : HostStep → List Artifact
  | use k u => shelf.modify k u.change
  | clone k => shelf ++ (shelf[k]?).toList

/-- The artifacts that the host holds after several steps. -/
def performAll (shelf : List Artifact) (steps : List HostStep) : List Artifact :=
  steps.foldl perform shelf

end HostStep

namespace Globals

section Listing

variable {Γ : Names} {s : Script} {maker : Nat} {a : Artifact} {body : List Stmt} {c : Compilation}
  {x : String} {v : Value}

theorem foldl_define (bindings : List (String × Value)) (hΓ : Γ.functions = []) :
    bindings.foldl (fun Γ b => Γ.define b.1) Γ =
      { Γ with globals := ((bindings.map (·.1)).zipIdx Γ.cell).reverse ++ Γ.globals
               cell := Γ.cell + bindings.length } := by
  induction bindings generalizing Γ with
  | nil => rfl
  | cons b rest ih =>
    have hdefine := Names.define_outside hΓ b.1
    rw [List.foldl_cons, ih (by rw [hdefine, hΓ]), hdefine]
    simp only [List.map_cons, List.zipIdx_cons, List.reverse_cons, List.append_assoc,
      List.singleton_append, List.length_cons, Nat.add_assoc, Nat.add_comm 1]

/-- The bound names have the first slots, in their order. -/
theorem names_eq (s : Script) : s.names = ⟨[], s.bound.zipIdx.reverse, s.bindings.length, 0⟩ := by
  unfold Script.names
  rw [foldl_define s.bindings rfl]
  simp [Script.bound]

theorem ascends_names (s : Script) : Ascends s.names := by
  rw [names_eq]
  have hslots : s.bound.zipIdx.reverse.map (·.2) = (List.range s.bound.length).reverse := by
    rw [List.map_reverse, List.zipIdx_map_snd, List.range_eq_range']
  constructor
  · rw [hslots]
    exact List.pairwise_reverse.mpr List.pairwise_lt_range
  · intro cell hmem
    rw [hslots, List.mem_reverse, List.mem_range] at hmem
    simpa [Script.bound] using hmem

/-- The builtins with their numbers. -/
def builtins : List (String × Nat) := Builtin.all.toList.zipIdx.map fun b => (b.1.name, b.2)

theorem symbols_eq (s : Script) : s.symbols = .host builtins s.bound := by
  unfold Script.symbols SymbolTable.host builtins Script.bound
  rw [List.foldl_map, List.foldl_map]

/-- The names of an artifact are those behind its program. -/
theorem artifact_names (hnodup : s.bound.Nodup)
    (hparse : parse s.file s.source = .ok body)
    (hcompile : (ScriptEngine.compile (s.compileOptions maker) s.file body).1 = .ok c) :
    (s.artifact c).names = (Stmt.afterAll body s.names).globals.reverse ∧
    c.symbols.globals = (Stmt.afterAll body s.names).cell ∧
    (s.bound ++ Stmt.topNames body).Nodup := by
  have hbody := parse_parsed hparse
  have hfunctions : s.names.functions = [] := by rw [names_eq]
  have hsymbols : (s.compileOptions maker).symbols = .host builtins s.bound := symbols_eq s
  have hfits := compile_fits (Layout.script_fits s).1 hcompile
  have hmain : Scoping.Verdict (fun _ => True) (.host builtins s.bound)
      (Stmt.AllScoped body false (.host builtins s.bound))
      (Compile.mainRoutine (s.compileOptions maker) s.file body)
      (Stmt.allLeaves body (.host builtins s.bound)) :=
    Scoping.mainRoutine_verdict (fun _ _ => trivial)
      (fun ctx pos name _ => keeps_importModule _ _ ctx pos name) (fun _ _ _ h => h) hbody rfl
  have hverdict := Scoping.compile_of_verdict hmain (hsymbols ▸ Scoping.fits_host builtins s.bound)
  rw [hcompile] at hverdict
  obtain ⟨hscoped, hblocks⟩ := hverdict
  obtain ⟨hleaves, hall⟩ := leaves_outside hbody hscoped (List.nodup_reverse.mpr hnodup)
  obtain ⟨hnames, -, hascends⟩ := globals_afterAll hbody hfunctions (ascends_names s)
  have hbound : s.names.globals.map (·.1) = s.bound.reverse := by
    rw [names_eq, List.map_reverse, List.zipIdx_map_fst]
  rw [hbound] at hnames
  have hsorted := globalSymbols_eq hfits hblocks (by rw [Blocks.host, hleaves]) (hnames ▸ hall) hascends
  refine ⟨?_, hfits.cells, ?_⟩
  · simp only [Script.artifact, hsorted, List.map_map, Function.comp_def, List.map_id']
  · have hrev : (s.bound ++ Stmt.topNames body).reverse =
        (Stmt.topNames body).reverse ++ s.bound.reverse := List.reverse_append
    rw [← List.nodup_reverse, hrev]
    exact hall

end Listing

variable {a b : Artifact} {x y : String} {v : Value} {slot : Nat} {shelf : List Artifact}
  {names : List (String × Nat)}

theorem slot_iff (hnodup : a.listed.Nodup) : a.slot? x = some slot ↔ (x, slot) ∈ a.names :=
  ⟨Layout.mem_of_lookup, Layout.lookup_of_nodup hnodup⟩

theorem lookup_eq_none {β : Type} {l : List (String × β)} :
    l.lookup x = none ↔ x ∉ l.map (·.1) := by
  rw [List.lookup_eq_none_iff]
  constructor
  · intro h hmem
    obtain ⟨e, he, rfl⟩ := List.mem_map.mp hmem
    exact absurd rfl (bne_iff_ne.mp (h e he))
  · exact fun h e he => bne_iff_ne.mpr fun hx => h (hx ▸ List.mem_map_of_mem he)

theorem slot_eq_none : a.slot? x = none ↔ x ∉ a.listed := lookup_eq_none

/-- Names with slots of their own can be read and set one by one. -/
theorem coherent (hnodup : a.listed.Nodup) (hslots : (a.names.map (·.2)).Nodup) : a.Coherent where
  listed := by simp [Artifact.getAll, Artifact.listed, List.map_map, Function.comp_def]
  entry e he := by
    obtain ⟨⟨x, slot⟩, hmem, rfl⟩ := List.mem_map.mp he
    simp only [Artifact.get, (slot_iff hnodup).mpr hmem, Option.bind_some]
  other x hx := by rw [Artifact.get, slot_eq_none.mpr hx, Option.bind_none, Option.getD_none]
  defined x := by
    unfold Artifact.isDefined
    cases a.get x <;> simp [Value.isUndefined]
  set x hx v := by
    cases hslot : a.slot? x with
    | none => exact absurd hx (slot_eq_none.mp hslot)
    | some slot =>
      refine ⟨{ a with globals := a.globals.set slot v }, by rw [Artifact.setValue, hslot], rfl, ?_,
        fun y hy => ?_⟩
      · change ((a.slot? x).bind (a.globals.set slot v).get?).getD .undefined = v
        rw [hslot, Option.bind_some, Globals.get?_set, if_pos rfl, Option.getD_some]
      · change ((a.slot? y).bind (a.globals.set slot v).get?).getD .undefined =
          ((a.slot? y).bind a.globals.get?).getD .undefined
        cases hother : a.slot? y with
        | none => rfl
        | some other =>
          have hne : slot ≠ other := fun he => hy (congrArg Prod.fst (List.inj_on_of_nodup_map hslots
            ((slot_iff hnodup).mp hother) ((slot_iff hnodup).mp hslot) he.symm))
          rw [Option.bind_some, Option.bind_some, Globals.get?_set, if_neg hne]
  refused x hx v := by rw [Artifact.setValue, slot_eq_none.mpr hx]

/-- Nothing that a host does changes the names of an artifact. -/
theorem names_change (u : Use) (a : Artifact) : (u.change a).names = a.names := by
  cases u with
  | run => rfl
  | set x v =>
    simp only [Use.change, Artifact.setValue]
    cases a.slot? x <;> rfl
  | runWithCancel c number token latency =>
    simp only [Use.change, Artifact.runWithCancel]
    split
    · rfl
    · split <;> rfl

theorem names_perform (h : ∀ b ∈ shelf, b.names = names) (step : HostStep) :
    ∀ b ∈ step.perform shelf, b.names = names := by
  intro b hb
  cases step with
  | use k u =>
    obtain ⟨j, hj⟩ := List.getElem?_of_mem hb
    rw [HostStep.perform, List.getElem?_modify] at hj
    obtain ⟨c, hc, rfl⟩ := Option.map_eq_some_iff.mp hj
    have hnames := h c (List.mem_of_getElem? hc)
    split
    · exact (names_change u c).trans hnames
    · exact hnames
  | clone k =>
    rcases List.mem_append.mp hb with hb | hb
    · exact h b hb
    · exact h b (List.mem_of_getElem? (Option.mem_toList.mp hb))

theorem names_performAll (steps : List HostStep) (h : ∀ b ∈ shelf, b.names = names) :
    ∀ b ∈ HostStep.performAll shelf steps, b.names = names := by
  induction steps generalizing shelf with
  | nil => exact h
  | cons step rest ih => exact ih (names_perform h step)

/-- The use of an artifact leaves the others as they are. -/
theorem perform_use (shelf : List Artifact) {j k : Nat} (u : Use) (h : k ≠ j) :
    (HostStep.perform shelf (.use k u))[j]? = shelf[j]? := by
  rw [HostStep.perform, List.getElem?_modify]
  simp [h]

/-- A clone is equal to its original, and nothing else changes. -/
theorem perform_clone (shelf : List Artifact) {k : Nat} (h : shelf[k]? = some a) :
    HostStep.perform shelf (.clone k) = shelf ++ [a] := by
  rw [HostStep.perform, h, Option.toList_some]

variable {s : Script} {maker : Nat}

/-- A bound name has the slot of its place among the bound names, and before any run its value;
the other names come behind, and are undefined. -/
theorem artifact_fresh (hnodup : s.bound.Nodup) (h : (s.compile maker).1 = .ok a) :
    ∃ body, parse s.file s.source = .ok body ∧ a.listed = s.bound ++ Stmt.topNames body ∧
      a.listed.Nodup ∧ (a.names.map (·.2)).Pairwise (· < ·) ∧
      (∀ (n : Nat) x, s.bound[n]? = some x → a.names[n]? = some (x, n)) ∧
      ∀ x, a.get x = (s.bindings.lookup x).getD .undefined := by
  obtain ⟨body, c, hparse, hcompile, rfl⟩ := Script.compile_artifact h
  obtain ⟨hnames, hcells, hall⟩ := artifact_names hnodup hparse hcompile
  obtain ⟨hlisted, hsuffix, hascends⟩ := globals_afterAll (parse_parsed hparse)
    (by rw [names_eq]) (ascends_names s)
  have hbound : s.names.globals = s.bound.zipIdx.reverse := by rw [names_eq]
  have hlisted : (s.artifact c).listed = s.bound ++ Stmt.topNames body := by
    rw [Artifact.listed, hnames, List.map_reverse, hlisted, hbound, List.map_reverse,
      List.zipIdx_map_fst, List.reverse_append, List.reverse_reverse, List.reverse_reverse]
  have hslots : ((s.artifact c).names.map (·.2)).Pairwise (· < ·) := by
    rw [hnames, List.map_reverse]
    exact List.pairwise_reverse.mpr hascends.order
  have hfirst (n : Nat) (x : String) (hx : s.bound[n]? = some x) :
      (s.artifact c).names[n]? = some (x, n) := by
    obtain ⟨more, hmore⟩ := hsuffix
    have hn : n < s.bound.zipIdx.length := by
      rw [List.length_zipIdx]
      exact (List.getElem?_eq_some_iff.mp hx).1
    rw [hnames, ← hmore, hbound, List.reverse_append, List.reverse_reverse,
      List.getElem?_append_left hn, List.getElem?_zipIdx, hx]
    simp
  refine ⟨body, hparse, hlisted, hlisted ▸ hall, hslots, hfirst, fun x => ?_⟩
  rw [Artifact.get]
  cases hslot : (s.artifact c).slot? x with
  | none =>
    have hx : x ∉ s.bound := fun hx => slot_eq_none.mp hslot (hlisted ▸ List.mem_append_left _ hx)
    rw [lookup_eq_none.mpr hx, Option.bind_none]
  | some slot =>
    have hmem := Layout.mem_of_lookup hslot
    have hcell : slot < c.symbols.globals := by
      rw [hnames, List.mem_reverse] at hmem
      exact hcells ▸ hascends.below slot (List.mem_map.mpr ⟨_, hmem, rfl⟩)
    have hvalue : (s.artifact c).globals.get? slot = (s.bindings[slot]?).map (·.2) := by
      change (s.globals.resize c.symbols.globals).get? slot = _
      rw [Globals.get?_resize, if_pos hcell]
      simp only [Script.globals, Globals.get?, List.getElem?_toArray, List.getElem?_map]
      cases s.bindings[slot]? <;> rfl
    rw [Option.bind_some, hvalue]
    congr 1
    cases hb : s.bindings[slot]? with
    | some b =>
      have hfirst := List.mem_of_getElem? (hfirst slot b.1 (by rw [Script.bound, List.getElem?_map, hb]; rfl))
      obtain rfl : x = b.1 := congrArg Prod.fst
        (List.inj_on_of_nodup_map (hslots.imp Nat.ne_of_lt) hmem hfirst rfl)
      exact (Layout.lookup_of_nodup hnodup (List.mem_of_getElem? hb)).symm
    | none =>
      symm
      refine lookup_eq_none.mpr fun hx => ?_
      obtain ⟨n, hn⟩ := List.getElem?_of_mem hx
      have hsame : some n = some slot := ((slot_iff (hlisted ▸ hall)).mpr
        (List.mem_of_getElem? (hfirst n x hn))).symm.trans hslot
      rw [List.getElem?_map, Option.some.inj hsame, hb] at hn
      cases hn

/-- A bound name has the slot of its place. -/
theorem slot_bound (hnodup : s.bound.Nodup) (h : (s.compile maker).1 = .ok a) {n : Nat}
    (hx : s.bound[n]? = some x) : a.slot? x = some n := by
  obtain ⟨-, -, -, hlisted, -, hfirst, -⟩ := artifact_fresh hnodup h
  exact (slot_iff hlisted).mpr (List.mem_of_getElem? (hfirst n x hx))

end Globals

open Globals

variable {s : Script} {edits : List Edit} {maker : Nat} {a : Artifact}

/-- An artifact lists the names that were bound, in the order in which they were bound, and behind
them those that the program defines outside of its nested blocks, each with a slot of its own. Before
any run a bound name has the value bound last. Whatever the host does with artifacts then, each of them
stays coherent, and changes only where the host uses it. -/
theorem artifact_maps_globals (hs : s.bindings = []) (h : ((s.edited edits).compile maker).1 = .ok a) :
    ∃ body, parse s.file s.source = .ok body ∧ Edit.Binds edits (s.edited edits).bound ∧
      a.listed = (s.edited edits).bound ++ Stmt.topNames body ∧ a.listed.Nodup ∧
      (a.names.map (·.2)).Pairwise (· < ·) ∧
      (∀ (n : Nat) x, (s.edited edits).bound[n]? = some x → a.names[n]? = some (x, n)) ∧
      (∀ x, a.get x = (Edit.value? edits x).getD .undefined) ∧
      ∀ steps : List HostStep, let shelf := HostStep.performAll [a] steps
        (∀ b ∈ shelf, b.names = a.names ∧ b.Coherent) ∧
        (∀ j k u, k ≠ j → (HostStep.perform shelf (.use k u))[j]? = shelf[j]?) ∧
        ∀ k b, shelf[k]? = some b → HostStep.perform shelf (.clone k) = shelf ++ [b] := by
  obtain ⟨hbinds, hlookup⟩ := Script.edited_binds hs edits
  obtain ⟨body, hparse, hlisted, hnodup, hslots, hfirst, hfresh⟩ := artifact_fresh hbinds.nodup h
  rw [Script.edited_eq] at hparse
  refine ⟨body, hparse, hbinds, hlisted, hnodup, hslots, hfirst, fun x => ?_, fun steps => ?_⟩
  · rw [hfresh, hlookup]
  · have hnames : ∀ b ∈ HostStep.performAll [a] steps, b.names = a.names :=
      names_performAll steps (by simp)
    refine ⟨fun b hb => ⟨hnames b hb, coherent ?_ ?_⟩, fun j k u hk => perform_use _ u hk,
      fun k b hb => perform_clone _ hb⟩
    · rw [Artifact.listed, hnames b hb]
      exact hnodup
    · rw [hnames b hb]
      exact hslots.imp Nat.ne_of_lt

/-- A script that reads a bound name, and defines a name inside a block and one outside. -/
def listingScript : Script :=
  .ofSource "c := a\nif b { d := 1 }\ne := c".toUTF8 Script.defaultFile Script.defaultExtension

/-- The latest first: `a` is bound anew behind `b`, and `b` gets another value. -/
def listingEdits : List Edit :=
  [.bind "b" (.bool true), .bind "a" (.int 3), .remove "a", .bind "b" .undefined, .bind "a" (.int 1)]

theorem artifact_maps_globals_rebinding :
    ∃ a, ((listingScript.edited listingEdits).compile 0).1 = .ok a ∧
      a.listed = ["b", "a", "c", "e"] ∧ a.get "b" = .bool true ∧ a.get "a" = .int 3 ∧
      a.get "c" = .undefined ∧ a.get "d" = .undefined ∧
      ∃ b, a.setValue "c" (.int 7) = .ok b ∧ b.get "c" = .int 7 ∧ b.get "a" = .int 3 := by
  have hok : (((listingScript.edited listingEdits).compile 0).1.toOption.any fun _ => true) = true := by
    decide +kernel
  have htop : ((parse listingScript.file listingScript.source).toOption.any fun body =>
      Stmt.topNames body == ["c", "e"]) = true := by decide +kernel
  obtain ⟨a, h, -⟩ := Compile.eq_ok_of_any hok
  obtain ⟨body, hparse, -, hlisted, -, -, -, hfresh, hsteps⟩ := artifact_maps_globals rfl h
  rw [hparse] at htop
  have hlisted : a.listed = ["b", "a", "c", "e"] := by
    rw [hlisted, eq_of_beq htop]
    rfl
  obtain ⟨b, hset, -, hc, hother⟩ := ((hsteps []).1 a (List.mem_singleton_self a)).2.set "c"
    (by rw [hlisted]; decide) (.int 7)
  refine ⟨a, h, hlisted, by rw [hfresh]; rfl, by rw [hfresh]; rfl, by rw [hfresh]; rfl,
    by rw [hfresh]; rfl, b, hset, hc, ?_⟩
  rw [hother "a" (by decide), hfresh]
  rfl

end ScriptEngine
