import ScriptEngine.Proofs.Bindings.Reads
import ScriptEngine.Proofs.Bindings.Shown
import ScriptEngine.Proofs.Globals.Handles
import ScriptEngine.Proofs.Merge.Artifact
/-!
Bound variables. Each has the cell of its place among the bound names, and every use of it in the
program is an instruction for that cell, but with the number cut to two bytes. A script with more
variables than that compiles nevertheless: only names that the program itself defines are counted.
-/
namespace ScriptEngine

/-- As long as a run has not written a cell, it reads a value there. -/
def Artifact.Lends (a : Artifact) (cell : Nat) (v : Value) : Prop :=
  ∀ (c : Conditions) (m : Machine) (b : Nat),
    Machine.Spares (a.setting c) cell ((a.machine c).start (a.setting c)) m →
    m.next? = some ⟨.getGlobal, cell, b⟩ →
    m.advance (a.setting c) = Advance.of ((m.fetched ⟨.getGlobal, cell, b⟩).pushed v)

/-- The statement assigns one of some variables to another. -/
def Stmt.copies (names : List String) : Stmt → Bool
  | .assign _ none (.name _ x) (.name _ y) => decide (x ∈ names ∧ y ∈ names)
  | _ => false

namespace Bindings

variable {s : Script} {maker : Nat} {a : Artifact} {body : List Stmt} {n : Nat} {x : String}
  {v : Value}

/-- The cell of a bound name is its place. -/
theorem lookup_bound (hnodup : s.bound.Nodup) (h : s.bound[n]? = some x) :
    s.names.globals.lookup x = some n := by
  have hkeys : (s.names.globals.map (·.1)).Nodup := by
    rw [Globals.names_eq, List.map_reverse, List.zipIdx_map_fst]
    exact List.nodup_reverse.mpr hnodup
  have hmem : (x, n) ∈ s.names.globals := by
    rw [Globals.names_eq, List.mem_reverse, List.mem_zipIdx_iff_getElem?]
    exact h
  exact Layout.lookup_of_nodup hkeys hmem

/-- At the start of the main program all names from outside have their cells. -/
theorem leaves_start {R : Body} (hR : R.captured = []) : s.names.Leaves R s.names.globals [] := by
  intro y _
  refine ⟨?_, ?_, rfl⟩
  · rw [Names.IsVariable, Globals.names_eq]
    exact List.not_mem_nil
  · rw [hR]
    exact List.not_mem_nil

theorem shows (hnodup : s.bound.Nodup) (h : (s.compile maker).1 = .ok a)
    (hparse : parse s.file s.source = .ok body) :
    ∀ u ∈ Stmt.allNameUses false [] body, u.name ∉ u.defined →
      ∀ n : Nat, s.bound[n]? = some u.name → a.bytecode.Shows u n := by
  obtain ⟨body', L, R, hlaid⟩ := script_laid h
  obtain rfl : body' = body := Except.ok.inj (hlaid.parsed.symm.trans hparse)
  obtain ⟨m, hcode, -⟩ := hlaid.lays.code
  have hhosts : a.bytecode.Hosts s.names.globals R false s.names [] :=
    ⟨hlaid.main, leaves_start hlaid.lays.captured⟩
  have hanswers := Image.stmtsAt.answers hlaid.pool hhosts body' hcode
  intro u hu hnew n hn
  exact hanswers u hu hnew n (lookup_bound hnodup hn)

/-- Before any run the cell of a bound name holds its value. -/
theorem get?_bound (hnodup : s.bound.Nodup) (h : (s.compile maker).1 = .ok a)
    (hv : s.bindings[n]? = some (x, v)) : (a.globals.get? n).getD .undefined = v := by
  obtain ⟨body, -, -, hlisted, -, hfirst, hget⟩ := Globals.artifact_fresh hnodup h
  have hx : s.bound[n]? = some x := by rw [Script.bound, List.getElem?_map, hv]; rfl
  have hslot : a.slot? x = some n :=
    (Globals.slot_iff hlisted).mpr (List.mem_of_getElem? (hfirst n x hx))
  have hvalue := hget x
  rw [Artifact.get, hslot, Layout.lookup_of_nodup hnodup (List.mem_of_getElem? hv)] at hvalue
  exact hvalue

theorem lends (hnodup : s.bound.Nodup) (h : (s.compile maker).1 = .ok a)
    (hv : s.bindings[n]? = some (x, v)) : a.Lends n v := by
  intro c m b hspares hnext
  have hread := hspares.read hnext
  have hcell : (((a.machine c).start (a.setting c)).globals.get? n).getD .undefined = v :=
    get?_bound hnodup h hv
  rw [hread, hcell]

open Scoping Compile

theorem judges_copies {excused : CompileCause → Prop}
    {load : CompileContext → Pos → String → CompileM Code} {names : List String}
    (h : ∀ t ∈ body, t.copies names) : JudgesStmts excused load body := by
  induction body with
  | nil => exact .nil
  | cons t rest ih =>
    obtain ⟨ht, hrest⟩ := List.forall_mem_cons.mp h
    refine .cons ?_ (ih hrest)
    unfold Stmt.copies at ht
    split at ht
    · exact .assign .name .name
    · cases ht

theorem scoped_copies {Γ : Blocks} {looping : Bool} {names : List String}
    (hΓ : Γ.functions = []) (hnames : ∀ x ∈ names, x ∈ Γ.outside.flatten)
    (h : ∀ t ∈ body, t.copies names) : Stmt.AllScoped body looping Γ := by
  have hassignable {x : String} (hx : x ∈ names) : Γ.Assignable x :=
    Or.inr ⟨by simp [Blocks.around, hΓ], hnames x hx⟩
  induction body with
  | nil => trivial
  | cons t rest ih =>
    obtain ⟨ht, hrest⟩ := List.forall_mem_cons.mp h
    unfold Stmt.copies at ht
    split at ht
    · obtain ⟨hx, hy⟩ := of_decide_eq_true ht
      exact ⟨⟨hassignable hx, (hassignable hy).inView⟩, ih hrest⟩
    · cases ht

/-- Scripts that copy bound variables compile. -/
theorem compiles_copies (hparse : parse s.file s.source = .ok body)
    (hcopies : ∀ t ∈ body, t.copies s.bound) (hlimit : s.maxConstantObjects < 0) :
    ∃ a, (s.compile maker).1 = .ok a := by
  have hsymbols : (s.compileOptions maker).symbols = .host Globals.builtins s.bound :=
    Globals.symbols_eq s
  have hmain : Verdict (fun _ => False) (.host Globals.builtins s.bound) _
      (mainRoutine (s.compileOptions maker) s.file body) _ :=
    mainRoutine_of_stmts (judges_copies hcopies) rfl
  have hverdict := compile_of_verdict hmain (hsymbols ▸ fits_host Globals.builtins s.bound)
  have hscoped : Stmt.AllScoped body false (.host Globals.builtins s.bound) :=
    scoped_copies rfl (fun x hx => by simpa [Blocks.host] using hx) hcopies
  cases hcompile : ScriptEngine.compile (s.compileOptions maker) s.file body with
  | mk result trace =>
    rw [hcompile] at hverdict
    cases result with
    | error e => exact (hverdict hscoped).elim
    | ok c =>
      refine ⟨s.artifact c, ?_⟩
      simp only [Script.compile, hparse, hcompile, limitOf, hlimit, if_true]

end Bindings

/-- Every use of a bound variable that the program does not hide is an instruction for the variable's
place among the bound ones, cut to two bytes; what it reads in the first run, as long as nothing has
been stored there, is the value bound at that place. However many variables are bound, scripts that
copy them compile. -/
theorem bound_variables (s : Script) (maker : Nat) (hnodup : s.bound.Nodup) :
    (∀ a, (s.compile maker).1 = .ok a → ∃ body, parse s.file s.source = .ok body ∧
      (∀ u ∈ Stmt.allNameUses false [] body, u.name ∉ u.defined →
        ∀ n : Nat, s.bound[n]? = some u.name → a.bytecode.Shows u n) ∧
      ∀ (n : Nat) x v, s.bindings[n]? = some (x, v) → a.Lends n v) ∧
    ∀ body, parse s.file s.source = .ok body → (∀ t ∈ body, t.copies s.bound) →
      s.maxConstantObjects < 0 → ∃ a, (s.compile maker).1 = .ok a := by
  refine ⟨fun a h => ?_, fun body hparse hcopies hlimit =>
    Bindings.compiles_copies hparse hcopies hlimit⟩
  obtain ⟨body, c, hparse, -, -⟩ := Script.compile_artifact h
  refine ⟨body, hparse, Bindings.shows hnodup h hparse, fun n x v hv => ?_⟩
  exact Bindings.lends hnodup h hv

/-- Two variables; a function hides one of them behind its parameter. -/
def hidingScript : Script :=
  { Script.ofSource "a = b\nf := func(b) { a = b }".toUTF8 Script.defaultFile
      Script.defaultExtension with
    bindings := [("a", .int 1), ("b", .int 2)] }

theorem bound_variables_hiding :
    (∃ a, (hidingScript.compile 0).1 = .ok a ∧
      a.bytecode.Shows ⟨"b", ⟨4, 1, 5⟩, false, false, []⟩ 1 ∧
      a.bytecode.Shows ⟨"a", ⟨21, 2, 16⟩, true, true, ["b", "f"]⟩ 0 ∧ a.Lends 1 (.int 2)) ∧
    ∃ a, ({ hidingScript with source := "a = b".toUTF8 }.compile 0).1 = .ok a := by
  have hnodup : hidingScript.bound.Nodup := by decide
  have hok : ((hidingScript.compile 0).1.toOption.any fun _ => true) = true := by decide +kernel
  have huses : ((parse hidingScript.file hidingScript.source).toOption.any fun body =>
      decide (⟨"b", ⟨4, 1, 5⟩, false, false, []⟩ ∈ Stmt.allNameUses false [] body ∧
        ⟨"a", ⟨21, 2, 16⟩, true, true, ["b", "f"]⟩ ∈ Stmt.allNameUses false [] body)) = true := by
    decide +kernel
  have hcopies : ((parse hidingScript.file "a = b".toUTF8).toOption.any fun body =>
      body.all (Stmt.copies hidingScript.bound)) = true := by decide +kernel
  constructor
  · obtain ⟨a, h, -⟩ := Compile.eq_ok_of_any hok
    obtain ⟨body, hparse, hshows, hlends⟩ := (bound_variables hidingScript 0 hnodup).1 a h
    rw [hparse] at huses
    obtain ⟨hread, hwrite⟩ := of_decide_eq_true huses
    exact ⟨a, h, hshows _ hread (by decide) 1 rfl, hshows _ hwrite (by decide) 0 rfl,
      hlends 1 "b" _ rfl⟩
  · obtain ⟨body, hparse, hcopies⟩ := Compile.eq_ok_of_any hcopies
    exact (bound_variables { hidingScript with source := "a = b".toUTF8 } 0 hnodup).2 body hparse
      (List.all_eq_true.mp hcopies) (by decide)

end ScriptEngine
