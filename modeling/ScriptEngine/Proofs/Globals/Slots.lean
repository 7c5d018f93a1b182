import ScriptEngine.Proofs.Layout.Program
import ScriptEngine.Proofs.Scoping.Program
/-!
Which names a program leaves behind for its host, and in which slots: the names that are in force at
the start, and those that its own statements define, in the order of their definitions. Names that a
nested block defines take slots as well, but go with their block.
-/
namespace ScriptEngine

/-- The name that a statement defines in the block that it stands in. -/
def Stmt.defined? : Stmt → Option String
  | .define _ x _ => some x
  | _ => none

/-- The names that statements define, nested blocks apart. -/
def Stmt.topNames (body : List Stmt) : List String := body.filterMap Stmt.defined?

namespace Globals

variable {Γ : Names} {body : List Stmt} {s : Stmt}

mutual

/-- Slots are given out in ascending order. -/
theorem cell_le_after : (s : Stmt) → (Γ : Names) → Γ.cell ≤ (s.after Γ).cell
  | .define _ x _, Γ => Names.cell_define Γ x
  | .branch _ cond body none, Γ => cell_le_block body (Γ.skip cond.literals)
  | .branch _ cond body (some orElse), Γ =>
    (cell_le_block body (Γ.skip cond.literals)).trans (cell_le_after orElse _)
  | .loop _ init cond post body, Γ =>
    ((cell_le_part init Γ).trans (cell_le_block body
      ((Stmt.afterPart init Γ).skip (Expr.partLiterals cond)))).trans (cell_le_part post _)
  | .block body, Γ => cell_le_block body Γ
  | .expr _, _ | .assign _ none _ _, _ | .assign _ (some _) _ _, _ | .breakLoop _, _
  | .continueLoop _, _ | .returnValue _ none, _ | .returnValue _ (some _), _
  | .exportValue _ _, _ => Nat.le_refl _

theorem cell_le_part : (part : Option Stmt) → (Γ : Names) → Γ.cell ≤ (Stmt.afterPart part Γ).cell
  | none, _ => Nat.le_refl _
  | some s, Γ => cell_le_after s Γ

theorem cell_le_block : (body : Block) → (Γ : Names) → Γ.cell ≤ (body.after Γ).cell
  | .mk _ body, Γ => cell_le_afterAll body Γ

theorem cell_le_afterAll : (body : List Stmt) → (Γ : Names) → Γ.cell ≤ (Stmt.afterAll body Γ).cell
  | [], _ => Nat.le_refl _
  | s :: rest, Γ => (cell_le_after s Γ).trans (cell_le_afterAll rest _)

end

/-- The slots of the names ascend, and are below the next one. -/
structure Ascends (Γ : Names) : Prop where
  order : (Γ.globals.map (·.2)).Pairwise (· > ·)
  below : ∀ cell ∈ Γ.globals.map (·.2), cell < Γ.cell

theorem Ascends.of_globals {Γ' : Names} (h : Ascends Γ) (hglobals : Γ'.globals = Γ.globals)
    (hcell : Γ.cell ≤ Γ'.cell) : Ascends Γ' :=
  ⟨hglobals ▸ h.order, fun cell hmem => (h.below cell (hglobals ▸ hmem)).trans_le hcell⟩

theorem Ascends.define (h : Ascends Γ) (hΓ : Γ.functions = []) (x : String) :
    Ascends (Γ.define x) := by
  rw [Names.define_outside hΓ]
  refine ⟨List.pairwise_cons.mpr ⟨h.below, h.order⟩, fun cell hmem => ?_⟩
  rcases List.mem_cons.mp hmem with rfl | hmem
  · exact Nat.lt_succ_self _
  · exact Nat.lt_succ_of_lt (h.below cell hmem)

theorem defined_orElse {pos : Pos} {cond : Expr} {body : Block} {orElse : Stmt}
    (h : (Stmt.branch pos cond body (some orElse)).Plain) : orElse.defined? = none := by
  cases orElse with
  | block | branch => rfl
  | expr | define | assign | loop | breakLoop | continueLoop | returnValue | exportValue => cases h

theorem block_after (body : Block) (Γ : Names) :
    (body.after Γ).globals = Γ.globals ∧ (body.after Γ).functions = Γ.functions := by
  cases body
  exact ⟨rfl, rfl⟩

/-- A statement that defines no name in its block leaves the names as they were. -/
theorem globals_after (Γ : Names) : (s : Stmt) → s.Parsed → s.defined? = none →
    (s.after Γ).globals = Γ.globals ∧ (s.after Γ).functions = Γ.functions
  | .branch _ cond body none, _, _ => block_after body (Γ.skip cond.literals)
  | .branch _ cond body (some orElse), h, _ => by
    obtain ⟨hglobals, hfunctions⟩ := block_after body (Γ.skip cond.literals)
    obtain ⟨hglobals', hfunctions'⟩ := globals_after (body.after (Γ.skip cond.literals)) orElse
      h.2.2.2 (defined_orElse h.1)
    exact ⟨hglobals'.trans hglobals, hfunctions'.trans hfunctions⟩
  | .block body, _, _ => block_after body Γ
  | .expr _, _, _ | .assign _ none _ _, _, _ | .assign _ (some _) _ _, _, _ | .loop .., _, _
  | .breakLoop _, _, _ | .continueLoop _, _, _ | .returnValue _ none, _, _
  | .returnValue _ (some _), _, _ | .exportValue _ _, _, _ => ⟨rfl, rfl⟩

theorem leaves_eq (Γ : Blocks) : (s : Stmt) → s.Parsed → s.defined? = none → s.leaves Γ = Γ
  | .branch _ _ _ (some orElse), h, _ => leaves_eq Γ orElse h.2.2.2 (defined_orElse h.1)
  | .branch _ _ _ none, _, _ | .block _, _, _ | .expr _, _, _ | .assign .., _, _ | .loop .., _, _
  | .breakLoop _, _, _ | .continueLoop _, _, _ | .returnValue .., _, _ | .exportValue .., _, _ => rfl

/-- The names behind the statements of a program. -/
theorem globals_afterAll (hbody : Stmt.AllEvery Expr.Distinct Stmt.Plain body)
    (hΓ : Γ.functions = []) (h : Ascends Γ) :
    ((Stmt.afterAll body Γ).globals.map (·.1) =
      (Stmt.topNames body).reverse ++ Γ.globals.map (·.1)) ∧
    Γ.globals <:+ (Stmt.afterAll body Γ).globals ∧ Ascends (Stmt.afterAll body Γ) := by
  induction body generalizing Γ with
  | nil => exact ⟨rfl, List.suffix_refl _, h⟩
  | cons s rest ih =>
    rw [Stmt.afterAll]
    cases hs : s.defined? with
    | some x =>
      obtain ⟨pos, e, rfl⟩ : ∃ pos e, s = .define pos x e := by
        cases s <;> cases hs
        exact ⟨_, _, rfl⟩
      have hdefine : (Γ.define x).globals = (x, Γ.cell) :: Γ.globals := by
        rw [Names.define_outside hΓ]
      have hfunctions : (Γ.define x).functions = [] := by rw [Names.define_outside hΓ, hΓ]
      obtain ⟨hnames, hsuffix, hascends⟩ := ih (Γ := (Γ.define x).skip e.literals) hbody.2 hfunctions
        ((h.define hΓ x).of_globals rfl (Nat.le_refl _))
      rw [Names.skip_globals, hdefine] at hnames hsuffix
      refine ⟨?_, (List.suffix_cons _ _).trans hsuffix, hascends⟩
      change _ = (Stmt.topNames rest |> (x :: ·)).reverse ++ _
      rw [List.reverse_cons, List.append_assoc]
      exact hnames
    | none =>
      obtain ⟨hglobals, hfunctions⟩ := globals_after Γ s hbody.1 hs
      obtain ⟨hnames, hsuffix, hascends⟩ := ih hbody.2 (hfunctions.trans hΓ)
        (h.of_globals hglobals (cell_le_after s Γ))
      rw [hglobals] at hnames hsuffix
      refine ⟨?_, hsuffix, hascends⟩
      rw [hnames, Stmt.topNames, Stmt.topNames, List.filterMap_cons_none hs]

/-- The names of the outermost block behind the statements of a program, each defined once. -/
theorem leaves_outside {names builtins : List String} {looping : Bool}
    (hbody : Stmt.AllEvery Expr.Distinct Stmt.Plain body)
    (hscoped : Stmt.AllScoped body looping ⟨[], [names], builtins⟩) (hnodup : names.Nodup) :
    (Stmt.allLeaves body ⟨[], [names], builtins⟩ =
      ⟨[], [(Stmt.topNames body).reverse ++ names], builtins⟩) ∧
    ((Stmt.topNames body).reverse ++ names).Nodup := by
  induction body generalizing names with
  | nil => exact ⟨rfl, hnodup⟩
  | cons s rest ih =>
    rw [Stmt.AllScoped] at hscoped
    change (Stmt.allLeaves rest (s.leaves _) = _) ∧ _
    cases hs : s.defined? with
    | some x =>
      obtain ⟨pos, e, rfl⟩ : ∃ pos e, s = .define pos x e := by
        cases s <;> cases hs
        exact ⟨_, _, rfl⟩
      have hfresh := hscoped.1
      rw [Stmt.Scoped] at hfresh
      have hnodup' : (x :: names).Nodup := List.nodup_cons.mpr ⟨hfresh.1, hnodup⟩
      have hrest := ih hbody.2 hscoped.2 hnodup'
      have htop : (Stmt.topNames (.define pos x e :: rest)).reverse ++ names =
          (Stmt.topNames rest).reverse ++ x :: names := by
        change (x :: Stmt.topNames rest).reverse ++ names = _
        rw [List.reverse_cons, List.append_assoc, List.singleton_append]
      rw [htop]
      exact hrest
    | none =>
      have htop : Stmt.topNames (s :: rest) = Stmt.topNames rest := by
        rw [Stmt.topNames, Stmt.topNames, List.filterMap_cons_none hs]
      have hleaves := leaves_eq ⟨[], [names], builtins⟩ s hbody.1 hs
      rw [hleaves] at hscoped ⊢
      rw [htop]
      exact ih hbody.2 hscoped.2 hnodup

section Imports

open Compile Scoping

variable {load : CompileContext → Pos → String → CompileM Code} {ctx : CompileContext} {pos : Pos}

theorem keeps_of_yields {α : Type} {m : CompileM α}
    (h : ∀ s a s', Yields m s a s' → s'.symbols = s.symbols) : Keeps (fun _ => True) m := by
  refine ⟨fun s => ?_⟩
  cases hrun : m.run s with
  | ok a s' => exact h s a s' hrun
  | error e s' => trivial

/-- The names of the importing program are in force again behind a module. -/
theorem keeps_moduleRoutine (key directory : String) (body : List Stmt) :
    Keeps (fun _ => True) (moduleRoutine load ctx key directory body) := by
  refine keeps_of_yields fun s r s' h => ?_
  simp only [moduleRoutine, yields_bind, yields_get, yields_set] at h
  obtain ⟨_, _, ⟨rfl, rfl⟩, _, _, rfl, _, _, _, _, _, _, h⟩ := h
  simp only [yields_ite, yields_bind, yields_pure, yields_get, yields_modify, yields_lay] at h
  rcases h with ⟨-, _, _, ⟨rfl, rfl⟩, _, _, ⟨rfl, rfl⟩, _, _, rfl, rfl, rfl⟩ |
    ⟨-, _, _, rfl, _, _, ⟨rfl, rfl⟩, _, _, ⟨rfl, rfl⟩, _, _, rfl, rfl, rfl⟩ <;> rfl

theorem keeps_moduleFunction (key directory : String) (source : ByteArray) :
    Keeps (fun _ => True) (moduleFunction load ctx pos key directory source) := by
  refine .ite (.fail trivial) (keeps_get.bind fun s => ?_)
  cases s.cache.lookup key with
  | some f => exact .pure f
  | none =>
    dsimp only
    cases parse key source with
    | error e => exact .fail trivial
    | ok body =>
      exact (keeps_moduleRoutine key directory body).bind fun r => (keeps_makeFunction r).bind
        fun f => .bind (m := modify fun s => { s with cache := (key, f) :: s.cache })
          (.modify fun _ => rfl) fun _ => .pure f

theorem keeps_emitModuleCall (f : Value) : Keeps (fun _ => True) (emitModuleCall ctx pos f) :=
  (keeps_emitConstant (fun _ _ => trivial) f).bind fun _ => (keeps_emit ..).bind fun _ => .pure _

/-- An import leaves the names in force as they were. -/
theorem keeps_importModule (o : ImportOptions) (depth : Nat) (ctx : CompileContext) (pos : Pos)
    (name : String) : Keeps (fun _ => True) (importModule o depth ctx pos name) := by
  cases depth with
  | zero => exact .fail trivial
  | succ depth =>
    rw [Layout.importModule_succ]
    cases o.registry[name]? with
    | some source =>
      cases source with
      | attrs entries => exact keeps_emitConstant (fun _ _ => trivial) _
      | script text => exact (keeps_moduleFunction ..).bind fun f => keeps_emitModuleCall f
    | none =>
      refine .ite ?_ (.ite (.fail trivial) (.fail trivial))
      cases o.path ctx.importDir name with
      | error cause => exact .fail trivial
      | ok path =>
        refine keeps_get.bind fun s => ?_
        cases s.cache.lookup path with
        | some f => exact keeps_emitModuleCall f
        | none =>
          dsimp only
          cases o.files.read path with
          | error fault => exact .fail trivial
          | ok source => exact (keeps_moduleFunction ..).bind fun f => keeps_emitModuleCall f

end Imports

section Tables

open Compile

variable {o : CompileOptions} {file : String} {c : Compilation} {t : SymbolTable}

/-- The names behind a program that compiles, with their slots. -/
theorem compile_fits (hfits : Layout.Fits Γ o.symbols) (h : (compile o file body).1 = .ok c) :
    Layout.Fits (Stmt.afterAll body Γ) c.symbols := by
  dsimp only [compile] at h
  split at h
  · rename_i main s hrun
    obtain rfl : ⟨⟨file, main, s.pool⟩, s.symbols, s.made⟩ = c := Except.ok.inj h
    have hmain : Yields (mainRoutine o file body) _ main s := hrun
    simp only [mainRoutine, yields_bind, yields_lay, yields_get, yields_pure] at hmain
    obtain ⟨_, t, hnote, code, u, hcode, _, _, rfl, _, _, ⟨rfl, rfl⟩, rfl, rfl⟩ := hmain
    obtain ⟨trace, rfl⟩ := yields_note hnote
    have hstmts : Layout.EmitsStmts o.toImportOptions o.pool.size
        (importModule o.toImportOptions o.maxDepth) body :=
      Layout.emitsStmts (Layout.imports_importModule _ _ _) body
    obtain ⟨_, _, _, hemit⟩ := hstmts _ (Γ := Γ) (a := ⟨_, []⟩)
      ⟨hfits, rfl, by simp [Layout.Place.of]⟩ hcode
    exact hemit.ready.fits
  · cases h

theorem values_eq_map (b : ScopeBlock) : b.values = b.toList.map (·.2) := by
  have hfold : b.values = b.foldr (fun _ σ rest => σ :: rest) [] := rfl
  rw [hfold, Std.TreeMap.foldr_eq_foldr_toList]
  induction b.toList with
  | nil => rfl
  | cons entry rest ih => rw [List.foldr_cons, List.map_cons, ih]

/-- The symbols of the outermost block, by slot. -/
theorem globalSymbols_eq {names : List String} {Δ : Blocks} (hfits : Layout.Fits Γ t)
    (hscoped : Scoping.Fits Δ t) (hΔ : Δ.outside = [names]) (hnodup : (Γ.globals.map (·.1)).Nodup)
    (h : Ascends Γ) : t.globalSymbols = Γ.globals.reverse.map fun g => ⟨g.1, .global, g.2⟩ := by
  have houter : t.outside.outer = [] := by
    have houtside := hscoped.outside
    rw [hΔ] at houtside
    cases houtside with
    | cons _ hrest =>
      cases hrest' : t.outside.outer with
      | nil => rfl
      | cons b bs =>
        rw [hrest'] at hrest
        cases hrest
  have hlookup (x : String) : t.outside.block[x]? = (Γ.globals.lookup x).map (⟨x, .global, ·⟩) := by
    rw [← hfits.outside x]
    unfold ScopeFrame.lookup?
    rw [houter]
    simp only [List.findSome?_cons, List.findSome?_nil]
    cases t.outside.block[x]? <;> rfl
  have hmem (σ : Symbol) : σ ∈ t.outside.block.values ↔
      σ ∈ Γ.globals.reverse.map fun g => (⟨g.1, .global, g.2⟩ : Symbol) := by
    simp only [values_eq_map, List.mem_map, Prod.exists, exists_eq_right,
      Std.TreeMap.mem_toList_iff_getElem?_eq_some, hlookup, List.mem_reverse, Option.map_eq_some_iff]
    constructor
    · rintro ⟨x, i, hi, rfl⟩
      exact ⟨x, i, Layout.mem_of_lookup hi, rfl⟩
    · rintro ⟨x, i, hi, rfl⟩
      exact ⟨x, i, Layout.lookup_of_nodup hnodup hi, rfl⟩
  unfold SymbolTable.globalSymbols
  rw [houter, List.getLastD_nil]
  -- Symbols of the block differ in their slots, so that there is one way to order them.
  have hslots : (Γ.globals.reverse.map (·.2)).Pairwise (· < ·) := by
    rw [List.map_reverse]
    exact List.pairwise_reverse.mpr h.order
  have hinj {g g' : String × Nat} (hg : g ∈ Γ.globals.reverse) (hg' : g' ∈ Γ.globals.reverse)
      (he : g.2 = g'.2) : g = g' :=
    List.inj_on_of_nodup_map (hslots.imp Nat.ne_of_lt) hg hg' he
  have hvalues : t.outside.block.values.Nodup := by
    rw [values_eq_map]
    refine List.Nodup.map_on (fun e he e' he' hsame => ?_)
      (Std.TreeMap.distinct_keys_toList.imp fun hne he => hne (by rw [he]; exact Std.ReflCmp.compare_self))
    have hname {e : String × Symbol} (he : e ∈ t.outside.block.toList) : e.2.name = e.1 := by
      have hi := Std.TreeMap.mem_toList_iff_getElem?_eq_some.mp (show (e.1, e.2) ∈ _ from he)
      rw [hlookup, Option.map_eq_some_iff] at hi
      obtain ⟨i, -, hi⟩ := hi
      rw [← hi]
    exact Prod.ext ((hname he).symm.trans ((congrArg Symbol.name hsame).trans (hname he'))) hsame
  have hperm : (t.outside.block.values.mergeSort fun σ τ => σ.index ≤ τ.index).Perm
      (Γ.globals.reverse.map fun g => (⟨g.1, .global, g.2⟩ : Symbol)) := by
    refine (List.mergeSort_perm _ _).trans ((List.perm_ext_iff_of_nodup hvalues ?_).mpr hmem)
    exact List.Nodup.map_on (fun g hg g' hg' he => hinj hg hg' (congrArg Symbol.index he))
      (List.Nodup.of_map _ (hslots.imp Nat.ne_of_lt))
  let before (σ τ : Symbol) : Prop := σ.index ≤ τ.index
  have hantisymm (σ τ : Symbol) (hσ : σ ∈ t.outside.block.values.mergeSort fun σ τ => σ.index ≤ τ.index)
      (hτ : τ ∈ Γ.globals.reverse.map fun g => (⟨g.1, .global, g.2⟩ : Symbol))
      (hle : before σ τ) (hge : before τ σ) : σ = τ := by
    obtain ⟨g, hg, rfl⟩ := List.mem_map.mp (hperm.mem_iff.mp hσ)
    obtain ⟨g', hg', rfl⟩ := List.mem_map.mp hτ
    rw [hinj hg hg' (Nat.le_antisymm hle hge)]
  refine hperm.eq_of_pairwise hantisymm ?_ ?_
  · refine (List.pairwise_mergeSort (fun σ τ υ => ?_) (fun σ τ => ?_) _).imp of_decide_eq_true
    · simpa using Nat.le_trans
    · simpa using Nat.le_total σ.index τ.index
  · exact List.pairwise_map.mpr ((List.pairwise_map.mp hslots).imp Nat.le_of_lt)

end Tables

end Globals

end ScriptEngine
