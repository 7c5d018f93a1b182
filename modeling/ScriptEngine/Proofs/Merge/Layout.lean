import ScriptEngine.Proofs.Layout.Program
import ScriptEngine.Proofs.Merge.Redirect
/-! A program is still laid out after its equal constants have been merged. -/
namespace ScriptEngine

open Encoding

def Routine.redirect (moved : Array Nat) (r : Routine) : Routine :=
  { r with code := redirectCode moved r.code }

def Body.redirect (moved : Array Nat) (R : Body) : Body :=
  { R with code := R.code.redirect moved }

theorem Body.routine_redirect (moved : Array Nat) (R : Body) :
    (R.redirect moved).routine = R.routine.redirect moved := by
  simp [routine, redirect, Routine.redirect, Code.toRoutine, Code.bytes_redirect,
    Code.sourceMap_redirect]

theorem Body.Has.redirect {R : Body} {pos : Option Pos} {op : Opcode} {a b p q : Nat}
    (h : R.Has pos op a b p q) (moved : Array Nat) (hop : op.loadsConstant = false) :
    (R.redirect moved).Has pos op a b p q := by
  refine ⟨?_, h.2⟩
  simp [Body.redirect, Code.at?_redirect, h.1, Item.redirect, Instruction.redirect, hop]

theorem Body.Has.move {R : Body} {pos : Option Pos} {op : Opcode} {k j b p q : Nat}
    (h : R.Has pos op k b p q) {moved : Array Nat} (hop : op.loadsConstant = true)
    (hk : k < Compile.maxConstants) (hj : moved[k]? = some j) (hle : j ≤ k) :
    (R.redirect moved).Has pos op j b p q := by
  refine ⟨?_, h.2⟩
  have hmod : k % 65536 = k := Nat.mod_eq_of_lt hk
  have hmin : min j 65535 = j := by
    simp only [Compile.maxConstants] at hk
    omega
  simp [Body.redirect, Code.at?_redirect, h.1, Item.redirect, Instruction.redirect, hop, hmod,
    Array.getD_eq_getD_getElem?, hj, hmin]

namespace Image

/-- The program with one constant for each key. -/
def merge (L : Image) : Image :=
  let moved := (Merged.ofPool L.pool).moved
  { L with
    pool := (Merged.ofPool L.pool).kept.map (Value.redirect moved)
    attrs := fun name =>
      match (Value.module name (L.attrs name)).first L.pool.toList with
      | .module _ attrs => attrs
      | _ => []
    modules := fun key => (L.modules key).map (Value.redirect moved)
    routines := fun u n => (L.routines u n).map (Routine.redirect moved) }

/-- Where the constants of the program move to. -/
def moved (L : Image) : Array Nat := (Merged.ofPool L.pool).moved

variable {L : Image} {R : Body} {Γ : Names} {pos : Pos} {p q : Nat}

theorem merge_place {k : Nat} {v : Value} (h : L.pool[k]? = some v) :
    ∃ j, L.moved[k]? = some j ∧ j ≤ k ∧
      L.merge.pool[j]? = some ((Value.first L.pool.toList v).redirect L.moved) := by
  obtain ⟨j, hj, hle, hkept⟩ := (Merged.ofPool_covers L.pool).place k v (by simpa using h)
  exact ⟨j, hj, hle, by simp [merge, hkept, moved]⟩

theorem first_module (name : String) :
    (Value.module name (L.attrs name)).first L.pool.toList = .module name (L.merge.attrs name) := by
  have hkey := Value.of?_first L.pool.toList (.module name (L.attrs name))
  simp only [merge]
  generalize Value.first L.pool.toList (.module name (L.attrs name)) = v at hkey ⊢
  cases v <;> simp_all [ConstantKey.of?]

theorem constantAt.merge {v : Value} (h : L.constantAt R pos v p q) :
    L.merge.constantAt (R.redirect L.moved) pos ((Value.first L.pool.toList v).redirect L.moved)
      p q := by
  obtain ⟨k, hk, hpool, hhas⟩ := h
  obtain ⟨j, hj, hle, hnew⟩ := merge_place hpool
  exact ⟨j, Nat.lt_of_le_of_lt hle hk, hnew, hhas.move rfl hk hj hle⟩

/-- Data other than modules is found as before. -/
theorem constantAt.merge_data {v : Value} (h : L.constantAt R pos v p q)
    (hmodule : ∀ name attrs, v ≠ .module name attrs) (hfunction : ∀ id r, v ≠ .function id r) :
    L.merge.constantAt (R.redirect L.moved) pos v p q := by
  have hmerge := h.merge
  rw [Value.first_eq hmodule] at hmerge
  have hsame : v.redirect L.moved = v := by
    cases v <;> first | rfl | exact absurd rfl (hfunction _ _)
  rwa [hsame] at hmerge

theorem literalAt.merge {l : Literal} (h : L.literalAt R pos l p q) :
    L.merge.literalAt (R.redirect L.moved) pos l p q := by
  cases l with
  | undefined => exact Body.Has.redirect h _ rfl
  | bool b => cases b <;> exact Body.Has.redirect h _ rfl
  | int n => exact constantAt.merge_data h (by simp) (by simp)
  | float x => exact constantAt.merge_data h (by simp) (by simp)
  | char c => exact constantAt.merge_data h (by simp) (by simp)
  | string s => exact constantAt.merge_data h (by simp) (by simp)

theorem loadAt.merge {x : String} (h : L.loadAt R Γ pos x p q) :
    L.merge.loadAt (R.redirect L.moved) Γ pos x p q := by
  obtain ⟨storage, i, hres, hwithin, hhas⟩ := h
  refine ⟨storage, i, hres, ?_, hhas.redirect _ (by cases storage <;> rfl)⟩
  cases storage <;> exact hwithin

theorem loadsAt.merge {names : List String} (h : L.loadsAt R Γ pos names p q) :
    L.merge.loadsAt (R.redirect L.moved) Γ pos names p q := by
  induction names generalizing p with
  | nil => exact h
  | cons x rest ih =>
    obtain ⟨m, hx, hrest⟩ := h
    exact ⟨m, loadAt.merge hx, ih hrest⟩

theorem fillAt.merge {x : String} (h : L.fillAt R Γ pos x p q) :
    L.merge.fillAt (R.redirect L.moved) Γ pos x p q := by
  obtain ⟨i, ⟨hres, hlt, hhas⟩ | ⟨hres, hlt, hhas⟩⟩ := h
  · exact ⟨i, Or.inl ⟨hres, hlt, hhas.redirect _ rfl⟩⟩
  · exact ⟨i, Or.inr ⟨hres, hlt, hhas.redirect _ rfl⟩⟩

theorem functionAt.merge {k j : Nat} {captured : List String}
    (h : L.functionAt R Γ pos k captured p q) (hk : k < Compile.maxConstants)
    (hj : L.moved[k]? = some j) (hle : j ≤ k) :
    L.merge.functionAt (R.redirect L.moved) Γ pos j captured p q := by
  cases captured with
  | nil => exact Body.Has.move h rfl hk hj hle
  | cons x rest =>
    obtain ⟨m, hloads, hhas⟩ := h
    exact ⟨m, loadsAt.merge hloads, hhas.move rfl hk hj hle⟩

/-- What modules yield is made by functions. -/
def CallsModules (L : Image) : Prop := ∀ key f, L.modules key = some f → ∃ id r, f = .function id r

theorem importAt.merge (hL : L.CallsModules) {name : String} (h : L.importAt R pos name p q) :
    L.merge.importAt (R.redirect L.moved) pos name p q := by
  have hcall {key : String} {f : Value} {m : Nat} (hf : L.modules key = some f)
      (hconstant : L.constantAt R pos f p m) (hhas : R.Has (some pos) .call 0 0 m q) :
      ∃ f m, L.merge.modules key = some f ∧
        L.merge.constantAt (R.redirect L.moved) pos f p m ∧
        (R.redirect L.moved).Has (some pos) .call 0 0 m q := by
    obtain ⟨id, r, rfl⟩ := hL key f hf
    have hmerge := hconstant.merge
    rw [Value.first_eq (by simp)] at hmerge
    exact ⟨_, m, by simp [Image.merge, moved, hf], hmerge, hhas.redirect _ rfl⟩
  have hoptions : L.merge.options = L.options := rfl
  unfold importAt at h ⊢
  rw [hoptions]
  cases hname : L.options.registry[name]? with
  | none =>
    simp only [hname] at h ⊢
    obtain ⟨hfile, key, f, m, hpath, hf, hconstant, hhas⟩ := h
    obtain ⟨f', m', hcalled⟩ := hcall hf hconstant hhas
    exact ⟨hfile, key, f', m', hpath, hcalled⟩
  | some source =>
    cases source with
    | attrs entries =>
      simp only [hname] at h ⊢
      have hmerge := h.merge
      rwa [first_module] at hmerge
    | script text =>
      simp only [hname] at h ⊢
      obtain ⟨f, m, hf, hconstant, hhas⟩ := h
      exact hcall hf hconstant hhas

mutual

theorem exprAt.merge (hL : L.CallsModules) {R : Body} {Γ : Names} {p q : Nat} : (e : Expr) →
    L.exprAt R Γ e p q → L.merge.exprAt (R.redirect L.moved) Γ e p q
  | .lit pos l, h => literalAt.merge h
  | .name pos x, h => loadAt.merge h
  | .array pos items, ⟨hlen, m, hitems, hhas⟩ =>
    ⟨hlen, m, exprsAt.merge hL items hitems, hhas.redirect _ rfl⟩
  | .map pos entries, ⟨hlen, m, hentries, hhas⟩ =>
    ⟨hlen, m, entriesAt.merge hL entries hentries, hhas.redirect _ rfl⟩
  | .unary pos op e, ⟨m, he, hhas⟩ =>
    ⟨m, exprAt.merge hL e he, hhas.redirect _ (by cases op <;> rfl)⟩
  | .binary pos op left right, h => by
    unfold exprAt at h ⊢
    split at h
    · rename_i hop
      obtain ⟨hq, m, n, hl, hhas, hr⟩ := h
      rw [if_pos hop]
      exact ⟨hq, m, n, exprAt.merge hL left hl, hhas.redirect _ (by cases op <;> rfl),
        exprAt.merge hL right hr⟩
    · rename_i hop
      obtain ⟨m, n, hl, hr, hhas⟩ := h
      rw [if_neg hop]
      exact ⟨m, n, exprAt.merge hL left hl, exprAt.merge hL right hr,
        hhas.redirect _ (by cases op <;> rfl)⟩
  | .call pos callee args, ⟨hlen, m, n, hc, ha, hhas⟩ =>
    ⟨hlen, m, n, exprAt.merge hL callee hc, exprsAt.merge hL args ha, hhas.redirect _ rfl⟩
  | .index pos container index, ⟨m, n, hc, hi, hhas⟩ =>
    ⟨m, n, exprAt.merge hL container hc, exprAt.merge hL index hi, hhas.redirect _ rfl⟩
  | .field pos container name, ⟨m, n, hc, hkey, hhas⟩ =>
    ⟨m, n, exprAt.merge hL container hc, hkey.merge_data (by simp) (by simp), hhas.redirect _ rfl⟩
  | .func pos params body,
      ⟨k, R', hk, hpool, hroutine, hunit, hparams, hsmall, hcaptured, hbody, hload⟩ => by
    obtain ⟨j, hj, hle, hnew⟩ := merge_place hpool
    rw [Value.first_eq (by simp)] at hnew
    refine ⟨j, R'.redirect L.moved, Nat.lt_of_le_of_lt hle hk, ?_, ?_, hunit, hparams,
      ⟨hsmall.locals, hsmall.params, hsmall.captured, hsmall.arguments⟩, hcaptured,
      bodyAt.merge hL body hbody, functionAt.merge hload hk hj hle⟩
    · rw [Body.routine_redirect]
      exact hnew
    · rw [Body.routine_redirect]
      exact congrArg (Option.map (Routine.redirect L.moved)) hroutine
  | .load pos name, h => importAt.merge hL h

theorem exprsAt.merge (hL : L.CallsModules) {R : Body} {Γ : Names} {p q : Nat} :
    (items : List Expr) →
    L.exprsAt R Γ items p q → L.merge.exprsAt (R.redirect L.moved) Γ items p q
  | [], h => h
  | e :: rest, ⟨m, he, hrest⟩ => ⟨m, exprAt.merge hL e he, exprsAt.merge hL rest hrest⟩

theorem entriesAt.merge (hL : L.CallsModules) {R : Body} {Γ : Names} {pos : Pos} {p q : Nat} :
    (entries : List (String × Expr)) → L.entriesAt R Γ pos entries p q →
      L.merge.entriesAt (R.redirect L.moved) Γ pos entries p q
  | [], h => h
  | (key, e) :: rest, ⟨m, n, hkey, he, hrest⟩ =>
    ⟨m, n, hkey.merge_data (by simp) (by simp), exprAt.merge hL e he, entriesAt.merge hL rest hrest⟩

theorem bodyAt.merge (hL : L.CallsModules) {R : Body} {Γ : Names} {pos : Pos} : (body : Block) →
    L.bodyAt R Γ pos body → L.merge.bodyAt (R.redirect L.moved) Γ pos body
  | .mk _ stmts, ⟨m, hstmts, hend⟩ => by
    have hsize : (R.redirect L.moved).code.size = R.code.size := R.code.size_redirect
    refine ⟨m, stmtsAt.merge hL stmts hstmts, ?_⟩
    rw [hsize]
    split at hend
    · rename_i hlast
      rw [if_pos hlast]
      exact hend
    · rename_i hlast
      rw [if_neg hlast]
      exact hend.redirect _ rfl

theorem storeAt.merge (hL : L.CallsModules) {R : Body} {pos : Pos}
    {V V' : Names → (p q : Nat) → Prop} {Γ : Names} {p q : Nat}
    (hV : ∀ Γ p q, V Γ p q → V' Γ p q) : (place : Expr) → L.storeAt R pos V Γ place p q →
    L.merge.storeAt (R.redirect L.moved) pos V' Γ place p q
  | .name _ x, ⟨m, hv, hfill⟩ => ⟨m, hV _ _ _ hv, fillAt.merge hfill⟩
  | .index _ container index, h =>
    storeAt.merge hL (fun _ _ _ ⟨m, n, k, hc, hi, hv, hhas⟩ =>
      ⟨m, n, k, exprAt.merge hL container hc, exprAt.merge hL index hi, hV _ _ _ hv,
        hhas.redirect _ rfl⟩) container h
  | .field place container name, h =>
    storeAt.merge hL (fun _ _ _ ⟨m, n, k, hc, hkey, hv, hhas⟩ =>
      ⟨m, n, k, exprAt.merge hL container hc, hkey.merge_data (by simp) (by simp), hV _ _ _ hv,
        hhas.redirect _ rfl⟩) container h
  | .lit .., h | .array .., h | .map .., h | .unary .., h | .binary .., h | .call .., h
  | .func .., h | .load .., h => h.elim

theorem stmtAt.merge (hL : L.CallsModules) {R : Body} {J : Option (Nat × Nat)} {Γ : Names}
    {p q : Nat} : (s : Stmt) → L.stmtAt R J Γ s p q →
    L.merge.stmtAt (R.redirect L.moved) J Γ s p q
  | .expr e, ⟨m, he, hhas⟩ => ⟨m, exprAt.merge hL e he, hhas.redirect _ rfl⟩
  | .define pos x e, h => by
    unfold stmtAt at h ⊢
    split at h
    · rename_i hfunc
      obtain ⟨m, n, hempty, he, hfill⟩ := h
      rw [if_pos hfunc]
      refine ⟨m, n, ?_, exprAt.merge hL e he, fillAt.merge hfill⟩
      cases hf : Γ.functions with
      | nil => simpa [hf] using hempty
      | cons vars around =>
        simp only [hf] at hempty ⊢
        obtain ⟨k, hhas, hfill⟩ := hempty
        exact ⟨k, hhas.redirect _ rfl, fillAt.merge hfill⟩
    · rename_i hfunc
      obtain ⟨m, he, hfill⟩ := h
      rw [if_neg hfunc]
      exact ⟨m, exprAt.merge hL e he, fillAt.merge hfill⟩
  | .assign pos none place e, h => storeAt.merge hL (fun _ _ _ h => exprAt.merge hL e h) place h
  | .assign pos (some op) place e, h =>
    storeAt.merge hL (fun _ _ _ ⟨m, n, hp, he, hhas⟩ =>
      ⟨m, n, exprAt.merge hL place hp, exprAt.merge hL e he, hhas.redirect _ rfl⟩) place h
  | .branch pos cond body none, ⟨hq, m, n, hc, hhas, hb⟩ =>
    ⟨hq, m, n, exprAt.merge hL cond hc, hhas.redirect _ rfl, blockAt.merge hL body hb⟩
  | .branch pos cond body (some orElse), ⟨hq, m, n, k, l, hc, hhas, hb, hhas', ho⟩ =>
    ⟨hq, m, n, k, l, exprAt.merge hL cond hc, hhas.redirect _ rfl, blockAt.merge hL body hb,
      hhas'.redirect _ rfl, stmtAt.merge hL orElse ho⟩
  | .loop pos init cond post body, ⟨hq, m, n, k, l, hi, hc, hb, hp, hhas⟩ =>
    ⟨hq, m, n, k, l, partAt.merge hL init hi, testAt.merge hL cond hc, blockAt.merge hL body hb,
      partAt.merge hL post hp, hhas.redirect _ rfl⟩
  | .breakLoop pos, ⟨loopEnd, lastPart, hJ, hhas⟩ => ⟨loopEnd, lastPart, hJ, hhas.redirect _ rfl⟩
  | .continueLoop pos, ⟨loopEnd, lastPart, hJ, hhas⟩ =>
    ⟨loopEnd, lastPart, hJ, hhas.redirect _ rfl⟩
  | .returnValue pos none, ⟨hΓ, hhas⟩ => ⟨hΓ, hhas.redirect _ rfl⟩
  | .returnValue pos (some e), ⟨hΓ, m, he, hhas⟩ =>
    ⟨hΓ, m, exprAt.merge hL e he, hhas.redirect _ rfl⟩
  | .exportValue pos e, ⟨hΓ, m, he, hhas⟩ => ⟨hΓ, m, exprAt.merge hL e he, hhas.redirect _ rfl⟩
  | .block body, h => blockAt.merge hL body h

theorem partAt.merge (hL : L.CallsModules) {R : Body} {J : Option (Nat × Nat)} {Γ : Names}
    {p q : Nat} : (part : Option Stmt) → L.partAt R J Γ part p q →
    L.merge.partAt (R.redirect L.moved) J Γ part p q
  | none, h => h
  | some s, h => stmtAt.merge hL s h

theorem testAt.merge (hL : L.CallsModules) {R : Body} {Γ : Names} {pos : Pos} {loopEnd p q : Nat} :
    (cond : Option Expr) → L.testAt R Γ pos loopEnd cond p q →
    L.merge.testAt (R.redirect L.moved) Γ pos loopEnd cond p q
  | none, h => h
  | some e, ⟨m, he, hhas⟩ => ⟨m, exprAt.merge hL e he, hhas.redirect _ rfl⟩

theorem blockAt.merge (hL : L.CallsModules) {R : Body} {J : Option (Nat × Nat)} {Γ : Names}
    {p q : Nat} : (body : Block) → L.blockAt R J Γ body p q →
    L.merge.blockAt (R.redirect L.moved) J Γ body p q
  | .mk _ stmts, h => stmtsAt.merge hL stmts h

theorem stmtsAt.merge (hL : L.CallsModules) {R : Body} {J : Option (Nat × Nat)} {Γ : Names}
    {p q : Nat} : (stmts : List Stmt) → L.stmtsAt R J Γ stmts p q →
    L.merge.stmtsAt (R.redirect L.moved) J Γ stmts p q
  | [], h => h
  | s :: rest, ⟨m, hs, hrest⟩ => ⟨m, stmtAt.merge hL s hs, stmtsAt.merge hL rest hrest⟩

end

variable (hL : L.CallsModules)
include hL

theorem moduleBodyAt.merge {R : Body} {body : List Stmt} (h : L.moduleBodyAt R body) :
    L.merge.moduleBodyAt (R.redirect L.moved) body := by
  obtain ⟨m, hstmts, hend⟩ := h
  have hsize : (R.redirect L.moved).code.size = R.code.size := R.code.size_redirect
  refine ⟨m, stmtsAt.merge hL body hstmts, ?_⟩
  rw [hsize]
  split at hend
  · rename_i hlast
    rw [if_pos hlast]
    exact hend
  · rename_i hlast
    rw [if_neg hlast]
    exact hend.redirect _ rfl

theorem Lays.merge {R : Body} {Γ : Names} {body : List Stmt} (h : L.Lays R Γ body) :
    L.merge.Lays (R.redirect L.moved) Γ body := by
  obtain ⟨hlocals, hcaptured, hunit, m, hstmts, hend⟩ := h
  have hsize : (R.redirect L.moved).code.size = R.code.size := R.code.size_redirect
  refine ⟨hlocals, hcaptured, hunit, m, stmtsAt.merge hL body hstmts, ?_⟩
  rw [hsize]
  exact hend.redirect _ rfl

theorem Shaped.merge {r : Routine} (h : L.Shaped r) : L.merge.Shaped (r.redirect L.moved) := by
  obtain ⟨R, rfl, hsmall, hbody⟩ := h
  refine ⟨R.redirect L.moved, R.routine_redirect _ |>.symm ▸ rfl,
    ⟨hsmall.locals, hsmall.params, hsmall.captured, hsmall.arguments⟩, ?_⟩
  rcases hbody with ⟨Γ, pos, body, hbody⟩ | ⟨body, hbody⟩
  · exact Or.inl ⟨Γ, pos, body, bodyAt.merge hL body hbody⟩
  · exact Or.inr ⟨body, moduleBodyAt.merge hL hbody⟩

theorem ModuleAt.merge {key : String} {f : Value} (h : L.ModuleAt key f) :
    L.merge.ModuleAt key (f.redirect L.moved) := by
  obtain ⟨hsource, hdirectory, body, R, hparse, rfl, hroutine, hunit, hparams, hcaptured, hsmall,
    hbody⟩ := h
  refine ⟨hsource, hdirectory, body, R.redirect L.moved, hparse, ?_, ?_, hunit, hparams, hcaptured,
    ⟨hsmall.locals, hsmall.params, hsmall.captured, hsmall.arguments⟩,
    moduleBodyAt.merge hL hbody⟩
  · rw [Body.routine_redirect]
    rfl
  · rw [Body.routine_redirect]
    exact congrArg (Option.map (Routine.redirect L.moved)) hroutine

/-- A program that is laid out throughout stays so. -/
theorem Complete.merge {foreign : List Value} (h : L.Complete foreign) :
    L.merge.Complete (foreign.map (Value.redirect L.moved)) where
  modules key f hf := by
    obtain ⟨g, hg, rfl⟩ := Option.map_eq_some_iff.mp hf
    exact ModuleAt.merge hL (h.modules key g hg)
  constants v hv := by
    obtain ⟨v, hkept, rfl⟩ := Array.mem_map.mp hv
    obtain ⟨hmem, hfirst⟩ := (Merged.ofPool_covers L.pool).source v hkept
    rcases h.constants v (by simpa using hmem) with hv | hv
    · exact Or.inl (List.mem_map_of_mem hv)
    · refine Or.inr ?_
      cases v with
      | module name attrs =>
        obtain rfl : attrs = L.attrs name := hv
        have := (first_module (L := L) name).symm.trans hfirst
        simpa [Constant, Value.redirect, eq_comm] using this
      | function id r => exact Shaped.merge hL hv
      | _ => exact hv
  distinct u n u' n' hu hu' hids :=
    h.distinct u n u' n' (by simpa [Image.merge] using hu) (by simpa [Image.merge] using hu') hids

end Image

end ScriptEngine
