import ScriptEngine.Bytecode.Basic
import ScriptEngine.Proofs.Bindings.Sites
import ScriptEngine.Proofs.Positions.Map
/-!
Every use of a name that the program does not define itself is an instruction of the code, whose
operand shows the cell of that name, cut to two bytes.
-/
namespace ScriptEngine

open Encoding

/-- The routines that code outside of function literals, or inside of them, lies in. -/
def Bytecode.Holds (b : Bytecode) (inFunction : Bool) (r : Routine) : Prop :=
  if inFunction then ∃ id, .function id r ∈ b.pool else r = b.main

/-- An instruction at the position of a use reads or writes a cell. What its bytes show is the
number of the cell if two bytes hold it. -/
def Bytecode.Shows (b : Bytecode) (u : NameUse) (cell : Nat) : Prop :=
  ∃ r, b.Holds u.inFunction r ∧ ∃ p i, ⟨p, some i⟩ ∈ slots r.code ∧ r.posAt p = some u.pos ∧
    i.op = (if u.write then .setGlobal else .getGlobal) ∧ i.a = cell % 65536

/-- The uses of names from outside the program are shown with the names' cells. -/
def Bytecode.Answers (b : Bytecode) (cells : List (String × Nat)) (us : List NameUse) : Prop :=
  ∀ u ∈ us, u.name ∉ u.defined → ∀ cell, cells.lookup u.name = some cell → b.Shows u cell

/-- Names that are not defined here are no variables, and their cells are the given ones. -/
def Names.Leaves (Γ : Names) (R : Body) (cells : List (String × Nat)) (defined : List String) : Prop :=
  ∀ x, x ∉ defined → ¬ Γ.IsVariable x ∧ x ∉ R.captured ∧ Γ.globals.lookup x = cells.lookup x

variable {Γ Δ : Names} {R R' : Body} {cells : List (String × Nat)} {defined params : List String}
  {b : Bytecode} {L : Image} {inFunction : Bool} {pos : Pos} {p q : Nat} {x : String}

namespace Names.Leaves

theorem define (h : Γ.Leaves R cells defined) (x : String) :
    (Γ.define x).Leaves R cells (x :: defined) := by
  intro y hy
  obtain ⟨hne, hnew⟩ := not_or.mp (mt List.mem_cons.mpr hy)
  obtain ⟨hvariable, hcaptured, hcell⟩ := h y hnew
  unfold IsVariable at hvariable ⊢
  cases hf : Γ.functions with
  | nil =>
    rw [define_outside hf]
    refine ⟨hvariable, hcaptured, ?_⟩
    rw [List.lookup_cons, beq_false_of_ne hne]
    exact hcell
  | cons vars around =>
    rw [define_inside hf]
    rw [hf] at hvariable
    refine ⟨?_, hcaptured, hcell⟩
    rw [List.flatten_cons, List.cons_append, List.mem_cons, not_or]
    exact ⟨hne, hvariable⟩

/-- A function captures variables alone. -/
theorem function {body : Block} (h : Γ.Leaves R cells defined)
    (hcaptures : ∀ x, x ∈ R'.captured ↔ Γ.Captures params body x) :
    (Γ.function params).Leaves R' cells (params ++ defined) := by
  intro y hy
  obtain ⟨hparam, hnew⟩ := not_or.mp (mt List.mem_append.mpr hy)
  obtain ⟨hvariable, -, hcell⟩ := h y hnew
  refine ⟨?_, fun hcaptured => hvariable ((hcaptures y).mp hcaptured).1, hcell⟩
  unfold IsVariable at hvariable ⊢
  rw [Names.function, List.flatten_cons, List.mem_append, List.mem_reverse, not_or]
  exact ⟨hparam, hvariable⟩

theorem skip (h : Γ.Leaves R cells defined) (n : Nat) : (Γ.skip n).Leaves R cells defined := h

/-- Such a name means its cell. -/
theorem resolve {cell : Nat} (h : Γ.Leaves R cells defined) (hx : x ∉ defined)
    (hcell : cells.lookup x = some cell) : Γ.resolve R.captured x = some (.global, cell) := by
  obtain ⟨hvariable, hcaptured, hsame⟩ := h x hx
  rw [resolve_outer hvariable hcaptured, outer, hsame, hcell]

end Names.Leaves

/-- Code that lies in the bytecode, in the names of which those that the program has not defined
have the given cells. -/
structure Bytecode.Hosts (b : Bytecode) (cells : List (String × Nat)) (R : Body) (inFunction : Bool)
    (Γ : Names) (defined : List String) : Prop where
  holds : b.Holds inFunction R.routine
  leaves : Γ.Leaves R cells defined

namespace Bytecode.Hosts

variable (h : b.Hosts cells R inFunction Γ defined)
include h

theorem skip (n : Nat) : b.Hosts cells R inFunction (Γ.skip n) defined := ⟨h.holds, h.leaves.skip n⟩

theorem define (x : String) : b.Hosts cells R inFunction (Γ.define x) (x :: defined) :=
  ⟨h.holds, h.leaves.define x⟩

theorem function {body : Block} {id : FunctionId} (hpool : .function id R'.routine ∈ b.pool)
    (hcaptures : ∀ x, x ∈ R'.captured ↔ Γ.Captures params body x) :
    b.Hosts cells R' true (Γ.function params) (params ++ defined) :=
  ⟨⟨id, hpool⟩, h.leaves.function hcaptures⟩

/-- An instruction that reads or writes a cell shows the use it is laid out for. -/
theorem shows {write : Bool} {op : Opcode} {cell : Nat} {used : List String}
    (hhas : R.Has (some pos) op cell 0 p q) (hop : op = if write then .setGlobal else .getGlobal) :
    b.Shows ⟨x, pos, write, inFunction, used⟩ cell := by
  refine ⟨R.routine, h.holds, p, (Instruction.mk op cell 0).narrow,
    Code.mem_slots_bytes.mpr ⟨_, hhas.1, rfl⟩, Code.posAt_toRoutine hhas.1 rfl, hop, ?_⟩
  subst hop
  cases write <;> rfl

end Bytecode.Hosts

namespace Image

open Bytecode

/-- What the bytecode hosts it hosts throughout the text. -/
theorem hosts_context (hpool : L.pool = b.pool) :
    L.Context fun R inFunction Γ defined => b.Hosts cells R inFunction Γ defined where
  skip h := h.skip
  define h := h.define
  leave h _ := ⟨h.holds, h.leaves⟩
  function h hliteral := by
    obtain ⟨k, -, hk, -⟩ := hliteral.code
    exact h.function (Array.mem_of_getElem? (hpool ▸ hk)) hliteral.captures

/-- The uses of names in statements are shown in their code. -/
theorem stmtsAt.answers (hpool : L.pool = b.pool) {J : Option (Nat × Nat)}
    (h : b.Hosts cells R inFunction Γ defined) (body : List Stmt) (hat : L.stmtsAt R J Γ body p q) :
    b.Answers cells (Stmt.allNameUses inFunction defined body) := by
  intro u hu hnew cell hcell
  obtain ⟨R, Γ, p, q, hhosts, hsite⟩ := stmtsAt.sites (hosts_context hpool) h body hat u hu
  have hglobal := hhosts.leaves.resolve hnew hcell
  obtain ⟨x, pos, write, inFunction, defined⟩ := u
  cases write with
  | false =>
    obtain ⟨storage, i, hresolve, -, hhas⟩ : L.loadAt R Γ pos x p q := hsite
    rw [hglobal] at hresolve
    cases hresolve
    exact hhosts.shows hhas rfl
  | true =>
    obtain ⟨i, ⟨hresolve, -, -⟩ | ⟨hresolve, -, hhas⟩⟩ : L.fillAt R Γ pos x p q := hsite
    · rw [hglobal] at hresolve
      cases hresolve
    · rw [hglobal] at hresolve
      cases hresolve
      exact hhosts.shows hhas rfl

end Image

end ScriptEngine
