import ScriptEngine.Proofs.Bindings.Sites
import ScriptEngine.Proofs.Quiet.Expressions
/-!
What the code of functions reads for a name from outside of them. A function captures the values that
names have when it is made, and hands them on to the functions that it makes.
-/
namespace ScriptEngine

/-- The name is not captured, or only with the value undefined. -/
def Body.Lacks (R : Body) (y : String) (free : List Value) : Prop :=
  ∀ j : Nat, R.captured[j]? = some y → free[j]? = some .undefined

/-- The value is a function with that body, which has captured those values. -/
def Body.IsBodyOf (R : Body) (f : Value) (free : List Value) : Prop :=
  (∃ id, f = .function id R.routine ∧ R.captured = [] ∧ free = []) ∨
    ∃ id, f = .closure id R.routine free

/-- If a function lacks a name from outside, it finds undefined for it. -/
theorem Body.Lacks.value {R : Body} {Γ : Names} {m : Machine} {y : String} {v : Value}
    (h : R.Lacks y m.frame.free) (hy : y ∉ Γ.vars) (hvariable : Γ.IsVariable y)
    (hv : R.value? Γ m y = some v) : v = .undefined := by
  obtain ⟨place, hresolve, hread⟩ := Option.bind_eq_some_iff.mp hv
  obtain ⟨j, rfl, hj⟩ := Names.resolve_around hy hvariable hresolve
  exact Option.some.inj (hread.symm.trans (h j hj))

namespace Image

/-- A body is the given one or that of a function literal in it, at any depth, and a name from
outside is hidden nowhere on the way. -/
inductive Nests (L : Image) (y : String) (R₀ : Body) : Body → Prop where
  | self : Nests L y R₀ R₀
  | literal {R R' : Body} {Γ : Names} {pos : Pos} {params : List String} {body : Block} {p q : Nat}
    (h : Nests L y R₀ R) (hliteral : L.FunctionLiteral R Γ pos params body R' p q)
    (hy : y ∉ Γ.vars) : Nests L y R₀ R'

/-- A function with its captured values is the given one, or has been made in a frame of such a
function by a literal that a name from outside is not hidden from. -/
inductive Heir (L : Image) (y : String) (R₀ : Body) (free₀ : List Value) :
    Body → List Value → Prop where
  | self : Heir L y R₀ free₀ R₀ free₀
  | literal {R R' : Body} {free : List Value} {Γ : Names} {pos : Pos} {params : List String}
    {body : Block} {p q : Nat} {m : Machine} (h : Heir L y R₀ free₀ R m.frame.free)
    (hliteral : L.FunctionLiteral R Γ pos params body R' p q) (hy : y ∉ Γ.vars)
    (hvalues : List.Forall₂ (fun z v => R.value? Γ m z = some v) R'.captured free) :
    Heir L y R₀ free₀ R' free

/-- A place in a function, with the names in force there: a name from outside of the function means
what it does around the function. -/
structure Inside (L : Image) (y : String) (R₀ : Body) (Γ₀ : Names) (R : Body) (Γ : Names) :
    Prop where
  nests : L.Nests y R₀ R
  functions : ∃ vars inner, Γ.functions = (vars :: inner) ++ Γ₀.functions ∧
    y ∉ (vars :: inner).flatten
  cell : Γ.globals.lookup y = Γ₀.globals.lookup y
  captured : y ∈ R.captured → Γ₀.IsVariable y

variable {L : Image} {R R₀ R' : Body} {Γ Γ₀ : Names} {x : Setting} {m : Machine} {y : String}
  {pos : Pos} {params : List String} {body : Block} {p q : Nat} {free free₀ : List Value}

theorem FunctionLiteral.defines (h : L.FunctionLiteral R Γ pos params body R' p q) : L.Defines R' :=
  ⟨h.small, .inl ⟨_, _, _, h.body⟩⟩

theorem Nests.defines (h : L.Nests y R₀ R) (h₀ : L.Defines R₀) : L.Defines R := by
  cases h with
  | self => exact h₀
  | literal _ hliteral _ => exact hliteral.defines

section Operands

variable (hR : Narrow R)
include hR

/-- The places of variables fit one byte. -/
theorem loadAt.tiled (hat : L.loadAt R Γ pos y p q) (hy : Γ.IsVariable y) :
    R.Tiled (fun _ i => i.Fits) p q := by
  obtain ⟨storage, i, hresolve, hwithin, hhas⟩ := hat
  cases storage with
  | global => exact absurd hy (Layout.outer_of_resolve hresolve (.inl rfl)).1
  | builtin => exact absurd hy (Layout.outer_of_resolve hresolve (.inr rfl)).1
  | frame => exact hhas.tiled ⟨Nat.lt_of_lt_of_le hwithin hR.locals, Nat.one_pos⟩
  | free =>
    exact hhas.tiled ⟨Nat.lt_of_lt_of_le hwithin (Nat.le_succ_of_le hR.captured), Nat.one_pos⟩

theorem fillAt.tiled (hat : L.fillAt R Γ pos y p q) (hy : Γ.IsVariable y) :
    R.Tiled (fun _ i => i.Fits) p q := by
  obtain ⟨i, ⟨-, hlt, hhas⟩ | ⟨hresolve, -, -⟩⟩ := hat
  · exact hhas.tiled ⟨Nat.lt_of_lt_of_le hlt hR.locals, Nat.one_pos⟩
  · exact absurd hy (Layout.outer_of_resolve hresolve (.inl rfl)).1

theorem loadsAt.tiled {names : List String} (hat : L.loadsAt R Γ pos names p q)
    (hnames : ∀ z ∈ names, Γ.IsVariable z) : R.Tiled (fun _ i => i.Fits) p q := by
  induction names generalizing p with
  | nil =>
    obtain rfl : p = q := hat
    exact .nil p
  | cons z rest ih =>
    obtain ⟨k, hz, hrest⟩ := hat
    obtain ⟨hfirst, hothers⟩ := List.forall_mem_cons.mp hnames
    exact (loadAt.tiled hR hz hfirst).append (ih hrest hothers)

/-- A function captures variables alone. -/
theorem FunctionLiteral.tiled (h : L.FunctionLiteral R Γ pos params body R' p q) :
    R.Tiled (fun _ i => i.Fits) p q := by
  obtain ⟨k, hk, -, hat⟩ := h.code
  unfold functionAt at hat
  split at hat
  · exact hat.tiled ⟨hk, Nat.one_pos⟩
  · obtain ⟨l, hloads, hclose⟩ := hat
    exact (loadsAt.tiled hR hloads fun z hz => ((h.captures z).mp hz).1).append
      (hclose.tiled ⟨hk, Nat.lt_succ_of_le h.small.captured⟩)

end Operands

/-- What has been captured for a name is what the name had there. -/
theorem captured_value {names : List String} {j : Nat}
    (hvalues : List.Forall₂ (fun z v => R.value? Γ m z = some v) names free)
    (hj : names[j]? = some y) : ∃ v, free[j]? = some v ∧ R.value? Γ m y = some v := by
  obtain ⟨hlt, rfl⟩ := List.getElem?_eq_some_iff.mp hj
  have hlt' : j < free.length := hvalues.length_eq ▸ hlt
  exact ⟨free[j], List.getElem?_eq_getElem hlt', hvalues.get hlt hlt'⟩

/-- What a function lacks its heirs lack. -/
theorem Heir.lacks (h₀ : R₀.Lacks y free₀) (h : L.Heir y R₀ free₀ R free) : R.Lacks y free := by
  induction h with
  | self => exact h₀
  | @literal R R' free Γ pos params body p q m _ hliteral hy hvalues ih =>
    intro j hj
    obtain ⟨hvariable, -, -⟩ := (hliteral.captures y).mp (List.mem_of_getElem? hj)
    obtain ⟨v, hfree, hv⟩ := captured_value hvalues hj
    rw [hfree, ih.value hy hvariable hv]

/-- The code of a literal leaves a function that has captured what the names have there. -/
theorem FunctionLiteral.makes (hR : L.Frames R x m)
    (h : L.FunctionLiteral R Γ pos params body R' p q) :
    ∃ make free, m.Makes x p q make ∧
      List.Forall₂ (fun z v => R.value? Γ m z = some v) R'.captured free ∧
      ∀ made, ∃ f made', make made = .ok (f, made') ∧ R'.IsBodyOf f free := by
  have hfits : R.Fits p q := (h.tiled hR.narrow).fits
  obtain ⟨k, hk, hpool, hat⟩ := h.code
  obtain ⟨hnone, hmake⟩ | ⟨free, hvalues, hmake⟩ :=
    functionAt.makes hR hk h.small.captured hpool hat hfits
  · exact ⟨_, [], hmake, hnone ▸ .nil, fun made => ⟨_, _, rfl, .inl ⟨_, rfl, hnone, rfl⟩⟩⟩
  · exact ⟨_, free, hmake, hvalues, fun made => ⟨_, _, rfl, .inr ⟨_, rfl⟩⟩⟩

/-- What a literal makes in the frame of an heir is an heir. -/
theorem Heir.makes (hR : L.Frames R x m) (h : L.Heir y R₀ free₀ R m.frame.free)
    (hliteral : L.FunctionLiteral R Γ pos params body R' p q) (hy : y ∉ Γ.vars) :
    ∃ make free, m.Makes x p q make ∧ L.Heir y R₀ free₀ R' free ∧
      ∀ made, ∃ f made', make made = .ok (f, made') ∧ R'.IsBodyOf f free := by
  obtain ⟨make, free, hmake, hvalues, hmade⟩ := hliteral.makes hR
  exact ⟨make, free, hmake, h.literal hliteral hy hvalues, hmade⟩

namespace Inside

variable (h : L.Inside y R₀ Γ₀ R Γ)
include h

theorem not_own : y ∉ Γ.vars := by
  obtain ⟨vars, inner, hfunctions, hy⟩ := h.functions
  rw [Names.vars, hfunctions]
  exact fun hmem => hy (List.mem_append_left _ hmem)

theorem isVariable_iff : Γ.IsVariable y ↔ Γ₀.IsVariable y := by
  obtain ⟨vars, inner, hfunctions, hy⟩ := h.functions
  unfold Names.IsVariable
  rw [hfunctions, List.flatten_append, List.mem_append, or_iff_right hy]

/-- A name from outside of all functions keeps its cell. -/
theorem resolve_cell {cell : Nat} (hnone : Γ₀.functions = [])
    (hcell : Γ₀.globals.lookup y = some cell) :
    Γ.resolve R.captured y = some (.global, cell) := by
  have hvariable : ¬ Γ₀.IsVariable y := by
    rw [Names.IsVariable, hnone]
    exact List.not_mem_nil
  rw [Names.resolve_outer (mt h.isVariable_iff.mp hvariable) (mt h.captured hvariable),
    Names.outer, h.cell, hcell]

theorem skip (n : Nat) : L.Inside y R₀ Γ₀ R (Γ.skip n) :=
  ⟨h.nests, h.functions, h.cell, h.captured⟩

theorem leave (Δ : Names) : L.Inside y R₀ Γ₀ R (Γ.leave Δ) :=
  ⟨h.nests, h.functions, h.cell, h.captured⟩

theorem define {z : String} (hz : y ≠ z) : L.Inside y R₀ Γ₀ R (Γ.define z) := by
  obtain ⟨vars, inner, hfunctions, hy⟩ := h.functions
  rw [Names.define_inside hfunctions]
  refine ⟨h.nests, ⟨z :: vars, inner, rfl, ?_⟩, h.cell, h.captured⟩
  rw [List.flatten_cons, List.cons_append, List.mem_cons, not_or]
  exact ⟨hz, hy⟩

theorem function (hliteral : L.FunctionLiteral R Γ pos params body R' p q) (hy : y ∉ params) :
    L.Inside y R₀ Γ₀ R' (Γ.function params) := by
  obtain ⟨vars, inner, hfunctions, hnew⟩ := h.functions
  refine ⟨h.nests.literal hliteral h.not_own, ⟨params.reverse, vars :: inner, ?_, ?_⟩, h.cell,
    fun hmem => h.isVariable_iff.mp ((hliteral.captures y).mp hmem).1⟩
  · rw [Names.function, hfunctions]
    rfl
  · rw [List.flatten_cons, List.mem_append, List.mem_reverse, not_or]
    exact ⟨hy, hnew⟩

end Inside

/-- The body of a function is a place in it. -/
theorem FunctionLiteral.inside (h : L.FunctionLiteral R Γ pos params body R' p q)
    (hy : y ∉ params) : L.Inside y R' Γ R' (Γ.function params) where
  nests := .self
  functions := ⟨params.reverse, [], rfl, by simpa using hy⟩
  cell := rfl
  captured hmem := ((h.captures y).mp hmem).1

/-- All of a function's text is inside of it. -/
theorem inside_context :
    L.Context fun R _ Γ defined => y ∉ defined → L.Inside y R₀ Γ₀ R Γ where
  skip h n hy := (h hy).skip n
  define h _ hy :=
    have ⟨hz, hnew⟩ := not_or.mp (mt List.mem_cons.mpr hy)
    (h hnew).define hz
  leave h Δ hy := (h hy).leave Δ
  function h hliteral hy :=
    have ⟨hparam, hnew⟩ := not_or.mp (mt List.mem_append.mpr hy)
    (h hnew).function hliteral hparam

/-- Where a function reads a name from outside of it. -/
theorem FunctionLiteral.reads (h : L.FunctionLiteral R Γ pos params body R' p q) {u : NameUse}
    (hu : u ∈ body.nameUses true params) (hread : u.write = false) (hnew : u.name ∉ u.defined) :
    ∃ R₂ Γ₂ p₂ q₂, L.Inside u.name R' Γ R₂ Γ₂ ∧ L.loadAt R₂ Γ₂ u.pos u.name p₂ q₂ := by
  have hC : L.Context fun R _ Γ' defined => u.name ∉ defined → L.Inside u.name R' Γ R Γ' :=
    inside_context
  obtain ⟨R₂, Γ₂, p₂, q₂, hinside, hsite⟩ := bodyAt.sites hC h.inside body h.body u hu
  rw [hread] at hsite
  exact ⟨R₂, Γ₂, p₂, q₂, hinside hnew, hsite⟩

end Image

end ScriptEngine
