import ScriptEngine.Proofs.Bindings.Reads
import ScriptEngine.Proofs.Quiet.Program
import ScriptEngine.Proofs.Quiet.Stores
import ScriptEngine.Proofs.Recursion.Heirs
/-!
What a function reads in its own body for the name that it is defined under. Outside of functions the
name has a cell, and the body reads it when it runs. In a function, as in a module, the body captures
the variable when the function is made, and so before the function is stored in it.
-/
namespace ScriptEngine

namespace Machine

/-- The run ends at a limit of the machine. -/
def Exhausts (x : Setting) (m : Machine) : Prop :=
  ∃ t k m', Trap.IsLimit t ∧ m.loop x (fun _ => false) k = (.halted (.trap t), m')

variable {x : Setting} {m₀ m m₁ m₂ : Machine} {i k p q : Nat} {u v : Value}

theorem Exhausts.before (h : m₁.Exhausts x)
    (hrun : m.loop x (fun _ => false) k = (.unfinished, m₁)) : m.Exhausts x := by
  obtain ⟨t, j, m', ht, hend⟩ := h
  exact ⟨t, k + j, m', ht, (loop_add hrun).trans hend⟩

/-- A run that fails for no other reason arrives or ends at a limit. -/
theorem Comes.arrives {α : Type} {a : α} {Q : α → Machine → Prop} (h : m₀.Comes x m (.ok a) Q) :
    m.Exhausts x ∨ ∃ k m', m.loop x (fun _ => false) k = (.unfinished, m') ∧ Q a m' := by
  refine h.imp_left fun ⟨t, ht, k, m', _, _, hend, _⟩ => ?_
  exact ⟨t, k, m', ht, hend⟩

/-- Of two values stored in a slot the second one stays. -/
theorem Amid.put_put (h₁ : (m.put .frame i u).Amid [] p m₁)
    (h₂ : (m₁.put .frame i v).Amid [] q m₂) : (m.put .frame i v).Amid [] q m₂ where
  globals := h₂.globals.trans h₁.globals
  callers := h₂.callers.trans h₁.callers
  signals := h₂.signals.trans h₁.signals
  frame := by simp only [h₂.frame, put, h₁.frame]
  stack := by simp [h₂.stack, put, h₁.frame, h₁.stack]

end Machine

namespace Names

variable {Γ : Names} {captured : List String} {y : String}

theorem lookup_define (h : Γ.functions = []) : (Γ.define y).globals.lookup y = some Γ.cell := by
  rw [define_outside h, List.lookup_cons_self]

theorem functions_define : (Γ.define y).functions = [] ↔ Γ.functions = [] := by
  cases hf : Γ.functions with
  | nil => rw [define_outside hf, hf]
  | cons vars around => simp [define_inside hf]

/-- A name that a function defines is a variable of the function. -/
theorem isVariable_define (h : Γ.functions ≠ []) : (Γ.define y).IsVariable y := by
  obtain ⟨vars, around, hf⟩ := List.exists_cons_of_ne_nil h
  rw [IsVariable, define_inside hf]
  exact List.mem_append_left _ List.mem_cons_self

theorem resolve_define (h : Γ.functions = []) :
    (Γ.define y).resolve captured y = some (.global, Γ.cell) := by
  rw [resolve, functions_define.mpr h]
  simp only [outer, lookup_define h]

theorem resolve_define_inside (captured : List String) (y : String) (h : Γ.functions ≠ []) :
    ∃ i, (Γ.define y).resolve captured y = some (.frame, i) := by
  obtain ⟨vars, around, hf⟩ := List.exists_cons_of_ne_nil h
  rw [define_inside hf]
  exact ⟨vars.length, by simp [resolve, own, slotOf]⟩

end Names

namespace Image

open Machine Exec

variable {L : Image} {R R' : Body} {x : Setting} {m : Machine} {Γ : Names}
  {J : Option (Nat × Nat)} {pos place : Pos} {y : String} {params : List String} {body : Block}
  {f : Value} {free : List Value} {p q : Nat}

/-- A function has been defined under a name, and the run is about to go on at `q`. Outside of
functions the name has the next cell, whose number is cut to two bytes; a function has a variable of
its own, and what it has stored there has been made without the name. -/
inductive Bound (L : Image) (R : Body) (Γ : Names) (y : String) (R' : Body) (f : Value)
    (free : List Value) (q : Nat) (m m' : Machine) : Prop where
  | cell (hnone : Γ.functions = []) (state : (m.put .global (Γ.cell % 65536) f).Amid [] q m')
  | slot {i : Nat} (hsome : Γ.functions ≠ [])
    (hslot : (Γ.define y).resolve R.captured y = some (.frame, i))
    (state : (m.put .frame i f).Amid [] q m') (hlacks : R'.Lacks y free)

/-- A read in the body of a function, for the name that the function is defined under. -/
structure Recalls (L : Image) (x : Setting) (Γ : Names) (y : String) (R₀ : Body) (f : Value)
    (free : List Value) (m' : Machine) (R : Body) (p q : Nat) : Prop where
  /-- A cell is read, which has the function as long as nothing else has been stored there. -/
  cell : Γ.functions = [] → ∀ m, Spares x (Γ.cell % 65536) m' m → R.Framed m → m.Pushes x p q f
  /-- A captured value is read. -/
  slot : Γ.functions ≠ [] → ∀ m, L.Heir y R₀ free R m.frame.free → R.Framed m →
    m.Pushes x p q .undefined

/-- The code of a definition of a function: the variable of a function is cleared first. -/
theorem stmtAt.definition
    (h : L.stmtAt R J Γ (.define pos y (.func place params body)) p q) :
    ∃ l n R', L.FunctionLiteral R (Γ.define y) place params body R' l n ∧
      L.fillAt R (Γ.define y) pos y n q ∧
      (Γ.functions = [] ∧ p = l ∨ Γ.functions ≠ [] ∧ ∃ k, R.Has (some pos) .undefined 0 0 p k ∧
        L.fillAt R (Γ.define y) pos y k l) := by
  simp only [stmtAt, Expr.isFunc, if_true] at h
  obtain ⟨l, n, hclear, hfunction, hfill⟩ := h
  obtain ⟨R', hliteral⟩ := exprAt.literal hfunction
  refine ⟨l, n, R', hliteral, hfill, ?_⟩
  split at hclear
  · rename_i hnone
    exact .inl ⟨hnone, hclear⟩
  · rename_i hsome
    exact .inr ⟨hsome, hclear⟩

section Definitions

variable {l n : Nat} (hR : L.Frames R x m)
  (hliteral : L.FunctionLiteral R (Γ.define y) place params body R' l n)
  (hfill : L.fillAt R (Γ.define y) pos y n q)
include hR hliteral hfill

/-- Outside of functions the function is stored in the next cell. -/
theorem Frames.defines_cell (hnone : Γ.functions = []) (hip : m.frame.ip = l) :
    m.Exhausts x ∨ ∃ f free k m', R'.IsBodyOf f free ∧
      m.loop x (fun _ => false) k = (.unfinished, m') ∧ L.Bound R Γ y R' f free q m m' := by
  obtain ⟨make, free, hmake, -, hmade⟩ := hliteral.makes hR
  obtain ⟨f, made', hf, hbody⟩ := hmade m.made
  obtain ⟨i, ⟨hframe, -, -⟩ | ⟨hcell, -, hhas⟩⟩ := hfill
  · rw [Names.resolve_define hnone] at hframe
    cases hframe
  rw [Names.resolve_define hnone] at hcell
  cases hcell
  have hcomes := hmake [] m (.refl hip)
  rw [hf] at hcomes
  rcases hcomes.arrives with hlimit | ⟨k, m₁, hrun, h₁, -⟩
  · exact .inl hlimit
  obtain ⟨m₂, hadv, h₂, -⟩ := hR.fills_cell hhas h₁
  exact .inr ⟨f, free, k + 1, m₂, hbody, (loop_add hrun).trans (loop_next rfl hadv 0),
    .cell hnone h₂⟩

/-- In a function the variable is cleared before the function is made, which captures it. -/
theorem Frames.defines_slot {k : Nat} (hsome : Γ.functions ≠ []) (hip : m.frame.ip = p)
    (hhas : R.Has (some pos) .undefined 0 0 p k) (hclear : L.fillAt R (Γ.define y) pos y k l) :
    m.Exhausts x ∨ ∃ f free k m', R'.IsBodyOf f free ∧
      m.loop x (fun _ => false) k = (.unfinished, m') ∧ L.Bound R Γ y R' f free q m m' := by
  have hvariable : (Γ.define y).IsVariable y := Names.isVariable_define hsome
  obtain ⟨i, hslot⟩ := Names.resolve_define_inside R.captured y hsome
  have hundefined : m.Pushes x p k .undefined :=
    hR.pushes hhas ⟨Nat.one_pos, Nat.one_pos⟩ fun _ _ _ => execute_undefined
  obtain ⟨storage, i', hplace, hstores, hstore⟩ :=
    hR.stores hclear (fillAt.tiled hR.narrow hclear hvariable).fits
  rw [hslot] at hplace
  cases hplace
  rcases (hstore hundefined.makes m (.refl hip)).arrives with hlimit | ⟨k₁, m₁, hrun₁, h₁, -⟩
  · exact .inl hlimit
  have hR₁ : L.Frames R x m₁ := { hR with toFramed := hR.toFramed.put.amid h₁ }
  have hip₁ : m₁.frame.ip = l := by rw [h₁.frame]
  obtain ⟨make, free, hmake, hvalues, hmade⟩ := hliteral.makes hR₁
  obtain ⟨f, made', hf, hbody⟩ := hmade m₁.made
  obtain ⟨storage, i', hplace, -, hstore⟩ :=
    hR₁.stores hfill (fillAt.tiled hR.narrow hfill hvariable).fits
  rw [hslot] at hplace
  cases hplace
  have hcomes := hstore hmake m₁ (.refl hip₁)
  rw [hf] at hcomes
  rcases hcomes.arrives with hlimit | ⟨k₂, m₂, hrun₂, h₂, -⟩
  · exact .inl (hlimit.before hrun₁)
  have hcleared : R.value? (Γ.define y) m₁ y = some .undefined := by
    rw [Body.value?, hslot]
    exact h₁.read?.trans (read?_put_same hstores)
  refine .inr ⟨f, free, k₁ + k₂, m₂, hbody, (loop_add hrun₁).trans hrun₂,
    .slot hsome hslot (h₁.put_put h₂) fun j hj => ?_⟩
  obtain ⟨v, hfree, hv⟩ := captured_value hvalues hj
  rw [hfree, ← hv, hcleared]

end Definitions

/-- The code of a definition of a function defines it, or the run ends at a limit. -/
theorem Frames.defines (hR : L.Frames R x m) (hip : m.frame.ip = p)
    (hat : L.stmtAt R J Γ (.define pos y (.func place params body)) p q) :
    ∃ R', (∃ i j, L.FunctionLiteral R (Γ.define y) place params body R' i j) ∧
      (m.Exhausts x ∨ ∃ f free k m', R'.IsBodyOf f free ∧
        m.loop x (fun _ => false) k = (.unfinished, m') ∧ L.Bound R Γ y R' f free q m m') := by
  obtain ⟨l, n, R', hliteral, hfill, ⟨hnone, rfl⟩ | ⟨hsome, k, hhas, hclear⟩⟩ :=
    stmtAt.definition hat
  · exact ⟨R', ⟨p, n, hliteral⟩, hR.defines_cell hliteral hfill hnone hip⟩
  · exact ⟨R', ⟨l, n, hliteral⟩, hR.defines_slot hliteral hfill hsome hip hhas hclear⟩

/-- What a read yields in the body of a function that has been defined. -/
theorem loadAt.recalls {R₂ : Body} {Γ₂ : Names} {m' : Machine} {p₂ q₂ : Nat}
    (hframes : ∀ m, R₂.Framed m → L.Frames R₂ x m) (hbound : L.Bound R Γ y R' f free q m m')
    (hinside : L.Inside y R' (Γ.define y) R₂ Γ₂) (hat : L.loadAt R₂ Γ₂ pos y p₂ q₂) :
    L.Recalls x Γ y R' f free m' R₂ p₂ q₂ where
  cell hnone m₂ hspares hframed := by
    obtain ⟨-, state⟩ | ⟨hsome, -, -, -⟩ := hbound
    · obtain ⟨storage, i, hresolve, -, hhas⟩ := hat
      rw [hinside.resolve_cell (Names.functions_define.mpr hnone)
        (Names.lookup_define hnone)] at hresolve
      cases hresolve
      have hkept : m₂.globals.get? (Γ.cell % 65536) = some f := by
        rw [hspares.kept, state.globals]
        exact (Globals.get?_set ..).trans (if_pos rfl)
      have hpushes := (hframes m₂ hframed).pushes_cell hhas
      rwa [hkept] at hpushes
    · exact absurd hnone hsome
  slot hsome m₂ hheir hframed := by
    obtain ⟨hnone, -⟩ | ⟨-, -, -, hlacks⟩ := hbound
    · exact absurd hnone hsome
    · have hR₂ := hframes m₂ hframed
      have hvariable : Γ₂.IsVariable y := hinside.isVariable_iff.mpr (Names.isVariable_define hsome)
      obtain ⟨v, hv⟩ := loadAt.value hR₂ hat
      obtain rfl : v = .undefined := (hheir.lacks hlacks).value hinside.not_own hvariable hv
      exact loadAt.pushes hR₂ hv hat (loadAt.tiled hR₂.narrow hat hvariable).fits

end Image

section Program

variable {s : Script} {compiler : Nat} {a : Artifact}

/-- Wherever a program defines a function under a name, the code defines it or the run ends at a
limit, and every read of the name in the function's body that is not hidden stands in the code of the
body. If the definition is outside of all functions the read yields the function; in a function, and
so in a module, it yields undefined. -/
theorem functions_recall_their_names (h : (s.compile compiler).1 = .ok a) :
    ∃ text L main, s.Laid a text L main ∧ ∀ R, R = main ∨ L.Defines R →
      ∀ whole J Γ pos y place params body p q,
      L.Stands R whole J Γ (.define pos y (.func place params body)) p q →
      ∀ (x : Setting) (m : Machine), x.bytecode = a.bytecode → R.Framed m → m.frame.ip = p →
      m.Exhausts x ∨ ∃ R' f free k m', R'.IsBodyOf f free ∧
        m.loop x (fun _ => false) k = (.unfinished, m') ∧ L.Bound R Γ y R' f free q m m' ∧
        ∀ u ∈ body.nameUses true params, u.name = y → u.write = false → y ∉ u.defined →
          ∃ R₂ Γ₂ p₂ q₂, L.Nests y R' R₂ ∧ L.loadAt R₂ Γ₂ u.pos y p₂ q₂ ∧
            L.Recalls x Γ y R' f free m' R₂ p₂ q₂ := by
  obtain ⟨text, L, main, hlaid⟩ := script_laid h
  refine ⟨text, L, main, hlaid, fun R hR whole J Γ pos y place params body p q hstands x m hx
    hframed hip => ?_⟩
  obtain ⟨rest, z, -, hat⟩ := hstands
  obtain ⟨R', ⟨i, j, hliteral⟩, hlimit | ⟨f, free, k, m', hbody, hrun, hbound⟩⟩ :=
    (hlaid.frames hR hx hframed).defines hip hat
  · exact .inl hlimit
  refine .inr ⟨R', f, free, k, m', hbody, hrun, hbound, fun u hu hname hread hnew => ?_⟩
  subst hname
  obtain ⟨R₂, Γ₂, p₂, q₂, hinside, hload⟩ := hliteral.reads hu hread hnew
  have hdefines : L.Defines R₂ := hinside.nests.defines hliteral.defines
  exact ⟨R₂, Γ₂, p₂, q₂, hinside.nests, hload,
    hload.recalls (fun _ => hlaid.frames (.inr hdefines) hx) hbound hinside⟩

/-- A function that yields itself. -/
def selfScript : Script :=
  Script.ofSource "f := func() { return f }".toUTF8 Script.defaultFile Script.defaultExtension

/-- A definition of such a function. -/
def Stmt.isSelf : Stmt → Bool
  | .define _ y (.func _ [] (.mk _ [.returnValue _ (some (.name _ z))])) => decide (y = z)
  | _ => false

theorem functions_recall_their_names_self :
    ∃ a text L main pos y place params body p q x m, (selfScript.compile 0).1 = .ok a ∧
      selfScript.Laid a text L main ∧
      L.Stands main text none selfScript.names (.define pos y (.func place params body)) p q ∧
      x.bytecode = a.bytecode ∧ main.Framed m ∧ m.frame.ip = p ∧
      ∃ R' f free m' R₂ p₂ q₂, R'.IsBodyOf f free ∧
        L.Recalls x selfScript.names y R' f free m' R₂ p₂ q₂ := by
  have hcheck : selfScript.checkOne Stmt.isSelf 50 = true := by decide +kernel
  obtain ⟨a, c, h, hkind, hstart⟩ := Script.start_of_check hcheck
  obtain ⟨text, L, main, hlaid, hrecalls⟩ := functions_recall_their_names h
  obtain ⟨rfl, q, x, m, m₁, hstands, -, hx, hframed, hip, hrun⟩ := hstart hlaid
  unfold Stmt.isSelf at hkind
  split at hkind
  · rename_i pos y place block place₁ place₂ z
    obtain rfl : y = z := of_decide_eq_true hkind
    obtain ⟨t, k, m', -, hhalted⟩ | ⟨R', f, free, -, m', hbody, -, -, hreads⟩ :=
      hrecalls main (.inl rfl) _ none _ pos y place [] _ 0 q hstands x m hx hframed hip
    · exact absurd (Machine.loop_unique hrun hhalted nofun nofun).1 nofun
    · obtain ⟨R₂, Γ₂, p₂, q₂, -, -, hrecall⟩ :=
        hreads ⟨y, place₂, false, true, []⟩ (List.mem_singleton_self _) rfl rfl (by simp)
      exact ⟨a, _, L, main, pos, y, place, [], _, 0, q, x, m, h, hlaid, hstands, hx, hframed, hip,
        R', f, free, m', R₂, p₂, q₂, hbody, hrecall⟩
  · cases hkind

end Program

end ScriptEngine
