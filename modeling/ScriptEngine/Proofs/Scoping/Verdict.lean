import ScriptEngine.Compile.Import
import ScriptEngine.Proofs.Scoping.Table
/-!
When a part of the compiler succeeds. A verdict says it of a part in terms of the text it compiles;
verdicts on parts that follow one another make one verdict.
-/
namespace ScriptEngine

/-- The program is too large. -/
def CompileCause.IsSize : CompileCause → Prop
  | .tooManyConstants | .tooManyLocals | .tooManyGlobals | .overflow _ => True
  | _ => False

namespace Scoping

open Compile

variable {α β : Type} {excused : CompileCause → Prop} {Γ Γ₁ Γ₂ : Blocks} {good good₁ good₂ : Prop}
  {m : CompileM α} {f : α → CompileM β} {ctx : CompileContext} {pos : Pos} {x : String}

/-- The part succeeds in every state, and the names in force stay; but it may fail for a cause that
is excused. -/
structure Keeps (excused : CompileCause → Prop) (m : CompileM α) : Prop where
  run : ∀ s, match m.run s with
    | .ok _ s' => s'.symbols = s.symbols
    | .error e _ => excused e.cause

/-- Where the blocks of the text are `Γ`, the part succeeds if and only if `good` holds, and then
they are `Γ'`; but it may fail for a cause that is excused. -/
structure Verdict (excused : CompileCause → Prop) (Γ : Blocks) (good : Prop) (m : CompileM α)
    (Γ' : Blocks) : Prop where
  run : ∀ s, Fits Γ s.symbols → match m.run s with
    | .ok _ s' => good ∧ Fits Γ' s'.symbols
    | .error e _ => good → excused e.cause

theorem run_bind (m : CompileM α) (f : α → CompileM β) (s : CompileState) :
    (m >>= f).run s = match m.run s with
      | .ok a s' => (f a).run s'
      | .error e s' => .error e s' := by
  simp only [EStateM.run, bind, EStateM.bind]
  cases m s <;> rfl

section Keeping

theorem Keeps.pure (a : α) : Keeps excused (pure a : CompileM α) := ⟨fun _ => rfl⟩

theorem Keeps.bind (hm : Keeps excused m) (hf : ∀ a, Keeps excused (f a)) :
    Keeps excused (m >>= f) := by
  refine ⟨fun s => ?_⟩
  have hs := hm.run s
  rw [run_bind]
  cases hrun : m.run s with
  | error e s' =>
    rw [hrun] at hs
    exact hs
  | ok a s' =>
    rw [hrun] at hs
    have hs' := (hf a).run s'
    dsimp only at hs ⊢
    cases hrun' : (f a).run s' with
    | ok b s'' =>
      rw [hrun'] at hs'
      exact hs'.trans hs
    | error e s'' =>
      rw [hrun'] at hs'
      exact hs'

theorem Keeps.modify {g : CompileState → CompileState} (h : ∀ s, (g s).symbols = s.symbols) :
    Keeps excused (modify g : CompileM PUnit) := ⟨h⟩

theorem Keeps.fail {cause : CompileCause} (h : excused cause) :
    Keeps excused (fail ctx pos cause : CompileM α) := ⟨fun _ => h⟩

theorem Keeps.ite {p : Prop} [Decidable p] {m m' : CompileM α} (h : Keeps excused m)
    (h' : Keeps excused m') : Keeps excused (if p then m else m') := by
  split
  · exact h
  · exact h'

theorem keeps_here : Keeps excused here := ⟨fun _ => rfl⟩

theorem keeps_lay (op : Opcode) : Keeps excused (lay op) := ⟨fun _ => rfl⟩

theorem keeps_emit (op : Opcode) (a b : Nat) : Keeps excused (emit pos op a b) := ⟨fun _ => rfl⟩

theorem keeps_note (text : String) : Keeps excused (note ctx text) :=
  .ite (.modify fun _ => rfl) (.pure _)

theorem keeps_makeFunction (r : Routine) : Keeps excused (makeFunction r) := ⟨fun _ => rfl⟩

theorem keeps_emitLoad (σ : Symbol) : Keeps excused (emitLoad pos σ) := by
  unfold emitLoad
  cases σ.storage <;> exact keeps_emit ..

theorem keeps_emitStore (σ : Symbol) : Keeps excused (emitStore pos σ) := by
  unfold emitStore
  cases σ.storage <;> exact keeps_emit ..

theorem keeps_emitLoads (free : List Symbol) (code : Code) :
    Keeps excused (emitLoads pos free code) := by
  induction free generalizing code with
  | nil => exact .pure _
  | cons σ rest ih => exact (keeps_emitLoad σ).bind fun _ => ih _

variable (hsize : ∀ cause, cause.IsSize → excused cause)
include hsize

theorem keeps_limit (n max : Nat) (what : Measured) : Keeps excused (limit ctx pos n max what) :=
  .ite (.fail (hsize _ trivial)) (.pure _)

theorem keeps_target : Keeps excused (target ctx pos) :=
  keeps_here.bind fun _ => (keeps_limit hsize ..).bind fun _ => .pure _

theorem keeps_addConstant (v : Value) : Keeps excused (addConstant ctx pos v) := by
  refine ⟨fun s => ?_⟩
  have hrun : (addConstant ctx pos v).run s =
      if maxConstants ≤ s.pool.size then
        (fail ctx pos .tooManyConstants : CompileM Nat).run s
      else .ok s.pool.size { s with pool := s.pool.push v } := by
    unfold addConstant
    rw [run_bind]
    change (ite _ _ _ : CompileM Nat).run s = _
    by_cases h : maxConstants ≤ s.pool.size
    · rw [if_pos h, if_pos h]
    · rw [if_neg h, if_neg h]
      rfl
  rw [hrun]
  by_cases h : maxConstants ≤ s.pool.size
  · rw [if_pos h]
    exact hsize _ trivial
  · rw [if_neg h]

theorem keeps_emitConstant (v : Value) : Keeps excused (emitConstant ctx pos v) :=
  (keeps_addConstant hsize v).bind fun _ => keeps_emit ..

theorem keeps_emitLiteral (l : Literal) : Keeps excused (emitLiteral ctx pos l) := by
  cases l with
  | bool b => cases b <;> exact keeps_emit ..
  | undefined => exact keeps_emit ..
  | int | float | char | string => exact keeps_emitConstant hsize _

theorem keeps_emitFunction (r : Routine) (free : List Symbol) :
    Keeps excused (emitFunction ctx pos r free) :=
  (keeps_makeFunction r).bind fun _ => .ite (keeps_emitConstant hsize _) <|
    (keeps_limit hsize ..).bind fun _ => (keeps_emitLoads ..).bind fun _ =>
      (keeps_addConstant hsize _).bind fun _ => (keeps_emit ..).bind fun _ => .pure _

end Keeping

theorem Keeps.verdict (h : Keeps excused m) (Γ : Blocks) : Verdict excused Γ True m Γ := by
  refine ⟨fun s hfits => ?_⟩
  have hs := h.run s
  cases hrun : m.run s with
  | ok a s' =>
    rw [hrun] at hs
    exact ⟨trivial, hs ▸ hfits⟩
  | error e s' =>
    rw [hrun] at hs
    exact fun _ => hs

namespace Verdict

theorem iff (h : Verdict excused Γ good₁ m Γ₁) (hgood : good₁ ↔ good) :
    Verdict excused Γ good m Γ₁ := propext hgood ▸ h

theorem bind (hm : Verdict excused Γ good₁ m Γ₁)
    (hf : ∀ a, Verdict excused Γ₁ good₂ (f a) Γ₂) :
    Verdict excused Γ (good₁ ∧ good₂) (m >>= f) Γ₂ := by
  refine ⟨fun s hfits => ?_⟩
  have hs := hm.run s hfits
  rw [run_bind]
  cases hrun : m.run s with
  | error e s' =>
    rw [hrun] at hs
    exact fun hgood => hs hgood.1
  | ok a s' =>
    rw [hrun] at hs
    have hs' := (hf a).run s' hs.2
    dsimp only
    cases hrun' : (f a).run s' with
    | ok b s'' =>
      rw [hrun'] at hs'
      exact ⟨⟨hs.1, hs'.1⟩, hs'.2⟩
    | error e s'' =>
      rw [hrun'] at hs'
      exact fun hgood => hs' hgood.2

/-- A part before that always succeeds adds nothing. -/
theorem after (hm : Keeps excused m) (hf : ∀ a, Verdict excused Γ good (f a) Γ₂) :
    Verdict excused Γ good (m >>= f) Γ₂ :=
  ((hm.verdict Γ).bind hf).iff (iff_of_eq (true_and _))

/-- A part behind that always succeeds adds nothing. -/
theorem before (hm : Verdict excused Γ good m Γ₂) (hf : ∀ a, Keeps excused (f a)) :
    Verdict excused Γ good (m >>= f) Γ₂ :=
  (hm.bind fun a => (hf a).verdict Γ₂).iff (iff_of_eq (and_true _))

theorem pure (a : α) : Verdict excused Γ True (pure a : CompileM α) Γ := (Keeps.pure a).verdict Γ

theorem fail (cause : CompileCause) : Verdict excused Γ False (fail ctx pos cause : CompileM α) Γ₂ :=
  ⟨fun _ _ => False.elim⟩

theorem guard {p : Prop} [Decidable p] {cause : CompileCause} (hm : Verdict excused Γ good m Γ₂) :
    Verdict excused Γ (p ∧ good) (if p then m else Compile.fail ctx pos cause) Γ₂ := by
  by_cases hp : p
  · rw [if_pos hp]
    exact hm.iff (by simp [hp])
  · rw [if_neg hp]
    exact (fail _).iff (by simp [hp])

/-- A change of the names in force. -/
theorem withSymbols {g : SymbolTable → α × SymbolTable}
    (h : ∀ t, Fits Γ t → Fits Γ₂ (g t).2) : Verdict excused Γ True (withSymbols g) Γ₂ :=
  ⟨fun s hfits => ⟨trivial, h s.symbols hfits⟩⟩

theorem enterBlock : Verdict excused Γ True enterBlock Γ.enter := .withSymbols fun _ h => h.enterBlock

/-- A name can be defined once in a block. -/
theorem fresh (hm : Verdict excused Γ good m Γ₂) :
    Verdict excused Γ (x ∉ Γ.innermost ∧ good)
      (do if (← get).symbols.definedInBlock x then Compile.fail ctx pos (.redeclared x) else m) Γ₂ := by
  refine ⟨fun s hfits => ?_⟩
  rw [run_bind]
  change match (ite _ _ _ : CompileM α).run s with | .ok _ _ => _ | .error _ _ => _
  by_cases hx : s.symbols.definedInBlock x = true
  · rw [if_pos hx]
    exact fun hgood => absurd ((hfits.definedInBlock x).mp hx) hgood.1
  · rw [if_neg hx]
    have hfresh : x ∉ Γ.innermost := fun hmem => hx ((hfits.definedInBlock x).mpr hmem)
    have hs := hm.run s hfits
    cases hrun : m.run s with
    | ok a s' =>
      rw [hrun] at hs
      exact ⟨⟨hfresh, hs.1⟩, hs.2⟩
    | error e s' =>
      rw [hrun] at hs
      exact fun hgood => hs hgood.2

theorem resolve (x : String) : Verdict excused Γ (Γ.InView x) (resolve ctx pos x) Γ := by
  refine ⟨fun s hfits => ?_⟩
  have hresolve := hfits.resolve x
  have hrun : (Compile.withSymbols (·.resolve x)).run s =
      .ok (s.symbols.resolve x).1 { s with symbols := (s.symbols.resolve x).2 } := rfl
  unfold Compile.resolve
  rw [run_bind, hrun]
  generalize s.symbols.resolve x = found at hresolve ⊢
  obtain ⟨found, t⟩ := found
  cases found with
  | some σ => exact ⟨hresolve.2.1, hresolve.1⟩
  | none => exact fun hgood => absurd hgood hresolve

/-- A name can be assigned to if it stands for a variable of the function or a global one. -/
theorem assignable (x : String) : Verdict excused Γ (Γ.Assignable x) (assignable ctx pos x) Γ := by
  refine ⟨fun s hfits => ?_⟩
  have hresolve := hfits.resolve x
  have hrun : (Compile.withSymbols (·.resolve x)).run s =
      .ok (s.symbols.resolve x).1 { s with symbols := (s.symbols.resolve x).2 } := rfl
  unfold Compile.assignable Compile.resolve
  rw [run_bind, run_bind, hrun]
  generalize s.symbols.resolve x = found at hresolve ⊢
  obtain ⟨found, t⟩ := found
  cases found with
  | none => exact fun hgood => absurd hgood.inView hresolve
  | some σ =>
    obtain ⟨hfits', -, hstorage⟩ := hresolve
    rw [assignable_iff, ← hstorage]
    obtain ⟨name, storage, index⟩ := σ
    cases storage with
    | builtin | free => exact fun hgood => by simp at hgood
    | global | frame => exact ⟨by simp, hfits'⟩

theorem define (hsize : ∀ cause, CompileCause.IsSize cause → excused cause) (x : String) :
    Verdict excused Γ True (define ctx pos x) (Γ.define x) := by
  refine (withSymbols fun t hfits => hfits.define x).before fun σ => ?_
  cases σ.storage with
  | frame | global => exact .ite (.fail (hsize _ trivial)) (.pure _)
  | builtin | free => exact .pure _

theorem defineParams (hsize : ∀ cause, CompileCause.IsSize cause → excused cause)
    (params : List String) (Γ : Blocks) :
    Verdict excused Γ True (defineParams ctx pos params) (params.foldl Blocks.define Γ) := by
  induction params generalizing Γ with
  | nil => exact .pure _
  | cons x rest ih =>
    exact ((define hsize x).bind fun _ => ih (Γ.define x)).iff (iff_of_eq (and_true _))

/-- Blocks of a table are never none. -/
theorem of_current (h : Γ.current ≠ [] → Verdict excused Γ good m Γ₂) :
    Verdict excused Γ good m Γ₂ := by
  refine ⟨fun s hfits => (h ?_).run s hfits⟩
  obtain ⟨names, rest, hΓ, -⟩ := hfits.current.ne_nil
  simp [hΓ]

theorem leaveBlock (hgrows : Γ.enter.Grows Γ₂) (hne : Γ.current ≠ []) :
    Verdict excused Γ₂ True leaveBlock Γ := by
  obtain ⟨names, rfl⟩ := hgrows
  exact .withSymbols fun t hfits => (by simpa [Blocks.enter] using hfits : Fits _ t).leaveBlock hne

end Verdict

end Scoping

end ScriptEngine
