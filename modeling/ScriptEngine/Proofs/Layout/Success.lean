import ScriptEngine.Proofs.Layout.Basic
/-! What it takes for a part of the compiler to succeed, and what it then does to its state. -/
namespace ScriptEngine.Compile

variable {α β : Type} {m : CompileM α} {f : α → CompileM β} {s s' : CompileState} {a b : α} {c : β}
  {ctx : CompileContext} {pos : Pos} {code : Code}

/-- A result that passes a test is a success. -/
theorem eq_ok_of_any {ε : Type} {r : Except ε α} {p : α → Bool} (h : r.toOption.any p = true) :
    ∃ a, r = .ok a ∧ p a = true := by
  cases r with
  | ok a => exact ⟨a, rfl, h⟩
  | error e => cases h

/-- A result is a failure whose cause passes a test. -/
def failsBy (p : CompileCause → Bool) : Except CompileError α → Bool
  | .error e => p e.cause
  | .ok _ => false

theorem eq_error_of_failsBy {r : Except CompileError α} {p : CompileCause → Bool}
    (h : failsBy p r = true) : ∃ e, r = .error e ∧ p e.cause = true := by
  cases r with
  | error e => exact ⟨e, rfl, h⟩
  | ok a => cases h

/-- The computation succeeds. -/
def Yields (m : CompileM α) (s : CompileState) (a : α) (s' : CompileState) : Prop :=
  m.run s = .ok a s'

@[simp] theorem yields_pure : Yields (pure a) s b s' ↔ b = a ∧ s' = s := by
  unfold Yields
  constructor
  · intro h
    cases h
    exact ⟨rfl, rfl⟩
  · rintro ⟨rfl, rfl⟩
    rfl

@[simp] theorem yields_bind :
    Yields (m >>= f) s c s' ↔ ∃ a t, Yields m s a t ∧ Yields (f a) t c s' := by
  unfold Yields
  cases hm : m.run s with
  | ok a t =>
    have hrun : (m >>= f).run s = (f a).run t := by
      simp only [EStateM.run] at hm ⊢
      simp only [bind, EStateM.bind, hm]
    rw [hrun]
    simp
  | error e t =>
    have hrun : (m >>= f).run s = .error e t := by
      simp only [EStateM.run] at hm ⊢
      simp only [bind, EStateM.bind, hm]
    rw [hrun]
    simp

@[simp] theorem yields_get {t : CompileState} :
    Yields (get : CompileM CompileState) s t s' ↔ t = s ∧ s' = s := by
  unfold Yields
  constructor
  · intro h
    cases h
    exact ⟨rfl, rfl⟩
  · rintro ⟨rfl, rfl⟩
    rfl

@[simp] theorem yields_set {t : CompileState} {u : PUnit} :
    Yields (set t : CompileM PUnit) s u s' ↔ s' = t := by
  unfold Yields
  constructor
  · intro h
    cases h
    rfl
  · rintro rfl
    rfl

@[simp] theorem yields_modify {g : CompileState → CompileState} {u : PUnit} :
    Yields (modify g : CompileM PUnit) s u s' ↔ s' = g s := by
  unfold Yields
  constructor
  · intro h
    cases h
    rfl
  · rintro rfl
    rfl

@[simp] theorem yields_modifyGet {g : CompileState → α × CompileState} :
    Yields (modifyGet g : CompileM α) s b s' ↔ g s = (b, s') := by
  unfold Yields
  constructor
  · intro h
    cases h
    rfl
  · intro h
    have : (modifyGet g : CompileM α).run s = .ok (g s).1 (g s).2 := rfl
    rw [this, h]

@[simp] theorem yields_fail {cause : CompileCause} :
    ¬ Yields (fail ctx pos cause : CompileM α) s b s' := by
  intro h
  cases h

theorem yields_ite {p : Prop} [Decidable p] {m m' : CompileM α} :
    Yields (if p then m else m') s b s' ↔ (p ∧ Yields m s b s') ∨ (¬ p ∧ Yields m' s b s') := by
  by_cases hp : p <;> simp [hp]

@[simp] theorem yields_limit {n max : Nat} {what : Measured} {u : PUnit} :
    Yields (limit ctx pos n max what) s u s' ↔ n ≤ max ∧ s' = s := by
  unfold limit
  by_cases h : max < n
  · simp only [if_pos h, yields_fail, false_iff, not_and]
    omega
  · simp only [if_neg h, yields_pure]
    exact ⟨fun hs => ⟨by omega, hs.2⟩, fun hs => ⟨trivial, hs.2⟩⟩

@[simp] theorem yields_here {n : Nat} : Yields here s n s' ↔ n = s.here ∧ s' = s := by
  simp only [here, yields_bind, yields_get, yields_pure]
  constructor
  · rintro ⟨t, u, ⟨rfl, rfl⟩, rfl, rfl⟩
    exact ⟨rfl, rfl⟩
  · rintro ⟨rfl, rfl⟩
    exact ⟨_, _, ⟨rfl, rfl⟩, rfl, rfl⟩

@[simp] theorem yields_lay {op : Opcode} {u : PUnit} :
    Yields (lay op) s u s' ↔ s' = { s with here := s.here + op.size } := yields_modify

@[simp] theorem yields_emit {op : Opcode} {x y : Nat} :
    Yields (emit pos op x y) s code s' ↔
      code = #[.plain ⟨op, x, y⟩ (some pos)] ∧ s' = { s with here := s.here + op.size } := by
  simp only [emit, yields_bind, yields_lay, yields_pure]
  constructor
  · rintro ⟨u, t, rfl, rfl, rfl⟩
    exact ⟨rfl, rfl⟩
  · rintro ⟨rfl, rfl⟩
    exact ⟨⟨⟩, _, rfl, rfl, rfl⟩

@[simp] theorem yields_target {n : Nat} :
    Yields (target ctx pos) s n s' ↔ n = s.here ∧ s.here ≤ maxCodeSize ∧ s' = s := by
  simp only [target, yields_bind, yields_here, yields_limit, yields_pure]
  constructor
  · rintro ⟨n, t, ⟨rfl, rfl⟩, u, t', ⟨h, rfl⟩, rfl, rfl⟩
    exact ⟨rfl, h, rfl⟩
  · rintro ⟨rfl, h, rfl⟩
    exact ⟨_, _, ⟨rfl, rfl⟩, ⟨⟩, _, ⟨h, rfl⟩, rfl, rfl⟩

@[simp] theorem yields_addConstant {v : Value} {n : Nat} :
    Yields (addConstant ctx pos v) s n s' ↔
      n = s.pool.size ∧ s.pool.size < maxConstants ∧ s' = { s with pool := s.pool.push v } := by
  simp only [addConstant, yields_bind, yields_get, yields_ite, yields_fail, and_false, false_or,
    yields_modify, yields_pure]
  constructor
  · rintro ⟨t, u, ⟨rfl, rfl⟩, h, v, w, rfl, rfl, rfl⟩
    exact ⟨rfl, by omega, rfl⟩
  · rintro ⟨rfl, h, rfl⟩
    exact ⟨_, _, ⟨rfl, rfl⟩, by omega, ⟨⟩, _, rfl, rfl, rfl⟩

theorem yields_emitConstant {v : Value} :
    Yields (emitConstant ctx pos v) s code s' ↔ s.pool.size < maxConstants ∧
      code = #[.plain ⟨.constant, s.pool.size, 0⟩ (some pos)] ∧
      s' = { s with pool := s.pool.push v, here := s.here + Opcode.constant.size } := by
  simp only [emitConstant, yields_bind, yields_addConstant, yields_emit]
  constructor
  · rintro ⟨n, t, ⟨rfl, h, rfl⟩, rfl, rfl⟩
    exact ⟨h, rfl, rfl⟩
  · rintro ⟨h, rfl, rfl⟩
    exact ⟨_, _, ⟨rfl, h, rfl⟩, rfl, rfl⟩

theorem yields_withSymbols {g : SymbolTable → α × SymbolTable} :
    Yields (withSymbols g) s b s' ↔ ∃ t, g s.symbols = (b, t) ∧ s' = { s with symbols := t } := by
  simp only [withSymbols, yields_modifyGet, Prod.mk.injEq]
  constructor
  · rintro ⟨rfl, rfl⟩
    exact ⟨_, rfl, rfl⟩
  · rintro ⟨t, hg, rfl⟩
    simp [hg]

theorem yields_enterBlock {u : Unit} :
    Yields enterBlock s u s' ↔ s' = { s with symbols := s.symbols.enterBlock } := by
  simp [enterBlock, yields_withSymbols]

theorem yields_leaveBlock {u : Unit} :
    Yields leaveBlock s u s' ↔ s' = { s with symbols := s.symbols.leaveBlock } := by
  simp [leaveBlock, yields_withSymbols]

theorem yields_define {x : String} {σ : Symbol} (h : Yields (define ctx pos x) s σ s') :
    ∃ t, s.symbols.define x = (σ, t) ∧ s' = { s with symbols := t } ∧
      (σ.storage = .frame → σ.index < maxLocals) := by
  simp only [define, yields_bind, yields_withSymbols] at h
  obtain ⟨τ, t, ⟨u, ht, rfl⟩, h⟩ := h
  split at h
  · rw [yields_ite] at h
    simp only [yields_fail, and_false, false_or, yields_pure] at h
    obtain ⟨h, rfl, rfl⟩ := h
    exact ⟨u, ht, rfl, fun _ => by omega⟩
  · rename_i hσ
    rw [yields_ite] at h
    simp only [yields_fail, and_false, false_or, yields_pure] at h
    obtain ⟨_, rfl, rfl⟩ := h
    exact ⟨u, ht, rfl, fun hf => by simp [hf] at hσ⟩
  · rename_i hσ _
    simp only [yields_pure] at h
    obtain ⟨rfl, rfl⟩ := h
    exact ⟨u, ht, rfl, fun hf => absurd hf hσ⟩

theorem yields_resolve {x : String} {σ : Symbol} (h : Yields (resolve ctx pos x) s σ s') :
    ∃ t, s.symbols.resolve x = (some σ, t) ∧ s' = { s with symbols := t } := by
  simp only [resolve, yields_bind, yields_withSymbols] at h
  obtain ⟨found, t, ⟨u, ht, rfl⟩, h⟩ := h
  cases found with
  | none => exact (yields_fail h).elim
  | some τ =>
    obtain ⟨rfl, rfl⟩ := yields_pure.mp h
    exact ⟨u, ht, rfl⟩

theorem yields_makeFunction {r : Routine} {v : Value} :
    Yields (makeFunction r) s v s' ↔
      v = .function ⟨s.maker, s.made⟩ r ∧ s' = { s with made := s.made + 1 } := by
  simp only [makeFunction, yields_modifyGet, Prod.mk.injEq]
  exact ⟨fun h => ⟨h.1.symm, h.2.symm⟩, fun h => ⟨h.1.symm, h.2.symm⟩⟩

/-- Notes change the trace alone. -/
theorem yields_note {text : String} {u : Unit} (h : Yields (note ctx text) s u s') :
    ∃ trace, s' = { s with trace } := by
  simp only [note, yields_ite, yields_modify, yields_pure] at h
  rcases h with ⟨_, rfl⟩ | ⟨_, _, rfl⟩
  · exact ⟨_, rfl⟩
  · exact ⟨s'.trace, rfl⟩

@[simp] theorem yields_emitLoad {σ : Symbol} :
    Yields (emitLoad pos σ) s code s' ↔
      code = #[.plain ⟨σ.storage.load, σ.index, 0⟩ (some pos)] ∧
      s' = { s with here := s.here + σ.storage.load.size } := by
  unfold emitLoad
  cases σ.storage <;> exact yields_emit

end ScriptEngine.Compile
