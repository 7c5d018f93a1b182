import ScriptEngine.Proofs.Layout.Scope
/-! What defining a name and entering and leaving blocks and functions do to the names in force. -/
namespace ScriptEngine.Layout

variable {used : String → Prop} {f : ScopeFrame} {vars : List String} {x : String}
  {t t' : SymbolTable} {Γ Γ' : Names}

theorem lookup?_add (f : ScopeFrame) (s : Symbol) (x : String) :
    (f.add s).lookup? x = if s.name = x then some s else f.lookup? x := by
  by_cases hx : s.name = x <;>
    simp [ScopeFrame.lookup?, ScopeFrame.add, List.findSome?_cons, Std.TreeMap.getElem?_insert, hx]

/-- A block just entered defines nothing. -/
theorem lookup?_enter (f : ScopeFrame) (x : String) :
    ({ f with block := ∅, outer := f.block :: f.outer } : ScopeFrame).lookup? x = f.lookup? x := by
  simp [ScopeFrame.lookup?, List.findSome?_cons]

theorem FrameFits.define (h : FrameFits vars f) (x : String) (hslot : f.nextSlot < 256) :
    FrameFits (x :: vars) ({ f with
      nextSlot := f.nextSlot + 1, slots := max f.slots (f.nextSlot + 1) }.add
        ⟨x, .frame, f.nextSlot⟩) := by
  have hnext := h.next
  have hlimit := h.limit
  refine ⟨fun y => ?_, by simp [ScopeFrame.add, hnext], ?_, ?_⟩
  · rw [lookup?_add]
    have hlookup := h.lookup y
    simp only [ScopeFrame.lookup?] at hlookup ⊢
    simp only [slotOf, hnext]
    by_cases hx : x = y
    · simp [hx]
    · simp [hx, hlookup]
  · simp only [ScopeFrame.add, List.length_cons]
    omega
  · simp only [ScopeFrame.add]
    omega

/-- A definition takes the next slot, or the next cell outside of functions. -/
theorem Fits.define (h : Fits Γ t) {s : Symbol} (hd : t.define x = (s, t'))
    (hslot : s.storage = .frame → s.index < 256) :
    Fits (Γ.define x) t' ∧ Moves (fun _ => False) Γ.around? t t' ∧
      (∀ captured, (Γ.define x).resolve captured x = some (s.storage, s.index)) ∧
      ((s.storage = .frame ∧ s.index < t'.current.slots) ∨
        (s.storage = .global ∧ s.index < t'.globals)) := by
  have hframes := h.frames
  cases hf : Γ.functions with
  | nil =>
    have ht := h.functions_eq_nil.mpr hf
    simp only [SymbolTable.define, ht, Prod.mk.injEq] at hd
    obtain ⟨rfl, rfl⟩ := hd
    rw [Names.define_outside hf]
    refine ⟨⟨?_, fun y => ?_, ?_, fun y cell hy => ?_, h.builtins, h.slots⟩, ?_, ?_, ?_⟩
    · simpa [hf, ht] using hframes
    · rw [lookup?_add]
      simp only [List.lookup_cons, h.outside, h.cells]
      by_cases hx : x = y
      · simp [hx]
      · have : (y == x) = false := by simpa using fun he => hx he.symm
        simp [hx, this]
    · simp [h.cells]
    · simp only [List.lookup_cons] at hy
      split at hy
      · obtain rfl : Γ.cell = cell := by simpa using hy
        exact Nat.lt_succ_self _
      · exact Nat.lt_succ_of_lt (h.bound y cell hy)
    · simp [Moves, Names.around?, hf, ht, ScopeFrame.add]
    · simp [Names.resolve, Names.outer, hf, h.cells]
    · exact Or.inr ⟨rfl, by simp⟩
  | cons vars around =>
    cases ht : t.functions with
    | nil =>
      rw [hf, ht] at hframes
      exact hframes.elim
    | cons f fs =>
      rw [hf, ht] at hframes
      simp only [SymbolTable.define, ht, Prod.mk.injEq] at hd
      obtain ⟨rfl, rfl⟩ := hd
      rw [Names.define_inside hf]
      have hnext := hframes.1.next
      refine ⟨⟨⟨hframes.1.define x (hslot rfl), hframes.2.1, hframes.2.2⟩, h.outside, h.cells,
        h.bound, h.builtins, h.slots⟩, ⟨rfl, ?_⟩, ?_, ?_⟩
      · simp only [Names.around?, hf, ht, List.tail?_cons]
        refine ⟨trivial, trivial, ⟨rfl, ?_, List.prefix_refl _, fun y => ?_⟩, ?_⟩
        · simp only [ScopeFrame.add]
          omega
        · simp [ScopeFrame.captured, ScopeFrame.add]
        · exact Grow.refl hframes.2.2 fun _ hx => hx.elim
      · simp [Names.resolve, Names.own, slotOf, hnext]
      · refine Or.inl ⟨rfl, ?_⟩
        simp only [SymbolTable.current, ScopeFrame.add]
        omega

/-- Names are slots of a function's frame inside of functions and global cells outside. -/
theorem Fits.define_storage (h : Fits Γ t) {s : Symbol} (hd : t.define x = (s, t')) :
    (s.storage = .frame ∧ Γ.functions ≠ []) ∨ (s.storage = .global ∧ Γ.functions = []) := by
  cases ht : t.functions with
  | nil =>
    simp only [SymbolTable.define, ht, Prod.mk.injEq] at hd
    exact Or.inr ⟨hd.1 ▸ rfl, h.functions_eq_nil.mp ht⟩
  | cons f fs =>
    simp only [SymbolTable.define, ht, Prod.mk.injEq] at hd
    exact Or.inl ⟨hd.1 ▸ rfl, fun hf => by simp [h.functions_eq_nil.mpr hf] at ht⟩

theorem Fits.enterBlock (h : Fits Γ t) : Fits Γ t.enterBlock := by
  have hframes := h.frames
  cases hf : Γ.functions with
  | nil =>
    have ht := h.functions_eq_nil.mpr hf
    refine ⟨?_, fun y => ?_, ?_, h.bound, ?_, ?_⟩
    · simpa [SymbolTable.enterBlock, SymbolTable.setCurrent, SymbolTable.current, hf, ht]
        using hframes
    · have := lookup?_enter t.outside y
      simp only [SymbolTable.enterBlock, SymbolTable.setCurrent, SymbolTable.current, ht]
      rw [this, h.outside]
    · simp [SymbolTable.enterBlock, SymbolTable.setCurrent, SymbolTable.current, ht, h.cells]
    · simp [SymbolTable.enterBlock, SymbolTable.setCurrent, SymbolTable.current, ht, h.builtins]
    · simp [SymbolTable.enterBlock, SymbolTable.setCurrent, SymbolTable.current, ht, h.slots]
  | cons vars around =>
    cases ht : t.functions with
    | nil =>
      rw [hf, ht] at hframes
      exact hframes.elim
    | cons f fs =>
      rw [hf, ht] at hframes
      simp only [SymbolTable.enterBlock, SymbolTable.setCurrent, SymbolTable.current, ht]
      refine ⟨?_, h.outside, h.cells, h.bound, h.builtins, h.slots⟩
      rw [hf]
      refine ⟨⟨fun y => ?_, hframes.1.next, hframes.1.slots, hframes.1.limit⟩, hframes.2.1,
        hframes.2.2⟩
      rw [lookup?_enter, hframes.1.lookup]

/-- Behind a block the names from before it are in force again. -/
theorem Fits.leaveBlock (h : Fits Γ t) (h' : Fits Γ' t')
    (hm : Moves used Γ.around? t.enterBlock t') (haround : Γ'.around? = Γ.around?)
    (hcell : Γ.cell ≤ Γ'.cell) :
    Fits (Γ.leave Γ') t'.leaveBlock ∧ Moves used Γ.around? t t'.leaveBlock := by
  obtain ⟨hmarks, hm⟩ := hm
  have hfit := h.frames
  have hfit' := h'.frames
  have hbound : ∀ y cell, Γ.globals.lookup y = some cell → cell < Γ'.cell := fun y cell hy =>
    Nat.lt_of_lt_of_le (h.bound y cell hy) hcell
  cases hf : Γ.functions with
  | nil =>
    have ht := h.functions_eq_nil.mpr hf
    cases ht' : t'.functions with
    | cons f' fs' =>
      simp [Names.around?, hf, ht, ht', SymbolTable.enterBlock, SymbolTable.setCurrent,
        SymbolTable.current] at hm
    | nil =>
      simp only [Names.around?, hf, ht, ht', SymbolTable.enterBlock, SymbolTable.setCurrent,
        SymbolTable.current, List.tail?_nil] at hm hmarks
      simp only [SymbolTable.leaveBlock, SymbolTable.current, SymbolTable.setCurrent, ht', hm,
        hmarks]
      refine ⟨⟨by simp [hf, FramesFit], ?_, h'.cells, hbound, h'.builtins, h'.slots⟩, rfl, ?_⟩
      · exact h.outside
      · simp [Names.around?, hf, ht]
  | cons vars around =>
    cases ht : t.functions with
    | nil =>
      rw [hf, ht] at hfit
      exact hfit.elim
    | cons f fs =>
      cases ht' : t'.functions with
      | nil =>
        simp [Names.around?, hf, ht, ht', SymbolTable.enterBlock, SymbolTable.setCurrent,
          SymbolTable.current] at hm
      | cons f' fs' =>
        cases hf' : Γ'.functions with
        | nil => simp [Names.around?, hf, hf'] at haround
        | cons vars' around' =>
          obtain rfl : around' = around := by simpa [Names.around?, hf, hf'] using haround
          simp only [Names.around?, hf, ht, ht', SymbolTable.enterBlock, SymbolTable.setCurrent,
            SymbolTable.current, List.tail?_cons] at hm hmarks
          rw [hf, ht] at hfit
          rw [hf', ht'] at hfit'
          obtain ⟨houtside, hglobals, hframe, hgrow⟩ := hm
          simp only [SymbolTable.leaveBlock, SymbolTable.current, SymbolTable.setCurrent, ht',
            hframe.outer, hmarks]
          refine ⟨⟨?_, ?_, h'.cells, hbound, h'.builtins, h'.slots⟩, rfl, ?_⟩
          · simp only [Names.leave_functions, hf]
            refine ⟨⟨?_, hfit.1.next, ?_, hfit'.1.limit⟩, hfit'.2.1, hfit'.2.2⟩
            · exact hfit.1.lookup
            · exact Nat.le_trans hfit.1.slots hframe.slots
          · simpa [houtside] using h.outside
          · simp only [Names.around?, hf, ht, List.tail?_cons]
            exact ⟨houtside, hglobals, ⟨rfl, hframe.slots, hframe.free, hframe.captured⟩, hgrow⟩

/-- The names at the start of a function, before its parameters. -/
theorem Fits.enterFunction (h : Fits Γ t) :
    Fits { Γ with functions := [] :: Γ.functions } t.enterFunction := by
  refine ⟨⟨⟨fun y => ?_, rfl, ?_, ?_⟩, ?_, h.frames⟩, h.outside, h.cells, h.bound, h.builtins,
    h.slots⟩
  · simp [ScopeFrame.lookup?, ScopeFrame.empty, slotOf]
  · simp
  · simp [ScopeFrame.empty]
  · simp [ScopeFrame.empty]

/-- Behind a function its captures are the variables around it that it uses. -/
theorem Fits.leaveFunction (h : Fits Γ t) (h' : Fits Γ' t')
    (hm : Moves used (some Γ.functions) t.enterFunction t')
    (hΓ : Γ'.around? = some Γ.functions) :
    ∃ f' fs', t'.functions = f' :: fs' ∧ Fits Γ { t' with functions := fs' } ∧
      Moves (fun x => used x ∧ x ∉ Γ.vars) Γ.around? t { t' with functions := fs' } ∧
      f'.slots ≤ 256 ∧ (∀ σ ∈ f'.free, Owned σ Γ.functions fs') ∧
      ∀ x, x ∈ f'.captured ↔ used x ∧ x ∈ Γ.functions.flatten := by
  obtain ⟨hmarks, hm⟩ := hm
  have hfit' := h'.frames
  cases ht' : t'.functions with
  | nil => simp [SymbolTable.enterFunction, ht'] at hm
  | cons f' fs' =>
    simp only [SymbolTable.enterFunction, ht'] at hm hmarks
    obtain ⟨houtside, hglobals, hframe, hgrow⟩ := hm
    cases hf' : Γ'.functions with
    | nil => simp [Names.around?, hf'] at hΓ
    | cons vars' around' =>
      obtain rfl : around' = Γ.functions := by simpa [Names.around?, hf'] using hΓ
      rw [hf', ht'] at hfit'
      refine ⟨f', fs', rfl, ⟨hfit'.2.2, ?_, ?_, h.bound, h'.builtins, h'.slots⟩,
        Moves.of_grow hgrow hmarks houtside hglobals, hfit'.1.limit, hfit'.2.1, fun y => ?_⟩
      · simpa [houtside] using h.outside
      · simpa [hglobals] using h.cells
      · rw [hframe.captured]
        simp [ScopeFrame.captured, ScopeFrame.empty]

@[simp] theorem leaveBlock_globals (t : SymbolTable) : t.leaveBlock.globals = t.globals := by
  unfold SymbolTable.leaveBlock SymbolTable.setCurrent SymbolTable.current
  cases t.functions <;> cases t.marks <;> rfl

@[simp] theorem leaveBlock_slots (t : SymbolTable) :
    t.leaveBlock.current.slots = t.current.slots := by
  unfold SymbolTable.leaveBlock SymbolTable.setCurrent SymbolTable.current
  cases t.functions with
  | nil => cases t.marks <;> cases h : t.outside.outer <;> simp [h]
  | cons f fs => cases t.marks <;> cases h : f.outer <;> simp [h]

@[simp] theorem leaveBlock_captured (t : SymbolTable) :
    capturedIn t.leaveBlock.functions = capturedIn t.functions := by
  unfold SymbolTable.leaveBlock SymbolTable.setCurrent SymbolTable.current
  cases hf : t.functions with
  | nil => cases t.marks <;> cases h : t.outside.outer <;> simp
  | cons f fs =>
    cases t.marks <;> cases h : f.outer <;> simp [h, capturedIn, ScopeFrame.captured]

end ScriptEngine.Layout
