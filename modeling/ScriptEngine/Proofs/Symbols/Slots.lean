import ScriptEngine.Proofs.Symbols.Captures
/-!
Slots. The definitions in the open blocks of a function fill its slots from the bottom without a gap,
so no two share one, and the stack of marks is made of the blocks of the open functions, one function
after the other: the mark on top belongs to the block that is left.
-/
namespace ScriptEngine.Symbols

variable {x : String} {σ τ : Symbol} {f g : ScopeFrame} {fs gs : List ScopeFrame} {a : Scope}
  {as : List Scope} {s s' : Session} {call : TableCall} {storage : Storage} {l l' : List Symbol}

/-- Definitions, the latest first, that were given slots in order from the bottom. -/
def Numbered (storage : Storage) : List Symbol → Prop
  | [] => True
  | σ :: rest => σ.storage = storage ∧ σ.index = rest.length ∧ Numbered storage rest

theorem Numbered.of_append (h : Numbered storage (l ++ l')) : Numbered storage l' := by
  induction l with
  | nil => exact h
  | cons σ l ih => exact ih h.2.2

theorem Numbered.mem (h : Numbered storage l) (hσ : σ ∈ l) :
    σ.storage = storage ∧ σ.index < l.length := by
  induction l with
  | nil => cases hσ
  | cons τ l ih =>
    rw [List.length_cons]
    rcases List.mem_cons.mp hσ with rfl | hσ
    · exact ⟨h.1, by have := h.2.1; omega⟩
    · obtain ⟨hstorage, hlt⟩ := ih h.2.2 hσ
      exact ⟨hstorage, by omega⟩

theorem Numbered.nodup (h : Numbered storage l) : (l.map (·.index)).Nodup := by
  induction l with
  | nil => exact .nil
  | cons σ l ih =>
    rw [List.map_cons, List.nodup_cons]
    refine ⟨fun hmem => ?_, ih h.2.2⟩
    obtain ⟨τ, hτ, heq⟩ := List.mem_map.mp hmem
    have := (h.2.2.mem hτ).2
    have := h.2.1
    omega

/-- Counted from the first one, each definition has its number for a slot. -/
theorem Numbered.index (h : Numbered storage l) {k : Nat} (hσ : l.reverse[k]? = some σ) :
    σ.storage = storage ∧ σ.index = k := by
  induction l generalizing k with
  | nil => cases hσ
  | cons τ l ih =>
    rw [List.reverse_cons] at hσ
    by_cases hk : k < l.length
    · rw [List.getElem?_append_left (by simpa using hk)] at hσ
      exact ih h.2.2 hσ
    · obtain ⟨hlt, heq⟩ := List.getElem?_eq_some_iff.mp hσ
      have hk : k = l.length := by simp at hlt; omega
      subst hk
      have hτ : τ = σ := by simpa using heq
      exact hτ ▸ ⟨h.1, h.2.1⟩

/-- The definitions in some blocks. -/
def inBlocks (blocks : List OpenBlock) : List Symbol := blocks.flatMap (·.definitions)

/-- Every block was entered when the blocks around it had filled the slots below. -/
def Entered : List OpenBlock → Prop
  | [] => True
  | b :: outer => b.entered = (inBlocks outer).length ∧ Entered outer

/-- The marks of the blocks of a function; what the function itself starts with has none. -/
def Scope.marks (a : Scope) : List Nat := ((a.block :: a.outer).map (·.entered)).dropLast

theorem Scope.marks_leave {block : OpenBlock} {outer : List OpenBlock}
    (h : a.outer = block :: outer) :
    a.marks = a.block.entered :: Scope.marks { a with block, outer } := by
  unfold Scope.marks
  rw [h]
  rfl

theorem Scope.answer_eq (a : Scope) (answer : Option Symbol) :
    ∃ answers, a.answer answer = { a with answers } := by
  unfold Scope.answer
  split
  · split <;> exact ⟨_, rfl⟩
  · exact ⟨_, rfl⟩

theorem Scope.peak_define (a : Scope) (σ : Symbol) :
    (a.define σ).peak = max a.peak (σ.index + 1) := by
  unfold Scope.peak Scope.define
  rw [List.map_cons, List.max?_cons]
  cases (a.made.map (·.index)).max? with
  | none => simp
  | some m => simp; omega

/-- The definitions in the open blocks of a function fill its slots from the bottom. -/
structure Fills (a : Scope) (f : ScopeFrame) : Prop where
  numbered : Numbered .frame a.visible
  next : f.nextSlot = a.visible.length
  entered : Entered (a.block :: a.outer)
  slots : f.slots = a.peak
  bound : f.nextSlot ≤ f.slots

theorem fills_empty : Fills .empty .empty := ⟨trivial, rfl, ⟨rfl, trivial⟩, rfl, Nat.le_refl _⟩

theorem Fills.with_free (h : Fills a f) (free : List Symbol) : Fills a { f with free } :=
  ⟨h.numbered, h.next, h.entered, h.slots, h.bound⟩

theorem Fills.answers (h : Fills a f) (answers : List Symbol) : Fills { a with answers } f :=
  ⟨h.numbered, h.next, h.entered, h.slots, h.bound⟩

theorem Fills.define (h : Fills a f) (x : String) : Fills (a.define ⟨x, .frame, f.nextSlot⟩)
    ({ f with nextSlot := f.nextSlot + 1, slots := max f.slots (f.nextSlot + 1) }.add
      ⟨x, .frame, f.nextSlot⟩) where
  numbered := ⟨rfl, h.next, h.numbered⟩
  next := congrArg (· + 1) h.next
  entered := h.entered
  slots := by
    rw [Scope.peak_define, ← h.slots]
    rfl
  bound := Nat.le_max_right _ _

theorem Fills.enter (h : Fills a f) (block : ScopeBlock) (outer : List ScopeBlock) :
    Fills (a.enter f.nextSlot) { f with block, outer } :=
  ⟨h.numbered, h.next, ⟨h.next, h.entered⟩, h.slots, h.bound⟩

theorem Fills.leave {block : OpenBlock} {outer : List OpenBlock} (h : Fills a f)
    (ha : a.outer = block :: outer) (b : ScopeBlock) (bs : List ScopeBlock) :
    Fills { a with block, outer } { f with block := b, outer := bs, nextSlot := a.block.entered } := by
  have hentered := h.entered
  have hnumbered := h.numbered
  unfold Scope.visible at hnumbered
  rw [ha] at hentered hnumbered
  refine ⟨hnumbered.of_append, hentered.1, hentered.2, h.slots, ?_⟩
  have hvisible : a.visible.length = a.block.definitions.length + (inBlocks (block :: outer)).length := by
    unfold Scope.visible inBlocks
    rw [ha, List.flatMap_cons, List.length_append]
  have := h.bound
  have := h.next
  have := hentered.1
  dsimp only
  omega

theorem More.fills (h : More fs gs) (hf : List.Forall₂ Fills as fs) : List.Forall₂ Fills as gs := by
  induction hf generalizing gs with
  | nil =>
    cases h
    exact .nil
  | cons hfill _ ih =>
    cases h with
    | cons hgrow hrest =>
      obtain ⟨free, rfl⟩ := hgrow
      exact .cons (hfill.with_free _) (ih hrest)

/-- The frame in force goes back to the slot marked last. -/
theorem leaveBlock_mark {t : SymbolTable} {m : Nat} {ms : List Nat} (h : t.marks = m :: ms) :
    ∃ block outer, t.leaveBlock =
      { t.setCurrent { t.current with block, outer, nextSlot := m } with marks := ms } := by
  unfold SymbolTable.leaveBlock
  simp only [h]
  cases t.current.outer with
  | nil => exact ⟨_, _, rfl⟩
  | cons block outer => exact ⟨block, outer, rfl⟩

/-- The slots of a table are those of the ledger of the calls on it. -/
structure Session.Tight (s : Session) : Prop where
  functions : List.Forall₂ Fills s.ledger.functions s.table.functions
  marks : s.table.marks =
    s.ledger.functions.flatMap Scope.marks ++ s.ledger.outside.marks
  /-- Outside of all functions there are no slots of a frame. -/
  next : s.table.outside.nextSlot = 0
  entered : ∀ n ∈ (s.ledger.outside.block :: s.ledger.outside.outer).map (·.entered), n = 0
  made : Numbered .global s.ledger.outside.made
  globals : s.table.globals = s.ledger.outside.made.length

theorem Session.tight_start (t : Option SymbolTable) : (Session.start t).Tight := by
  cases t with
  | none => exact ⟨.nil, rfl, rfl, by simp [start, Scope.empty], trivial, rfl⟩
  | some t => exact ⟨.cons fills_empty .nil, rfl, rfl, by simp [start, Scope.empty], trivial, rfl⟩

namespace Session.Tight

theorem define (h : s.Tight) (x : String) : Tight ⟨(s.table.define x).2,
    s.ledger.setCurrent (s.ledger.current.define (s.table.define x).1)⟩ := by
  obtain ⟨⟨_, fs, _, _, _⟩, ⟨_, as, _⟩⟩ := s
  obtain ⟨hfs, hmarks, hnext, hentered, hmade, hglobals⟩ := h
  cases hfs with
  | nil =>
    exact ⟨.nil, hmarks, hnext, hentered, ⟨rfl, hglobals, hmade⟩, congrArg (· + 1) hglobals⟩
  | cons hf hrest =>
    exact ⟨.cons (hf.define x) hrest, hmarks, hnext, hentered, hmade, hglobals⟩

theorem resolve (h : s.Tight) (x : String) : Tight ⟨(s.table.resolve x).2,
    s.ledger.setCurrent (s.ledger.current.answer (s.table.resolve x).1)⟩ := by
  obtain ⟨gs, heq, hmore⟩ := resolve_more s.table x
  obtain ⟨answers, ha⟩ := s.ledger.current.answer_eq (s.table.resolve x).1
  rw [heq, ha]
  have hfills := hmore.fills h.functions
  obtain ⟨table, ⟨_, as, _⟩⟩ := s
  obtain ⟨-, hmarks, hnext, hentered, hmade, hglobals⟩ := h
  cases hfills with
  | nil => exact ⟨.nil, hmarks, hnext, hentered, hmade, hglobals⟩
  | cons hf hrest => exact ⟨.cons (hf.answers _) hrest, hmarks, hnext, hentered, hmade, hglobals⟩

theorem enterBlock (h : s.Tight) : Tight ⟨s.table.enterBlock,
    s.ledger.setCurrent (s.ledger.current.enter s.table.current.nextSlot)⟩ := by
  obtain ⟨⟨_, fs, _, _, _⟩, ⟨_, as, _⟩⟩ := s
  obtain ⟨hfs, hmarks, hnext, hentered, hmade, hglobals⟩ := h
  cases hfs with
  | nil =>
    refine ⟨.nil, congrArg (_ :: ·) hmarks, hnext, ?_, hmade, hglobals⟩
    exact List.forall_mem_cons.mpr ⟨hnext, hentered⟩
  | cons hf hrest =>
    exact ⟨.cons (hf.enter _ _) hrest, congrArg (_ :: ·) hmarks, hnext, hentered, hmade, hglobals⟩

/-- The mark on top is that of the innermost block of the function in force. -/
theorem mark {block : OpenBlock} {outer : List OpenBlock} (h : s.Tight)
    (hleft : s.ledger.current.outer = block :: outer) :
    ∃ ms, s.table.marks = s.ledger.current.block.entered :: ms := by
  rw [h.marks]
  unfold Ledger.current at hleft ⊢
  cases ha : s.ledger.functions with
  | nil =>
    rw [ha] at hleft
    rw [Scope.marks_leave hleft]
    exact ⟨_, rfl⟩
  | cons a as =>
    rw [ha] at hleft
    rw [List.flatMap_cons, Scope.marks_leave hleft]
    exact ⟨_, rfl⟩

theorem leaveBlock {block : OpenBlock} {outer : List OpenBlock} (h : s.Tight)
    (hleft : s.ledger.current.outer = block :: outer) :
    Tight ⟨s.table.leaveBlock, s.ledger.setCurrent { s.ledger.current with block, outer }⟩ := by
  obtain ⟨ms, hmark⟩ := h.mark hleft
  obtain ⟨b, bs, heq⟩ := leaveBlock_mark hmark
  rw [heq]
  obtain ⟨⟨_, fs, _, _, _⟩, ⟨_, as, a⟩⟩ := s
  obtain ⟨hfs, hmarks, hnext, hentered, hmade, hglobals⟩ := h
  cases hfs with
  | nil =>
    have hms := hmark.symm.trans hmarks
    rw [List.flatMap_nil, List.nil_append, Scope.marks_leave (a := a) hleft] at hms
    refine ⟨.nil, (List.cons.inj hms).2, hentered _ List.mem_cons_self, fun n hn => ?_, hmade,
      hglobals⟩
    rw [List.map_cons] at hentered
    exact hentered n (List.mem_cons_of_mem _ (hleft ▸ hn))
  | @cons c _ _ _ hf hrest =>
    have hms := hmark.symm.trans hmarks
    rw [List.flatMap_cons, Scope.marks_leave (a := c) hleft] at hms
    exact ⟨.cons (hf.leave hleft b bs) hrest, (List.cons.inj hms).2, hnext, hentered, hmade,
      hglobals⟩

theorem enterFunction (h : s.Tight) : Tight ⟨s.table.enterFunction,
    { s.ledger with functions := .empty :: s.ledger.functions }⟩ :=
  ⟨.cons fills_empty h.functions, h.marks, h.next, h.entered, h.made, h.globals⟩

theorem leaveFunction {functions : List Scope} (h : s.Tight)
    (hleft : s.ledger.functions = a :: functions) (ha : a.outer = []) :
    Tight ⟨s.table.leaveFunction.2, { s.ledger with functions }⟩ := by
  obtain ⟨⟨_, fs, _, _, _⟩, ⟨_, as, _⟩⟩ := s
  obtain ⟨hfs, hmarks, hnext, hentered, hmade, hglobals⟩ := h
  cases hleft
  have hnone : a.marks = [] := by
    unfold Scope.marks
    rw [ha]
    rfl
  rw [List.flatMap_cons, hnone] at hmarks
  cases hfs with
  | cons _ hrest => exact ⟨hrest, hmarks, hnext, hentered, hmade, hglobals⟩

end Session.Tight

theorem Session.tight_next (h : s.Tight) (hcall : s.next call = some s') : s'.Tight := by
  cases call with
  | builtin x i =>
    cases hcall
    exact ⟨h.functions, h.marks, h.next, h.entered, h.made, h.globals⟩
  | define x => cases hcall; exact h.define x
  | resolve x => cases hcall; exact h.resolve x
  | enterBlock => cases hcall; exact h.enterBlock
  | leaveBlock =>
    obtain ⟨block, outer, hleft, rfl⟩ := next_leaveBlock hcall
    exact h.leaveBlock hleft
  | enterFunction => cases hcall; exact h.enterFunction
  | leaveFunction =>
    obtain ⟨a, functions, hleft, ha, rfl⟩ := next_leaveFunction hcall
    exact h.leaveFunction hleft ha

/-- Variables that are in use at the same time have slots of their own. -/
structure Session.Apart (s : Session) : Prop where
  /-- Every open function has its frame. -/
  frames : s.table.functions.length = s.ledger.functions.length
  /-- All definitions made in the open blocks of a function have slots of their own, those that were
  replaced too, below the next slot and within the slots of the frame. -/
  apart : ∀ (k : Nat) (a : Scope) (f : ScopeFrame),
    s.ledger.functions[k]? = some a → s.table.functions[k]? = some f →
    (a.visible.map (·.index)).Nodup ∧
    (∀ σ ∈ a.visible, σ.storage = .frame ∧ σ.index < f.nextSlot) ∧ f.nextSlot ≤ f.slots
  /-- The next slot after a block is what it was when the block was entered. -/
  restored : ∀ s', s.next .leaveBlock = some s' →
    s'.table.current.nextSlot = s.ledger.current.block.entered
  /-- A function has one slot more than the largest ever given out in it, or none. -/
  counted : ∀ a around, s.ledger.functions = a :: around → s.table.leaveFunction.1.1 = a.peak
  /-- Global slots are given out in order and never again. -/
  numbered : ∀ (k : Nat) (σ : Symbol), s.ledger.outside.made.reverse[k]? = some σ →
    σ.storage = .global ∧ σ.index = k
  globals : s.table.globals = s.ledger.outside.made.length

namespace Session.Tight

theorem innermost (h : s.Tight) (ha : s.ledger.functions = a :: as) :
    ∃ f fs, s.table.functions = f :: fs ∧ Fills a f := by
  have hfills := h.functions
  rw [ha] at hfills
  cases hf : s.table.functions with
  | nil => rw [hf] at hfills; cases hfills
  | cons f fs =>
    rw [hf] at hfills
    cases hfills with
    | cons hfill _ => exact ⟨f, fs, rfl, hfill⟩

theorem restores (h : s.Tight) (hcall : s.next .leaveBlock = some s') :
    s'.table.current.nextSlot = s.ledger.current.block.entered := by
  obtain ⟨block, outer, hleft, rfl⟩ := next_leaveBlock hcall
  obtain ⟨ms, hmark⟩ := h.mark hleft
  obtain ⟨b, bs, heq⟩ := leaveBlock_mark hmark
  rw [heq]
  unfold SymbolTable.setCurrent SymbolTable.current
  cases s.table.functions <;> rfl

theorem counts (h : s.Tight) (ha : s.ledger.functions = a :: as) :
    s.table.leaveFunction.1.1 = a.peak := by
  obtain ⟨f, fs, hf, hfill⟩ := h.innermost ha
  unfold SymbolTable.leaveFunction
  rw [hf]
  exact hfill.slots

end Session.Tight

/-- After any calls on a new table or on the table for a module, no two variables that are in use
share a slot. -/
theorem slots_are_apart (t : Option SymbolTable) (calls : List TableCall) (s : Session)
    (h : (Session.start t).run calls = some s) : s.Apart := by
  have hs : s.Tight := Session.run_induction (P := Session.Tight) Session.tight_start
    Session.tight_next h
  refine ⟨hs.functions.length_eq.symm, fun k a f ha hf => ?_, fun _ => hs.restores,
    fun _ _ => hs.counts, fun _ _ => hs.made.index, hs.globals⟩
  obtain ⟨hlt, rfl⟩ := List.getElem?_eq_some_iff.mp ha
  obtain ⟨hlt', rfl⟩ := List.getElem?_eq_some_iff.mp hf
  have hfill := hs.functions.get hlt hlt'
  refine ⟨hfill.numbered.nodup, fun σ hσ => ?_, hfill.bound⟩
  obtain ⟨hstorage, hindex⟩ := hfill.numbered.mem hσ
  exact ⟨hstorage, hfill.next ▸ hindex⟩

/-- A block with a function in it, left and followed by another definition. -/
def blockCalls : List TableCall :=
  [.define "g", .enterFunction, .define "x", .enterBlock, .define "x", .enterFunction, .define "y",
    .leaveFunction, .define "z", .leaveBlock, .define "w"]

/-- The slot of the block is given out again, and the function has as many slots as were ever in use
at once. -/
theorem slots_are_apart_block :
    (∃ s, (Session.start none).run blockCalls = some s ∧ s.Apart) ∧
    ((Session.start none).run blockCalls).map (fun s => ((s.table.resolve "w").1,
      s.table.current.nextSlot, s.table.leaveFunction.1, s.table.globals)) =
      some (some ⟨"w", .frame, 1⟩, 2, (3, []), 1) := by
  constructor
  · obtain ⟨s, hs⟩ := Option.isSome_iff_exists.mp
      (show ((Session.start none).run blockCalls).isSome = true by decide +kernel)
    exact ⟨s, hs, slots_are_apart none blockCalls s hs⟩
  · decide +kernel

end ScriptEngine.Symbols
