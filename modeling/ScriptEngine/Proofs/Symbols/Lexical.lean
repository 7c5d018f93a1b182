import ScriptEngine.Proofs.Symbols.Captures
/-!
Name resolution is lexical scoping. After any calls the table agrees with the ledger of what is open,
so a look-up finds the variable that the ledger selects, through captures that are told outward and
that keep their places.
-/
namespace ScriptEngine.Symbols

variable {x : String} {σ τ : Symbol} {i : Nat} {f g : ScopeFrame} {fs gs : List ScopeFrame}
  {a : Scope} {as : List Scope} {storage : Storage} {s s' : Session} {call : TableCall}

theorem Keeps.define (h : Keeps storage a f) (hσ : σ.storage = storage)
    (hblock : g.block = f.block.insert σ.name σ) (houter : g.outer = f.outer) :
    Keeps storage (a.define σ) g := by
  refine ⟨?_, fun τ hτ => ?_⟩
  · cases h.blocks with
    | cons hinner hrest =>
      rw [hblock, houter]
      exact .cons (hinner.insert σ) hrest
  · rcases List.mem_cons.mp hτ with rfl | hτ
    · exact hσ
    · exact h.storage τ hτ

theorem Keeps.enter (h : Keeps storage a f) (n : Nat) (hblock : g.block = ∅)
    (houter : g.outer = f.block :: f.outer) : Keeps storage (a.enter n) g :=
  ⟨by rw [hblock, houter]; exact .cons holds_empty h.blocks, fun τ hτ => h.storage τ hτ⟩

theorem Keeps.leave {block : OpenBlock} {outer : List OpenBlock} (h : Keeps storage a f)
    (ha : a.outer = block :: outer) (hg : f.outer = g.block :: g.outer) :
    Keeps storage { a with block, outer } g := by
  refine ⟨?_, fun τ hτ => h.storage τ ?_⟩
  · have hblocks := h.blocks
    rw [ha, hg] at hblocks
    cases hblocks with
    | cons _ hrest => exact hrest
  · unfold Scope.visible
    rw [ha]
    exact List.mem_append_right _ hτ

theorem Keeps.outer {block : OpenBlock} {outer : List OpenBlock} (h : Keeps storage a f)
    (ha : a.outer = block :: outer) : ∃ b bs, f.outer = b :: bs := by
  have hblocks := h.blocks
  rw [ha] at hblocks
  cases hblocks with
  | cons _ hrest =>
    cases hf : f.outer with
    | nil => rw [hf] at hrest; cases hrest
    | cons b bs => exact ⟨b, bs, rfl⟩

/-- The frame in force goes back to the block around. -/
theorem leaveBlock_outer {t : SymbolTable} {b : ScopeBlock} {bs : List ScopeBlock}
    (h : t.current.outer = b :: bs) : ∃ nextSlot marks, t.leaveBlock =
      { t.setCurrent { t.current with block := b, outer := bs, nextSlot } with marks } := by
  unfold SymbolTable.leaveBlock
  simp only [h]
  cases t.marks with
  | nil => exact ⟨_, _, rfl⟩
  | cons mark marks => exact ⟨mark, marks, rfl⟩

theorem Keeps.answer (h : Keeps storage a f) (answer : Option Symbol) :
    Keeps storage (a.answer answer) f := by
  unfold Scope.answer
  split
  · split
    · exact ⟨h.blocks, h.storage⟩
    · exact h
  · exact h

/-- The captures that names were resolved to are still in their places. -/
def Answers (a : Scope) (f : ScopeFrame) : Prop :=
  ∀ σ ∈ a.answers, σ.storage = .free ∧ ∃ τ, f.free[σ.index]? = some τ ∧ τ.name = σ.name

theorem Answers.more (h : Answers a f) (free : List Symbol) :
    Answers a { f with free := f.free ++ free } := by
  intro σ hσ
  obtain ⟨hstorage, τ, hτ, hname⟩ := h σ hσ
  obtain ⟨hlt, -⟩ := List.getElem?_eq_some_iff.mp hτ
  exact ⟨hstorage, τ, (List.getElem?_append_left hlt).trans hτ, hname⟩

theorem More.answers (h : More fs gs) (ha : List.Forall₂ Answers as fs) :
    List.Forall₂ Answers as gs := by
  induction ha generalizing gs with
  | nil =>
    cases h
    exact .nil
  | cons hans _ ih =>
    cases h with
    | cons hgrow hrest =>
      obtain ⟨free, rfl⟩ := hgrow
      exact .cons (hans.more free) (ih hrest)

/-- An answer that the frame gives is kept with the others. -/
theorem Answers.answer (h : Answers a f) (hσ : Knows f x σ)
    (hvariable : ∀ τ, f.lookup? x = some τ → τ.storage = .frame) :
    Answers (a.answer (some σ)) f := by
  unfold Scope.answer
  dsimp only
  split
  · rename_i hfree
    intro τ hτ
    rcases List.mem_cons.mp hτ with rfl | hτ
    · refine ⟨hfree, ?_⟩
      cases hσ with
      | own hown => rw [hvariable _ hown] at hfree; cases hfree
      | captured hnone hidx => exact Knows.free (.captured hnone hidx) hnone
    · exact h τ hτ
  · exact h

/-- A table agrees with the ledger of the calls on it. -/
structure Session.Agrees (s : Session) : Prop where
  functions : List.Forall₂ (Keeps .frame) s.ledger.functions s.table.functions
  outside : Keeps .global s.ledger.outside s.table.outside
  builtins : ∀ x, s.table.builtins[x]?.map (⟨x, .builtin, ·⟩) =
    s.ledger.builtins.find? (·.name = x)
  linked : Linked s.table.functions
  answers : List.Forall₂ Answers s.ledger.functions s.table.functions

theorem find?_toList (b : Std.TreeMap String Nat) (x : String) :
    (b.toList.map fun (y, i) => (⟨y, .builtin, i⟩ : Symbol)).find? (·.name = x) =
      b[x]?.map (⟨x, .builtin, ·⟩) := by
  cases hx : b[x]? with
  | none =>
    rw [Option.map_none, List.find?_eq_none]
    rintro σ hσ hname
    obtain ⟨⟨y, i⟩, hmem, rfl⟩ := List.mem_map.mp hσ
    obtain rfl : y = x := of_decide_eq_true hname
    rw [Std.TreeMap.mem_toList_iff_getElem?_eq_some, hx] at hmem
    cases hmem
  | some i =>
    have hmem : (⟨x, .builtin, i⟩ : Symbol) ∈
        b.toList.map fun (y, i) => (⟨y, .builtin, i⟩ : Symbol) :=
      List.mem_map.mpr ⟨(x, i), Std.TreeMap.mem_toList_iff_getElem?_eq_some.mpr hx, rfl⟩
    cases hfind : (b.toList.map fun (y, i) => (⟨y, .builtin, i⟩ : Symbol)).find? (·.name = x) with
    | none => exact absurd (List.find?_eq_none.mp hfind _ hmem) (by simp)
    | some σ =>
      obtain ⟨⟨y, j⟩, hσ, rfl⟩ := List.mem_map.mp (List.mem_of_find?_eq_some hfind)
      obtain rfl : y = x := by simpa using List.find?_some hfind
      rw [Std.TreeMap.mem_toList_iff_getElem?_eq_some, hx] at hσ
      cases hσ
      rfl

theorem Session.agrees_start (t : Option SymbolTable) : (Session.start t).Agrees := by
  cases t with
  | none => exact ⟨.nil, keeps_empty, fun _ => by simp [start, SymbolTable.empty], trivial, .nil⟩
  | some t =>
    exact ⟨.cons keeps_empty .nil, keeps_empty, fun x => (find?_toList t.builtins x).symm,
      ⟨by simp [ScopeFrame.empty], by simp [ScopeFrame.empty], trivial⟩,
      .cons (fun _ h => by cases h) .nil⟩

namespace Session.Agrees

theorem builtin (h : s.Agrees) (x : String) (i : Nat) : Agrees ⟨s.table.defineBuiltin x i,
    { s.ledger with builtins := ⟨x, .builtin, i⟩ :: s.ledger.builtins }⟩ := by
  refine ⟨h.functions, h.outside, fun y => ?_, h.linked, h.answers⟩
  dsimp only [SymbolTable.defineBuiltin]
  rw [Std.TreeMap.getElem?_insert, List.find?_cons]
  by_cases hy : x = y
  · simp [hy]
  · have hne : ¬ compare x y = .eq := fun he => hy (Std.LawfulEqCmp.eq_of_compare he)
    simpa [hne, hy] using h.builtins y

theorem define (h : s.Agrees) (x : String) : Agrees ⟨(s.table.define x).2,
    s.ledger.setCurrent (s.ledger.current.define (s.table.define x).1)⟩ := by
  obtain ⟨⟨_, fs, _, _, _⟩, ⟨_, as, _⟩⟩ := s
  obtain ⟨hfs, houtside, hbuiltins, hlinked, hanswers⟩ := h
  cases hfs with
  | nil => exact ⟨.nil, houtside.define rfl rfl rfl, hbuiltins, hlinked, .nil⟩
  | cons hf hrest =>
    cases hanswers with
    | cons hans hanswers =>
      exact ⟨.cons (hf.define rfl rfl rfl) hrest, houtside, hbuiltins, hlinked,
        .cons hans hanswers⟩

theorem enterBlock (h : s.Agrees) : Agrees ⟨s.table.enterBlock,
    s.ledger.setCurrent (s.ledger.current.enter s.table.current.nextSlot)⟩ := by
  obtain ⟨⟨_, fs, _, _, _⟩, ⟨_, as, _⟩⟩ := s
  obtain ⟨hfs, houtside, hbuiltins, hlinked, hanswers⟩ := h
  cases hfs with
  | nil => exact ⟨.nil, houtside.enter _ rfl rfl, hbuiltins, hlinked, .nil⟩
  | cons hf hrest =>
    cases hanswers with
    | cons hans hanswers =>
      exact ⟨.cons (hf.enter _ rfl rfl) hrest, houtside, hbuiltins, hlinked, .cons hans hanswers⟩

theorem leaveBlock {block : OpenBlock} {outer : List OpenBlock} (h : s.Agrees)
    (hleft : s.ledger.current.outer = block :: outer) :
    Agrees ⟨s.table.leaveBlock, s.ledger.setCurrent { s.ledger.current with block, outer }⟩ := by
  obtain ⟨⟨_, fs, f, marks, _⟩, ⟨_, as, _⟩⟩ := s
  obtain ⟨hfs, houtside, hbuiltins, hlinked, hanswers⟩ := h
  cases hfs with
  | nil =>
    obtain ⟨b, bs, hf⟩ := houtside.outer hleft
    obtain ⟨_, _, heq⟩ := leaveBlock_outer (t := ⟨_, [], f, marks, _⟩) hf
    rw [heq]
    exact ⟨.nil, houtside.leave hleft hf, hbuiltins, hlinked, .nil⟩
  | @cons _ g _ gs hkeep hrest =>
    cases hanswers with
    | cons hans hanswers =>
      obtain ⟨b, bs, hg⟩ := hkeep.outer hleft
      obtain ⟨_, _, heq⟩ := leaveBlock_outer (t := ⟨_, g :: gs, f, marks, _⟩) hg
      rw [heq]
      exact ⟨.cons (hkeep.leave hleft hg) hrest, houtside, hbuiltins, hlinked,
        .cons hans hanswers⟩

theorem enterFunction (h : s.Agrees) : Agrees ⟨s.table.enterFunction,
    { s.ledger with functions := .empty :: s.ledger.functions }⟩ :=
  ⟨.cons keeps_empty h.functions, h.outside, h.builtins, 
    ⟨by simp [ScopeFrame.empty], by simp [ScopeFrame.empty], h.linked⟩,
    .cons (fun _ hσ => by cases hσ) h.answers⟩

theorem leaveFunction {functions : List Scope} (h : s.Agrees)
    (hleft : s.ledger.functions = a :: functions) :
    Agrees ⟨s.table.leaveFunction.2, { s.ledger with functions }⟩ := by
  obtain ⟨⟨_, fs, _, _, _⟩, ⟨_, as, _⟩⟩ := s
  obtain ⟨hfs, houtside, hbuiltins, hlinked, hanswers⟩ := h
  cases hleft
  cases hfs with
  | cons hf hrest =>
    cases hanswers with
    | cons hans hanswers => exact ⟨hrest, houtside, hbuiltins, hlinked.2.2, hanswers⟩

theorem storage_outside (h : s.Agrees) (hσ : s.table.outside.lookup? x = some σ) :
    σ.storage = .global :=
  h.outside.latest_storage ((h.outside.lookup x).symm.trans hσ)

theorem resolve_outside (h : s.Agrees) (hx : lexical x s.ledger.functions = none) :
    s.table.resolve x = (outsideMeaning s.table x, s.table) := by
  have hin := resolveIn_outside (t := s.table) (fun _ => h.storage_outside) h.linked h.functions hx
  unfold SymbolTable.resolve
  rw [hin]
  cases outsideMeaning s.table x <;> rfl

theorem resolve_variable {p : Nat × Symbol} (h : s.Agrees)
    (hx : lexical x s.ledger.functions = some p) : ∃ σ g gs,
      s.table.resolve x = (some σ, { s.table with functions := g :: gs }) ∧
      More s.table.functions (g :: gs) ∧ Linked (g :: gs) ∧ Knows g x σ := by
  obtain ⟨σ, g, gs, hin, hlinked, hknows⟩ :=
    resolveIn_variable (t := s.table) h.linked h.functions hx
  refine ⟨σ, g, gs, ?_, resolveIn_more hin, hlinked, hknows⟩
  unfold SymbolTable.resolve
  rw [hin]

theorem outsideMeaning_storage (h : s.Agrees) (hσ : outsideMeaning s.table x = some σ) :
    σ.storage ≠ .free := by
  unfold outsideMeaning at hσ
  cases hlookup : s.table.outside.lookup? x with
  | some τ =>
    rw [hlookup] at hσ
    cases hσ
    simp [h.storage_outside hlookup]
  | none =>
    rw [hlookup, Option.none_or] at hσ
    obtain ⟨i, -, rfl⟩ := Option.map_eq_some_iff.mp hσ
    simp

theorem resolve (h : s.Agrees) (x : String) : Agrees ⟨(s.table.resolve x).2,
    s.ledger.setCurrent (s.ledger.current.answer (s.table.resolve x).1)⟩ := by
  cases hx : lexical x s.ledger.functions with
  | none =>
    rw [h.resolve_outside hx]
    have hanswer : s.ledger.current.answer (outsideMeaning s.table x) = s.ledger.current := by
      unfold Scope.answer
      split
      · exact if_neg (h.outsideMeaning_storage ‹_›)
      · rfl
    rw [hanswer, s.ledger.setCurrent_current]
    exact h
  | some p =>
    obtain ⟨σ, g, gs, heq, hmore, hlinked, hknows⟩ := h.resolve_variable hx
    rw [heq]
    have hfs := hmore.keeps h.functions
    have hans := hmore.answers h.answers
    obtain ⟨table, ⟨_, as, _⟩⟩ := s
    cases hfs with
    | cons hkeep hrest =>
      cases hans with
      | cons hans hanswers =>
        refine ⟨.cons (hkeep.answer _) hrest, h.outside, h.builtins, hlinked, 
          .cons (hans.answer hknows fun τ hτ => ?_) hanswers⟩
        exact hkeep.latest_storage ((hkeep.lookup x).symm.trans hτ)

end Session.Agrees

theorem Session.agrees_next (h : s.Agrees) (hcall : s.next call = some s') : s'.Agrees := by
  cases call with
  | builtin x i => cases hcall; exact h.builtin x i
  | define x => cases hcall; exact h.define x
  | resolve x => cases hcall; exact h.resolve x
  | enterBlock => cases hcall; exact h.enterBlock
  | leaveBlock =>
    obtain ⟨block, outer, hleft, rfl⟩ := next_leaveBlock hcall
    exact h.leaveBlock hleft
  | enterFunction => cases hcall; exact h.enterFunction
  | leaveFunction =>
    obtain ⟨a, functions, hleft, -, rfl⟩ := next_leaveFunction hcall
    exact h.leaveFunction hleft

theorem lexical_eq_none : lexical x as = none ↔ ∀ a ∈ as, a.latest x = none := by
  induction as with
  | nil => simp [lexical]
  | cons a as ih =>
    rw [lexical]
    cases ha : a.latest x with
    | none => simp [ha, ih]
    | some σ => simp [ha]

theorem lexical_storage {k : Nat} (h : List.Forall₂ (Keeps .frame) as fs)
    (hp : lexical x as = some (k, σ)) : σ.storage = .frame := by
  induction h generalizing k with
  | nil => cases hp
  | @cons a f as fs hkeep _ ih =>
    rw [lexical] at hp
    split at hp
    · cases hp
      exact hkeep.latest_storage ‹_›
    · obtain ⟨⟨_, _⟩, hq, heq⟩ := Option.map_eq_some_iff.mp hp
      cases heq
      exact ih hq

/-- Names resolve by lexical scoping, and captures lead outward to what it selects. -/
structure Session.Lexical (s : Session) : Prop where
  /-- A name means its latest definition in the innermost block of the function that has one. -/
  own : ∀ a around x σ, s.ledger.functions = a :: around → a.latest x = some σ →
    (s.table.resolve x).1 = some σ
  /-- Otherwise a name that some function around has in an open block is captured. -/
  around : ∀ a around x, s.ledger.functions = a :: around → a.latest x = none →
    (∃ b ∈ around, b.latest x ≠ none) → ∃ i, (s.table.resolve x).1 = some ⟨x, .free, i⟩
  /-- Otherwise it is global, or else a builtin, or else means nothing. -/
  outside : ∀ x, (∀ a ∈ s.ledger.functions, a.latest x = none) → (s.table.resolve x).1 =
    (s.ledger.outside.latest x).or (s.ledger.builtins.find? (·.name = x))
  /-- The capture that a name is resolved to is what the function around resolves it to, and from
  there outward the captures end at the variable of lexical scoping. -/
  captured : ∀ x σ t, s.table.resolve x = (some σ, t) → σ.storage = .free → σ.name = x ∧
    ∃ f fs τ k ρ, t.functions = f :: fs ∧ f.free[σ.index]? = some τ ∧ τ.name = x ∧
      (t.leaveFunction.2.resolve x).1 = some τ ∧ follow t.functions σ = some (k, ρ) ∧
      lexical x s.ledger.functions = some (k, ρ) ∧ ρ.storage = .frame
  /-- Every capture of every open function is what the function around resolves its name to, and
  none has the name of another. -/
  links : ∀ k f, s.table.functions[k]? = some f → (f.free.map (·.name)).Nodup ∧
    ∀ σ ∈ f.free, (SymbolTable.resolve
      { s.table with functions := s.table.functions.drop (k + 1) } σ.name).1 = some σ
  /-- A name that is resolved again at once means the same. -/
  again : ∀ x, ((s.table.resolve x).2.resolve x).1 = (s.table.resolve x).1
  /-- A name that is resolved to a capture again later in the function has the same index. -/
  same : ∀ a around, s.ledger.functions = a :: around → ∀ σ ∈ a.answers, ∀ τ,
    (s.table.resolve σ.name).1 = some τ → τ.storage = .free → τ.index = σ.index
  /-- The end of the function lists what was captured, by index. -/
  listed : ∀ a around, s.ledger.functions = a :: around → ∀ σ ∈ a.answers,
    ∃ τ, s.table.leaveFunction.1.2[σ.index]? = some τ ∧ τ.name = σ.name ∧
      (s.table.leaveFunction.2.resolve σ.name).1 = some τ

theorem Linked.drop (h : Linked fs) (k : Nat) : Linked (fs.drop k) := by
  induction k generalizing fs with
  | zero => exact h
  | succ k ih =>
    cases fs with
    | nil => exact h
    | cons f fs => exact ih h.2.2

/-- A capture is what the function around resolves the name to. -/
theorem Linked.resolve {t : SymbolTable} (h : Linked (f :: fs)) (hσ : σ ∈ f.free) :
    (SymbolTable.resolve { t with functions := fs } σ.name).1 = some σ := by
  obtain ⟨g, gs, rfl, hknows⟩ := h.2.1 σ hσ
  unfold SymbolTable.resolve
  rw [hknows.resolveIn]

/-- A capture is found by its name alone. -/
theorem Linked.index_eq {j : Nat} (h : Linked (f :: fs)) (hi : f.free[i]? = some σ)
    (hj : f.free[j]? = some τ) (hname : σ.name = τ.name) : i = j := by
  have hi' : (f.free.map (·.name))[i]? = some σ.name := by simp [hi]
  have hj' : (f.free.map (·.name))[j]? = some σ.name := by simp [hj, hname]
  obtain ⟨hlt, -⟩ := List.getElem?_eq_some_iff.mp hi'
  exact (List.getElem?_inj hlt h.1).mp (hi'.trans hj'.symm)

namespace Session.Agrees

/-- The frame of the function in force. -/
theorem innermost (h : s.Agrees) (ha : s.ledger.functions = a :: as) :
    ∃ f fs, s.table.functions = f :: fs ∧ Keeps .frame a f ∧ Answers a f := by
  have hkeeps := h.functions
  have hanswers := h.answers
  rw [ha] at hkeeps hanswers
  cases hf : s.table.functions with
  | nil => rw [hf] at hkeeps; cases hkeeps
  | cons f fs =>
    rw [hf] at hkeeps hanswers
    cases hkeeps with
    | cons hkeep _ =>
      cases hanswers with
      | cons hans _ => exact ⟨f, fs, rfl, hkeep, hans⟩

/-- The capture that a look-up answers with. -/
theorem resolve_free {t : SymbolTable} (h : s.Agrees) (ht : s.table.resolve x = (some σ, t))
    (hσ : σ.storage = .free) : ∃ g gs τ, t = { s.table with functions := g :: gs } ∧
      More s.table.functions (g :: gs) ∧ Linked (g :: gs) ∧ Knows g x σ ∧ σ.name = x ∧
      g.free[σ.index]? = some τ ∧ τ.name = x := by
  cases hx : lexical x s.ledger.functions with
  | none =>
    rw [h.resolve_outside hx] at ht
    obtain ⟨hmeaning, -⟩ := Prod.mk.inj ht
    exact absurd hσ (h.outsideMeaning_storage hmeaning)
  | some p =>
    obtain ⟨τ, g, gs, heq, hmore, hlinked, hknows⟩ := h.resolve_variable hx
    rw [heq] at ht
    obtain ⟨hτ, rfl⟩ := Prod.mk.inj ht
    obtain rfl := Option.some.inj hτ
    refine ⟨g, gs, ?_⟩
    cases hknows with
    | own hown =>
      have hstorage : τ.storage = .frame := by
        have hkeeps := hmore.keeps h.functions
        generalize s.ledger.functions = functions at hkeeps
        cases hkeeps with
        | cons hkeep _ => exact hkeep.latest_storage ((hkeep.lookup x).symm.trans hown)
      rw [hstorage] at hσ
      cases hσ
    | captured hnone hidx =>
      obtain ⟨ρ, hρ, hname⟩ := Knows.free (.captured hnone hidx) hnone
      exact ⟨ρ, rfl, hmore, hlinked, .captured hnone hidx, rfl, hρ, hname⟩

theorem resolves_own (h : s.Agrees) (ha : s.ledger.functions = a :: as)
    (hσ : a.latest x = some σ) : (s.table.resolve x).1 = some σ := by
  obtain ⟨f, fs, hf, hkeep, -⟩ := h.innermost ha
  have hknows : Knows f x σ := .own ((hkeep.lookup x).trans hσ)
  unfold SymbolTable.resolve
  rw [hf, hknows.resolveIn]

theorem resolves_around (h : s.Agrees) (ha : s.ledger.functions = a :: as)
    (hown : a.latest x = none) (haround : ∃ b ∈ as, b.latest x ≠ none) :
    ∃ i, (s.table.resolve x).1 = some ⟨x, .free, i⟩ := by
  obtain ⟨b, hb, hlatest⟩ := haround
  cases hx : lexical x s.ledger.functions with
  | none =>
    rw [ha] at hx
    exact absurd (lexical_eq_none.mp hx b (List.mem_cons_of_mem _ hb)) hlatest
  | some p =>
    obtain ⟨σ, g, gs, heq, hmore, -, hknows⟩ := h.resolve_variable hx
    rw [heq]
    cases hknows with
    | captured _ _ => exact ⟨_, rfl⟩
    | own hown' =>
      obtain ⟨f, fs, hf, hkeep, -⟩ := h.innermost ha
      rw [hf] at hmore
      cases hmore with
      | cons hgrow _ =>
        obtain ⟨free, rfl⟩ := hgrow
        have := (hkeep.lookup x).symm.trans hown'
        rw [hown] at this
        cases this

theorem resolves_outside (h : s.Agrees) (hx : ∀ a ∈ s.ledger.functions, a.latest x = none) :
    (s.table.resolve x).1 =
      (s.ledger.outside.latest x).or (s.ledger.builtins.find? (·.name = x)) := by
  rw [h.resolve_outside (lexical_eq_none.mpr hx)]
  unfold outsideMeaning
  rw [h.outside.lookup, h.builtins]

theorem resolves_again (h : s.Agrees) (x : String) :
    ((s.table.resolve x).2.resolve x).1 = (s.table.resolve x).1 := by
  cases hx : lexical x s.ledger.functions with
  | none => simp only [h.resolve_outside hx]
  | some p =>
    obtain ⟨σ, g, gs, heq, -, -, hknows⟩ := h.resolve_variable hx
    rw [heq]
    unfold SymbolTable.resolve
    dsimp only
    rw [hknows.resolveIn]

theorem captures (h : s.Agrees) {t : SymbolTable} (ht : s.table.resolve x = (some σ, t))
    (hσ : σ.storage = .free) : σ.name = x ∧
      ∃ f fs τ k ρ, t.functions = f :: fs ∧ f.free[σ.index]? = some τ ∧ τ.name = x ∧
        (t.leaveFunction.2.resolve x).1 = some τ ∧ follow t.functions σ = some (k, ρ) ∧
        lexical x s.ledger.functions = some (k, ρ) ∧ ρ.storage = .frame := by
  obtain ⟨g, gs, τ, rfl, hmore, hlinked, hknows, hname, hτ, rfl⟩ := h.resolve_free ht hσ
  have hkeeps := hmore.keeps h.functions
  obtain ⟨⟨k, ρ⟩, hfollow, hlexical⟩ := hlinked.follow hkeeps hknows
  exact ⟨hname, g, gs, τ, k, ρ, rfl, hτ, rfl, hlinked.resolve (List.mem_of_getElem? hτ), hfollow,
    hlexical, lexical_storage hkeeps hlexical⟩

theorem lists (h : s.Agrees) (ha : s.ledger.functions = a :: as) (hσ : σ ∈ a.answers) :
    ∃ τ, s.table.leaveFunction.1.2[σ.index]? = some τ ∧ τ.name = σ.name ∧
      (s.table.leaveFunction.2.resolve σ.name).1 = some τ := by
  obtain ⟨f, fs, hf, -, hans⟩ := h.innermost ha
  obtain ⟨-, τ, hτ, hname⟩ := hans σ hσ
  have hlinked := h.linked
  rw [hf] at hlinked
  unfold SymbolTable.leaveFunction
  rw [hf]
  exact ⟨τ, hτ, hname, hname ▸ hlinked.resolve (List.mem_of_getElem? hτ)⟩

theorem index_same (h : s.Agrees) (ha : s.ledger.functions = a :: as) (hσ : σ ∈ a.answers)
    (hτ : (s.table.resolve σ.name).1 = some τ) (hfree : τ.storage = .free) :
    τ.index = σ.index := by
  obtain ⟨f, fs, hf, -, hans⟩ := h.innermost ha
  obtain ⟨-, ρ, hρ, hname⟩ := hans σ hσ
  obtain ⟨g, gs, ρ', -, hmore, hlinked, -, -, hρ', hname'⟩ := h.resolve_free
    (t := (s.table.resolve σ.name).2) (Prod.ext hτ rfl) hfree
  rw [hf] at hmore
  cases hmore with
  | cons hgrow _ =>
    obtain ⟨free, rfl⟩ := hgrow
    obtain ⟨hlt, -⟩ := List.getElem?_eq_some_iff.mp hρ
    exact hlinked.index_eq hρ' ((List.getElem?_append_left hlt).trans hρ)
      (hname'.trans hname.symm)

theorem linked_at {k : Nat} (h : s.Agrees) (hf : s.table.functions[k]? = some f) :
    (f.free.map (·.name)).Nodup ∧ ∀ σ ∈ f.free, (SymbolTable.resolve
      { s.table with functions := s.table.functions.drop (k + 1) } σ.name).1 = some σ := by
  have hlinked := h.linked.drop k
  obtain ⟨hlt, rfl⟩ := List.getElem?_eq_some_iff.mp hf
  rw [List.drop_eq_getElem_cons hlt] at hlinked
  exact ⟨hlinked.1, fun σ hσ => hlinked.resolve hσ⟩

end Session.Agrees

/-- After any calls on a new table or on the table for a module, names resolve by lexical
scoping. -/
theorem resolve_is_lexical (t : Option SymbolTable) (calls : List TableCall) (s : Session)
    (h : (Session.start t).run calls = some s) : s.Lexical := by
  have hs : s.Agrees := Session.run_induction (P := Session.Agrees) Session.agrees_start
    Session.agrees_next h
  exact {
    own := fun _ _ _ _ => hs.resolves_own
    around := fun _ _ _ => hs.resolves_around
    outside := fun _ => hs.resolves_outside
    captured := fun _ _ _ => hs.captures
    links := fun _ _ => hs.linked_at
    again := hs.resolves_again
    same := fun _ _ ha _ hσ _ => hs.index_same ha hσ
    listed := fun _ _ ha _ => hs.lists ha }

/-- A function in a function in a block, where a name of the block is looked up. -/
def nestedCalls : List TableCall :=
  [.builtin "len" 0, .define "x", .enterFunction, .define "x", .enterBlock, .define "y",
    .enterFunction, .enterFunction, .resolve "y"]

/-- The name is captured through the function between, and others stay in reach. -/
theorem resolve_is_lexical_nested :
    (∃ s, (Session.start none).run nestedCalls = some s ∧ s.Lexical) ∧
    ((Session.start none).run nestedCalls).map
      (fun s => ["y", "x", "len", "z"].map fun x => (s.table.resolve x).1) =
      some [some ⟨"y", .free, 0⟩, some ⟨"x", .free, 1⟩, some ⟨"len", .builtin, 0⟩, none] := by
  constructor
  · obtain ⟨s, hs⟩ := Option.isSome_iff_exists.mp
      (show ((Session.start none).run nestedCalls).isSome = true by decide +kernel)
    exact ⟨s, hs, resolve_is_lexical none nestedCalls s hs⟩
  · decide +kernel

end ScriptEngine.Symbols
