import ScriptEngine.Proofs.Layout.Emitted
/-! The stretches of compilation from which all others are made. -/
namespace ScriptEngine.Layout

open Encoding

variable {o : ImportOptions} {base : Nat} {π : Place} {used : String → Prop} {Γ Γ' : Names}
  {a b : Stage} {c : Code} {laid : Laid} {s : CompileState} {pos : Option Pos} {op : Opcode}
  {x y : Nat}

variable (o base) in
/-- A stretch that only emits code and adds constants. -/
theorem Emitted.plain (h : Ready π Γ a) (hsymbols : s.symbols = a.state.symbols)
    (hcache : s.cache = a.state.cache) (hmaker : s.maker = a.state.maker)
    (hmade : s.made = a.state.made) (hpool : a.state.pool.toList <+: s.pool.toList)
    (hhere : s.here = a.state.here + c.size)
    (hvalid : ∀ L, Links o π L ⟨s, a.log⟩ → Valid base L a → ∀ k v, a.state.pool.size ≤ k →
      s.pool[k]? = some v → L.Constant v)
    (hlaid : ∀ L R J, Links o π L ⟨s, a.log⟩ →
      R.Holds a.state.here (c.toList.map (Item.closeFor J)) → J.isSome = π.looping →
      laid L R J a.state.here s.here) :
    Emitted o base π (fun _ => False) Γ Γ a c ⟨s, a.log⟩ laid where
  start := h
  ready := ⟨hsymbols ▸ h.fits, hmade ▸ h.made, h.inside⟩
  around := rfl
  cell := Nat.le_refl _
  literal := Nat.le_refl _
  here := hhere
  maker := hmaker
  pool := hpool
  records := Records.refl _ _ _ _ hcache
  moves := by
    rw [hsymbols]
    exact Moves.refl h.fits
  valid L hL hv := by
    refine ⟨fun e he => hv.modules e (hcache ▸ he), fun k v hk hr => ?_⟩
    by_cases hold : k < a.state.pool.size
    · refine hv.constants k v hk ?_
      obtain ⟨more, hmore⟩ := hpool
      rw [← Array.getElem?_toList] at hr ⊢
      rw [← hmore, List.getElem?_append_left (by simpa using hold)] at hr
      exact hr
    · exact hvalid L hL hv k v (by omega) hr
  laid L R J hL _ _ _ hJ hcode := hlaid L R J hL hcode hJ

/-- Nothing is emitted. -/
theorem Emitted.nil (h : Ready π Γ a) :
    Emitted o base π (fun _ => False) Γ Γ a #[] a (fun _ _ _ p q => p = q) := by
  have hplain : Emitted o base π (fun _ => False) Γ Γ a #[] ⟨a.state, a.log⟩
      (fun _ _ _ p q => p = q) := Emitted.plain o base
    h rfl rfl rfl rfl (List.prefix_refl _) (by simp [Code.size]) (fun _ _ _ k _ hk hr => by
      rw [Array.getElem?_eq_none hk] at hr
      simp at hr) (fun _ _ _ _ _ _ => rfl)
  exact hplain

theorem size_singleton (i : Item) : Code.size #[i] = i.size := by
  simp [Code.size_eq]

variable (o base) in
theorem Emitted.instruction (h : Ready π Γ a) (pos : Option Pos) (op : Opcode) (x y : Nat) :
    Emitted o base π (fun _ => False) Γ Γ a #[.plain ⟨op, x, y⟩ pos]
      ⟨{ a.state with here := a.state.here + op.size }, a.log⟩
      (fun _ R _ p q => R.Has pos op x y p q) := by
  refine Emitted.plain _ _ h rfl rfl rfl rfl (List.prefix_refl _) ?_ ?_ ?_
  · rw [size_singleton]
    rfl
  · intro _ _ _ k _ hk hr
    rw [Array.getElem?_eq_none hk] at hr
    simp at hr
  · intro L R J _ hcode _
    refine Body.Holds.has (p := a.state.here) ?_
    cases J <;> simpa [Item.closeFor, Item.close] using hcode

/-- A jump that the innermost loop closes. -/
theorem Emitted.openJump (h : Ready π Γ a) (hloop : π.looping = true) (i : Item) (pos : Pos)
    (choose : Nat × Nat → Nat) (hsize : i.size = Opcode.jump.size)
    (hclose : ∀ loopEnd lastPart, i.close loopEnd lastPart =
      .plain ⟨.jump, choose (loopEnd, lastPart), 0⟩ (some pos)) :
    Emitted o base π (fun _ => False) Γ Γ a #[i]
      ⟨{ a.state with here := a.state.here + Opcode.jump.size }, a.log⟩
      (fun _ R J p q => ∃ loopEnd lastPart, J = some (loopEnd, lastPart) ∧
        R.Has (some pos) .jump (choose (loopEnd, lastPart)) 0 p q) := by
  refine Emitted.plain _ _ h rfl rfl rfl rfl (List.prefix_refl _) ?_ ?_ ?_
  · rw [size_singleton, hsize]
  · intro _ _ _ k _ hk hr
    rw [Array.getElem?_eq_none hk] at hr
    simp at hr
  · intro L R J _ hcode hJ
    cases J with
    | none => simp [hloop] at hJ
    | some ends =>
      obtain ⟨loopEnd, lastPart⟩ := ends
      refine ⟨loopEnd, lastPart, rfl, Body.Holds.has (p := a.state.here) ?_⟩
      simpa [Item.closeFor, hclose] using hcode

variable (o base) in
/-- A constant is added to the pool. -/
theorem Emitted.addConstant (h : Ready π Γ a) (v : Value)
    (hsize : a.state.pool.size < Compile.maxConstants)
    (hv : ∀ L, Links o π L a → Valid base L a → L.Constant v) :
    Emitted o base π (fun _ => False) Γ Γ a #[]
      ⟨{ a.state with pool := a.state.pool.push v }, a.log⟩
      (fun L _ _ p q => p = q ∧ a.state.pool.size < Compile.maxConstants ∧
        L.pool[a.state.pool.size]? = some v) := by
  refine Emitted.plain _ _ h rfl rfl rfl rfl (by simp) (by simp [Code.size]) ?_ ?_
  · intro L hL hvalid k w hk hr
    simp only [Array.getElem?_push] at hr
    split at hr
    · have hpool := hL.pool
      simp only [Array.toList_push] at hpool
      obtain rfl : v = w := by simpa using hr
      exact hv L ⟨hL.options, hL.attrs, (List.prefix_append _ _).trans hpool, hL.modules, hL.made,
        hL.cells, hL.origins, hL.directory⟩ hvalid
    · rw [Array.getElem?_eq_none hk] at hr
      simp at hr
  · intro L R J hL _ _
    refine ⟨rfl, hsize, ?_⟩
    obtain ⟨more, hmore⟩ := hL.pool
    rw [← Array.getElem?_toList, ← hmore]
    simp

variable (o base) in
/-- A constant is added and loaded. -/
theorem Emitted.constant (h : Ready π Γ a) (pos : Pos) (v : Value)
    (hsize : a.state.pool.size < Compile.maxConstants)
    (hv : ∀ L, Links o π L a → Valid base L a → L.Constant v) :
    Emitted o base π (fun _ => False) Γ Γ a
      #[.plain ⟨.constant, a.state.pool.size, 0⟩ (some pos)]
      ⟨{ a.state with
        pool := a.state.pool.push v, here := a.state.here + Opcode.constant.size }, a.log⟩
      (fun L R _ p q => L.constantAt R pos v p q) := by
  have hadd := Emitted.addConstant o base h v hsize hv
  have hload := Emitted.instruction o base hadd.ready (some pos) .constant
    a.state.pool.size 0
  refine (hadd.seq hload).imp (by simp) ?_
  rintro L R J p q ⟨⟨rfl, hk, hpool⟩, hhas⟩
  exact ⟨_, hk, hpool, hhas⟩

/-- What a name means has a place in the finished program. -/
theorem Fits.within {t : SymbolTable} {L : Image} {R : Body} {name : String} {storage : Storage}
    {i : Nat} (h : Fits Γ t) (hframe : Framed R t) (hcells : t.globals ≤ L.cells)
    (hres : Γ.resolve R.captured name = some (storage, i)) : L.Within R storage i := by
  have hinside (hs : storage = .frame ∨ storage = .free) : L.Within R storage i := by
    obtain ⟨vars, around, hf, hown⟩ := own_of_resolve hres hs
    unfold Names.own at hown
    split at hown
    · rename_i j hslot
      obtain ⟨rfl, rfl⟩ : Storage.frame = storage ∧ j = i := by simpa using hown
      have hframes := h.frames
      have hlocals := hframe.locals
      match ht : t.functions with
      | [] =>
        rw [hf, ht] at hframes
        exact hframes.elim
      | f :: fs =>
        rw [hf, ht] at hframes
        simp only [SymbolTable.current, ht] at hlocals
        have hvars := hframes.1.slots
        have hlt := slotOf_lt hslot
        simp only [Image.Within]
        omega
    · obtain ⟨j, hj, hfound⟩ := Option.map_eq_some_iff.mp hown
      obtain ⟨rfl, rfl⟩ : Storage.free = storage ∧ j = i := by simpa using hfound
      exact (List.findIdx?_eq_some_iff_getElem.mp hj).1
  cases storage with
  | frame => exact hinside (Or.inl rfl)
  | free => exact hinside (Or.inr rfl)
  | global =>
    have houter := (outer_of_resolve hres (Or.inl rfl)).2
    unfold Names.outer at houter
    split at houter
    · rename_i cell hcell
      obtain rfl : cell = i := by simpa using houter
      have hlt := h.bound name cell hcell
      have hcell := h.cells
      simp only [Image.Within]
      omega
    · simp at houter
  | builtin =>
    have houter := (outer_of_resolve hres (Or.inr rfl)).2
    unfold Names.outer at houter
    split at houter
    · simp at houter
    · obtain ⟨j, hj, hfound⟩ := Option.map_eq_some_iff.mp houter
      obtain rfl : j = i := by simpa using hfound
      exact (Array.findIdx?_eq_some_iff_getElem.mp hj).1

variable (o base) in
/-- A name is looked up. -/
theorem Emitted.resolve (h : Ready π Γ a) {name : String} {σ : Symbol} {t : SymbolTable}
    (ht : a.state.symbols.resolve name = (some σ, t)) :
    Emitted o base π (fun z => z = name ∧ z ∉ Γ.vars) Γ Γ a #[]
      ⟨{ a.state with symbols := t }, a.log⟩
      (fun L R _ p q => p = q ∧ Γ.resolve R.captured name = some (σ.storage, σ.index) ∧
        L.Within R σ.storage σ.index) := by
  obtain ⟨hfits, hmoves, hres⟩ := h.fits.resolve ht
  refine ⟨h, ⟨hfits, h.made, h.inside⟩, rfl, Nat.le_refl _, Nat.le_refl _, by simp [Code.size],
    rfl, List.prefix_refl _, Records.refl _ _ _ _ rfl, hmoves,
    fun L _ hv => ⟨hv.modules, hv.constants⟩, fun L R J hL hframe _ hadmits _ _ => ?_⟩
  have hfound := hres R.captured hframe.captured hadmits
  exact ⟨rfl, hfound, hfits.within hframe hL.cells hfound⟩

variable (o base) in
/-- A name is defined. -/
theorem Emitted.define (h : Ready π Γ a) {name : String} {σ : Symbol} {t : SymbolTable}
    (ht : a.state.symbols.define name = (σ, t)) (hslot : σ.storage = .frame → σ.index < 256) :
    Emitted o base π (fun _ => False) Γ (Γ.define name) a #[]
      ⟨{ a.state with symbols := t }, a.log⟩
      (fun L R _ p q => p = q ∧
        (Γ.define name).resolve R.captured name = some (σ.storage, σ.index) ∧
        L.Within R σ.storage σ.index ∧ (σ.storage = .frame ∨ σ.storage = .global)) := by
  obtain ⟨hfits, hmoves, hres, hplace⟩ := h.fits.define ht hslot
  refine ⟨h, ⟨hfits, h.made, fun hi hn => ?_⟩, Names.around?_define _ _, Names.cell_define _ _,
    Nat.le_of_eq (Names.define_literal _ _).symm, by simp [Code.size], rfl, List.prefix_refl _,
    ?_, hmoves, fun L _ hv => ⟨hv.modules, hv.constants⟩, fun L R J hL hframe _ _ _ _ => ?_⟩
  · have := h.inside hi
    have hsame := Names.around?_define Γ name
    unfold Names.around? at hsame
    rw [hn] at hsame
    cases hf : Γ.functions with
    | nil => exact this hf
    | cons vars around => simp [hf] at hsame
  · rw [Names.define_literal]
    exact Records.refl _ _ _ _ rfl
  · refine ⟨rfl, hres _, hfits.within hframe hL.cells (hres _), ?_⟩
    rcases hplace with ⟨hs, _⟩ | ⟨hs, _⟩
    · exact Or.inl hs
    · exact Or.inr hs

/-- The jumps of a loop are closed when its code is complete. -/
theorem Emitted.close {chain : List String} {directory : String} (looping : Bool) {inside : Bool}
    (h : Emitted o base ⟨chain, directory, true, inside⟩ used Γ Γ' a c b laid)
    (loopEnd lastPart : Nat) :
    Emitted o base ⟨chain, directory, looping, inside⟩ used Γ Γ' a (Code.close loopEnd lastPart c) b
      (fun L R _ p q => laid L R (some (loopEnd, lastPart)) p q) where
  start := ⟨h.start.fits, h.start.made, h.start.inside⟩
  ready := ⟨h.ready.fits, h.ready.made, h.ready.inside⟩
  around := h.around
  cell := h.cell
  literal := h.literal
  here := by
    rw [h.here, Code.size_eq, Code.size_eq, Code.close, Array.toList_map, extent_map]
    simp
  maker := h.maker
  pool := h.pool
  records := h.records
  moves := h.moves
  valid L hL := h.valid L { hL with }
  laid L R J hL hframe hunit hadmits _ hcode := by
    refine h.laid L R _ { hL with } hframe hunit hadmits rfl ?_
    simpa [Code.close, Item.closeFor_close, Function.comp_def] using hcode

theorem Links.with_symbols {L : Image} {t : SymbolTable} {log : List Made}
    (h : Links o π L ⟨{ s with symbols := t }, log⟩) (ht : s.symbols.globals = t.globals) :
    Links o π L ⟨s, log⟩ :=
  ⟨h.options, h.attrs, h.pool, h.modules, h.made, ht ▸ h.cells, h.origins, h.directory⟩

/-- A block has names of its own. -/
theorem Emitted.block (hstart : Ready π Γ a)
    (h : Emitted o base π used Γ Γ'
      ⟨{ a.state with symbols := a.state.symbols.enterBlock }, a.log⟩ c b laid) :
    Emitted o base π used Γ (Γ.leave Γ') a c
      ⟨{ b.state with symbols := b.state.symbols.leaveBlock }, b.log⟩ laid := by
  obtain ⟨hfits, hmoves⟩ := hstart.fits.leaveBlock h.ready.fits h.moves h.around h.cell
  refine ⟨hstart, ⟨hfits, h.ready.made, hstart.inside⟩, rfl, h.cell, h.literal, h.here, h.maker,
    h.pool, h.records, hmoves, fun L hL hv => ?_, fun L R J hL hframe hunit hadmits hJ hcode => ?_⟩
  · have hL' : Links o π L b := Links.with_symbols hL (by simp)
    have := h.valid L hL' ⟨hv.modules, hv.constants⟩
    exact ⟨this.modules, this.constants⟩
  · have hL' : Links o π L b := Links.with_symbols hL (by simp)
    have hframe' : Framed R b.state.symbols :=
      ⟨by simpa using hframe.locals, by simpa using hframe.captured⟩
    exact h.laid L R J hL' hframe' hunit hadmits hJ hcode

end ScriptEngine.Layout
