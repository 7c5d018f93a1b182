import ScriptEngine.Proofs.Layout.Success
import ScriptEngine.Proofs.Layout.Table
/-!
A stretch of compilation: what it does to the compiler's state, and that the code it emits is laid
out in every finished program that contains it. Stretches that follow one another make one stretch.
-/
namespace ScriptEngine

open Encoding

/-- Closes the jumps of the innermost loop, if one is open. -/
def Item.closeFor (J : Option (Nat × Nat)) (i : Item) : Item :=
  match J with
  | none => i
  | some (loopEnd, lastPart) => i.close loopEnd lastPart

/-- A piece of code lies at an offset. -/
def Body.Holds (R : Body) (p : Nat) (c : List Item) : Prop :=
  ∃ pre post, R.code.toList = pre ++ c ++ post ∧ extent Item.size pre = p

theorem Body.Holds.append {R : Body} {p : Nat} {c d : List Item} (h : R.Holds p (c ++ d)) :
    R.Holds p c ∧ R.Holds (p + extent Item.size c) d := by
  obtain ⟨pre, post, hcode, rfl⟩ := h
  exact ⟨⟨pre, d ++ post, by simp [hcode], rfl⟩, ⟨pre ++ c, post, by simp [hcode], by simp⟩⟩

theorem Body.Holds.has {R : Body} {p : Nat} {op : Opcode} {a b : Nat} {pos : Option Pos}
    (h : R.Holds p [.plain ⟨op, a, b⟩ pos]) : R.Has pos op a b p (p + op.size) := by
  obtain ⟨pre, post, hcode, rfl⟩ := h
  refine ⟨?_, rfl⟩
  rw [Code.at?, hcode, List.append_assoc]
  exact placed_append_cons Item.size_pos pre post _

@[simp] theorem Item.size_close (i : Item) (loopEnd lastPart : Nat) :
    (i.close loopEnd lastPart).size = i.size := by
  cases i <;> rfl

@[simp] theorem Item.size_closeFor (J : Option (Nat × Nat)) (i : Item) :
    (i.closeFor J).size = i.size := by
  cases J <;> simp [closeFor]

/-- Jumps that are closed stay as they are. -/
theorem Item.closeFor_close (J : Option (Nat × Nat)) (i : Item) (loopEnd lastPart : Nat) :
    (i.close loopEnd lastPart).closeFor J = i.closeFor (some (loopEnd, lastPart)) := by
  cases J <;> cases i <;> rfl

@[simp] theorem map_closeFor_none (c : List Item) : c.map (Item.closeFor none) = c :=
  List.map_id'' (fun _ => rfl) c

theorem extent_closeFor (J : Option (Nat × Nat)) (c : List Item) :
    extent Item.size (c.map (Item.closeFor J)) = extent Item.size c := by
  rw [extent_map]
  simp

/-- A function object that the compiler made: where its literal stands, and its routine. -/
structure Made where
  unit : Option String
  number : Nat
  routine : Routine
  /-- Of a module's function, where the files lie that the module imports, and its text. -/
  origin : Option (String × ByteArray)

def Made.key (m : Made) : Option String × Nat := (m.unit, m.number)

/-- The state of the compiler with the function objects made so far. -/
structure Stage where
  state : CompileState
  log : List Made

namespace Stage

/-- The modules compiled so far. -/
def keys (a : Stage) : List String := a.state.cache.map (·.1)

end Stage

namespace Layout

variable (o : ImportOptions) (base : Nat)

/-- What matters of where the compiler is in the source: the modules being compiled, where files lie
that are imported, and whether a loop, and a function or module, is open. -/
structure Place where
  chain : List String
  directory : String
  looping : Bool
  inside : Bool

/-- The place that a context stands for. -/
def Place.of (ctx : CompileContext) : Place :=
  ⟨ctx.chain, ctx.importDir, ctx.inLoop, ctx.inFunction || ctx.inModule⟩

/-- A finished program contains all that has been compiled so far. -/
structure Links (π : Place) (L : Image) (a : Stage) : Prop where
  options : L.options = o
  attrs : ∀ name entries, o.registry[name]? = some (.attrs entries) →
    L.attrs name = Entries.ofList entries
  pool : a.state.pool.toList <+: L.pool.toList
  modules : ∀ e ∈ a.state.cache, L.modules e.1 = some e.2
  made : ∀ j m, a.log[j]? = some m →
    L.ids m.unit m.number = ⟨a.state.maker, j⟩ ∧ L.routines m.unit m.number = some m.routine
  cells : a.state.symbols.globals ≤ L.cells
  origins : ∀ key r directory source, Made.mk (some key) 0 r (some (directory, source)) ∈ a.log →
    L.directory (some key) = directory ∧ L.source key = source
  directory : L.directory π.chain.head? = π.directory

/-- The modules compiled so far are laid out, and so are the constants but for those at the
start. -/
structure Valid (L : Image) (a : Stage) : Prop where
  modules : ∀ e ∈ a.state.cache, L.ModuleAt e.1 e.2
  constants : ∀ k v, base ≤ k → a.state.pool[k]? = some v → L.Constant v

/-- The finished frame has room for what a symbol table puts in it. -/
structure Framed (R : Body) (t : SymbolTable) : Prop where
  locals : t.current.slots ≤ R.locals
  captured : capturedIn t.functions <+: R.captured

/-- New modules were met for the first time, and new function objects belong to new modules or to
the literals passed. -/
def Records (chain : List String) (first next : Nat) (a b : Stage) : Prop :=
  ∃ new more, b.state.cache = new ++ a.state.cache ∧ b.log = a.log ++ more ∧
    (new.map (·.1)).Nodup ∧ (∀ e ∈ new, e.1 ∉ a.keys ∧ e.1 ∉ chain) ∧
    (more.map Made.key).Nodup ∧ ∀ m ∈ more,
      (m.unit = chain.head? ∧ first ≤ m.number ∧ m.number < next) ∨ ∃ e ∈ new, m.unit = some e.1

/-- The compiler is at a place where those names are in force. -/
structure Ready (π : Place) (Γ : Names) (a : Stage) : Prop where
  fits : Fits Γ a.state.symbols
  made : a.log.length = a.state.made
  inside : π.inside = true → Γ.functions ≠ []

/-- What is said of laid out code: the program, the routine, where the innermost loop's jumps lead,
and the offsets. -/
abbrev Laid := Image → Body → Option (Nat × Nat) → (p q : Nat) → Prop

/-- Compilation got from a stage to another and emitted code. -/
structure Emitted (π : Place) (used : String → Prop) (Γ Γ' : Names) (a : Stage) (c : Code)
    (b : Stage) (laid : Laid) : Prop where
  start : Ready π Γ a
  ready : Ready π Γ' b
  around : Γ'.around? = Γ.around?
  cell : Γ.cell ≤ Γ'.cell
  literal : Γ.literal ≤ Γ'.literal
  here : b.state.here = a.state.here + c.size
  maker : b.state.maker = a.state.maker
  pool : a.state.pool.toList <+: b.state.pool.toList
  records : Records π.chain Γ.literal Γ'.literal a b
  moves : Moves used Γ.around? a.state.symbols b.state.symbols
  valid : ∀ L, Links o π L b → Valid base L a → Valid base L b
  laid : ∀ L R J, Links o π L b → Framed R b.state.symbols → R.unit = π.chain.head? →
    Γ.Admits R.captured → J.isSome = π.looping →
    R.Holds a.state.here (c.toList.map (Item.closeFor J)) →
    laid L R J a.state.here b.state.here

variable {o base} {π : Place} {used used' : String → Prop} {Γ Γ' Γ'' : Names}
  {a b d : Stage} {c c' : Code} {laid laid' : Laid} {L : Image} {R : Body} {t t' : SymbolTable}
  {chain : List String} {first mid next : Nat}

theorem Framed.back (h : Framed R t') (hm : Moves used Γ.around? t t') (hfit : Fits Γ t) :
    Framed R t := by
  have hm := hm.2
  cases hf : Γ.functions with
  | nil =>
    have ht := hfit.functions_eq_nil.mpr hf
    refine ⟨?_, ?_⟩
    · simp [SymbolTable.current, ht, hfit.slots]
    · simp [ht, capturedIn]
  | cons vars around =>
    rcases ht : t.functions with _ | ⟨f, fs⟩
    · simp [Names.around?, hf, ht] at hm
    rcases ht' : t'.functions with _ | ⟨f', fs'⟩
    · simp [Names.around?, hf, ht, ht'] at hm
    simp only [Names.around?, hf, ht, ht', List.tail?_cons] at hm
    obtain ⟨_, _, hframe, _⟩ := hm
    refine ⟨?_, ?_⟩
    · have := h.locals
      simp only [SymbolTable.current, ht, ht'] at this ⊢
      exact Nat.le_trans hframe.slots this
    · have := h.captured
      simp only [ht', capturedIn, ht] at this ⊢
      exact hframe.free.trans this

theorem Records.refl (chain : List String) (n : Nat) (a : Stage) (s : CompileState)
    (h : s.cache = a.state.cache) : Records chain n n a ⟨s, a.log⟩ :=
  ⟨[], [], by simp [h], by simp, by simp, by simp, by simp, by simp⟩

theorem Records.trans (h : Records chain first mid a b) (h' : Records chain mid next b d)
    (hle : first ≤ mid) (hle' : mid ≤ next) : Records chain first next a d := by
  obtain ⟨new, more, hcache, hlog, hnew, hfresh, hmore, hown⟩ := h
  obtain ⟨new', more', hcache', hlog', hnew', hfresh', hmore', hown'⟩ := h'
  have hkeys : ∀ e ∈ new', e.1 ∉ new.map (·.1) ∧ e.1 ∉ a.keys := by
    intro e he
    have := (hfresh' e he).1
    simp only [Stage.keys, hcache, List.map_append, List.mem_append, not_or] at this
    exact this
  refine ⟨new' ++ new, more ++ more', by simp [hcache, hcache'], by simp [hlog, hlog'], ?_, ?_,
    ?_, ?_⟩
  · rw [List.map_append, List.nodup_append]
    refine ⟨hnew', hnew, fun k hk k' hk' hkk => ?_⟩
    obtain ⟨e, he, rfl⟩ := List.mem_map.mp hk
    exact (hkeys e he).1 (hkk ▸ hk')
  · intro e he
    rcases List.mem_append.mp he with he | he
    · exact ⟨(hkeys e he).2, (hfresh' e he).2⟩
    · exact hfresh e he
  · rw [List.map_append, List.nodup_append]
    refine ⟨hmore, hmore', fun k hk k' hk' hkk => ?_⟩
    obtain ⟨m, hm, rfl⟩ := List.mem_map.mp hk
    obtain ⟨m', hm', rfl⟩ := List.mem_map.mp hk'
    have hunit : m'.unit = m.unit := congrArg Prod.fst hkk.symm
    have hnumber : m'.number = m.number := congrArg Prod.snd hkk.symm
    rcases hown m hm with ⟨hu, _, hlt⟩ | ⟨e, he, hu⟩
    · rcases hown' m' hm' with ⟨_, hge, _⟩ | ⟨e', he', hu'⟩
      · omega
      · refine (hfresh' e' he').2 (List.mem_of_mem_head? ?_)
        rw [← hu, ← hunit, hu']
        rfl
    · rcases hown' m' hm' with ⟨hu', _, _⟩ | ⟨e', he', hu'⟩
      · refine (hfresh e he).2 (List.mem_of_mem_head? ?_)
        rw [← hu', hunit, hu]
        rfl
      · have : e'.1 = e.1 := by simpa [hunit, hu] using hu'.symm
        exact (hkeys e' he').1 (this ▸ List.mem_map_of_mem he)
  · intro m hm
    rcases List.mem_append.mp hm with hm | hm
    · rcases hown m hm with ⟨hu, hge, hlt⟩ | ⟨e, he, hu⟩
      · exact Or.inl ⟨hu, hge, by omega⟩
      · exact Or.inr ⟨e, List.mem_append_right _ he, hu⟩
    · rcases hown' m hm with ⟨hu, hge, hlt⟩ | ⟨e, he, hu⟩
      · exact Or.inl ⟨hu, by omega, hlt⟩
      · exact Or.inr ⟨e, List.mem_append_left _ he, hu⟩

/-- A program has the function objects that were made first. -/
theorem Links.front {log more : List Made} (h : Links o π L b) (hlog : b.log = log ++ more) :
    (∀ j m, log[j]? = some m → L.ids m.unit m.number = ⟨b.state.maker, j⟩ ∧
      L.routines m.unit m.number = some m.routine) ∧
    ∀ key r directory source, Made.mk (some key) 0 r (some (directory, source)) ∈ log →
      L.directory (some key) = directory ∧ L.source key = source := by
  refine ⟨fun j m hm => h.made j m ?_, fun key r directory source hm =>
    h.origins key r directory source ?_⟩
  · have hj : j < log.length := (List.getElem?_eq_some_iff.mp hm).1
    rw [hlog, List.getElem?_append_left hj, hm]
  · rw [hlog]
    exact List.mem_append_left _ hm

/-- A program that contains a later stage contains the earlier one. -/
theorem Emitted.links (h : Emitted o base π used Γ Γ' a c b laid) (hL : Links o π L b) :
    Links o π L a := by
  obtain ⟨new, more, hcache, hlog, _⟩ := h.records
  obtain ⟨hmade, horigins⟩ := hL.front hlog
  refine ⟨hL.options, hL.attrs, h.pool.trans hL.pool, fun e he => ?_, h.maker ▸ hmade, ?_, horigins,
    hL.directory⟩
  · exact hL.modules e (by simp [hcache, he])
  · have hcells := hL.cells
    rw [h.ready.fits.cells] at hcells
    rw [h.start.fits.cells]
    exact Nat.le_trans h.cell hcells

theorem Emitted.seq (h : Emitted o base π used Γ Γ' a c b laid)
    (h' : Emitted o base π used' Γ' Γ'' b c' d laid') :
    Emitted o base π (fun x => used x ∨ used' x) Γ Γ'' a (c ++ c') d
      (fun L R J p q => laid L R J p b.state.here ∧ laid' L R J b.state.here q) where
  start := h.start
  ready := h'.ready
  around := h'.around.trans h.around
  cell := Nat.le_trans h.cell h'.cell
  literal := Nat.le_trans h.literal h'.literal
  here := by
    rw [h'.here, h.here, Code.size_eq, Code.size_eq, Code.size_eq, Array.toList_append,
      extent_append, Nat.add_assoc]
  maker := h'.maker.trans h.maker
  pool := h.pool.trans h'.pool
  records := h.records.trans h'.records h.literal h'.literal
  moves := h.moves.trans (h.around ▸ h'.moves)
  valid L hL hv := h'.valid L hL (h.valid L (h'.links hL) hv)
  laid L R J hL hframe hunit hadmits hJ hcode := by
    rw [Array.toList_append, List.map_append] at hcode
    obtain ⟨hfirst, hsecond⟩ := hcode.append
    rw [extent_closeFor, ← Code.size_eq, ← h.here] at hsecond
    have hadmits' : Γ'.Admits R.captured := by
      unfold Names.Admits
      rw [h.around]
      exact hadmits
    have hmid := hframe.back h'.moves h'.start.fits
    exact ⟨h.laid L R J (h'.links hL) hmid hunit hadmits hJ hfirst,
      h'.laid L R J hL hframe hunit hadmits' hJ hsecond⟩

/-- What is laid out can be said in other words. -/
theorem Emitted.mono (h : Emitted o base π used Γ Γ' a c b laid)
    (hused : Γ.functions ≠ [] → ∀ x, used x ↔ used' x)
    (hlaid : ∀ L R J, Links o π L b → Framed R b.state.symbols → Γ.Admits R.captured →
      laid L R J a.state.here b.state.here → laid' L R J a.state.here b.state.here) :
    Emitted o base π used' Γ Γ' a c b laid' where
  start := h.start
  ready := h.ready
  around := h.around
  cell := h.cell
  literal := h.literal
  here := h.here
  maker := h.maker
  pool := h.pool
  records := h.records
  moves := by
    cases hf : Γ.functions with
    | nil =>
      have := h.moves
      simp only [Names.around?, hf, List.tail?_nil] at this ⊢
      exact this.outside
    | cons vars around => exact h.moves.congr (hused (by simp [hf]))
  valid := h.valid
  laid L R J hL hframe hunit hadmits hJ hcode :=
    hlaid _ _ _ hL hframe hadmits (h.laid L R J hL hframe hunit hadmits hJ hcode)

theorem Emitted.imp (h : Emitted o base π used Γ Γ' a c b laid)
    (hused : Γ.functions ≠ [] → ∀ x, used x ↔ used' x)
    (hlaid : ∀ L R J p q, laid L R J p q → laid' L R J p q) :
    Emitted o base π used' Γ Γ' a c b laid' :=
  h.mono hused fun L R J _ _ _ => hlaid L R J _ _

/-- Files that the code imports lie where the compiler looks for them. -/
theorem Emitted.housed (h : Emitted o base π used Γ Γ' a c b laid) :
    Emitted o base π used Γ Γ' a c b
      (fun L R J p q => L.directory R.unit = π.directory ∧ laid L R J p q) :=
  { h with
    laid := fun L R J hL hframe hunit hadmits hJ hcode =>
      ⟨hunit ▸ hL.directory, h.laid L R J hL hframe hunit hadmits hJ hcode⟩ }

/-- The trace does not matter. -/
theorem Emitted.of_trace {trace : Array String}
    (h : Emitted o base π used Γ Γ' ⟨{ a.state with trace }, a.log⟩ c b laid) :
    Emitted o base π used Γ Γ' a c b laid :=
  ⟨⟨h.start.fits, h.start.made, h.start.inside⟩, h.ready, h.around, h.cell, h.literal, h.here,
    h.maker, h.pool, h.records, h.moves, fun L hL hv => h.valid L hL ⟨hv.modules, hv.constants⟩,
    h.laid⟩

theorem Ready.of_trace (h : Ready π Γ a) (trace : Array String) :
    Ready π Γ ⟨{ a.state with trace }, a.log⟩ :=
  ⟨h.fits, h.made, h.inside⟩

end Layout

end ScriptEngine
