import ScriptEngine.Scope.Table
/-!
Calls on a symbol table, in any order in which blocks and functions nest. A ledger beside the table
keeps what the calls have opened and defined so far and what they were answered. What a name means
by lexical scoping is read off the ledger, and so is which slots are in use.
-/
namespace ScriptEngine.Symbols

/-- A call on a symbol table. -/
inductive TableCall where
  | builtin (name : String) (index : Nat)
  | define (name : String)
  | resolve (name : String)
  | enterBlock
  | leaveBlock
  | enterFunction
  | leaveFunction

/-- A block that is open. -/
structure OpenBlock where
  /-- The next slot of the function when the block was entered. -/
  entered : Nat
  /-- What was defined in the block, the latest first. -/
  definitions : List Symbol

/-- A function that is open, or what is outside of all functions. -/
structure Scope where
  /-- The innermost block. -/
  block : OpenBlock
  /-- The blocks around it, from the inside out. -/
  outer : List OpenBlock
  /-- All that was ever defined here, also in blocks that are closed, the latest first. -/
  made : List Symbol
  /-- The captures that names were resolved to here. -/
  answers : List Symbol

/-- What the calls on a symbol table have opened and not closed. -/
structure Ledger where
  builtins : List Symbol
  /-- The open functions, from the inside out. -/
  functions : List Scope
  outside : Scope

namespace Scope

def empty : Scope := ⟨⟨0, []⟩, [], [], []⟩

/-- The definitions in the open blocks, those of the innermost first and the latest first. -/
def visible (s : Scope) : List Symbol := (s.block :: s.outer).flatMap (·.definitions)

/-- The latest definition of a name in the innermost open block that has one. -/
def latest (s : Scope) (name : String) : Option Symbol := s.visible.find? (·.name = name)

/-- One more than the largest slot ever given out here, or zero. -/
def peak (s : Scope) : Nat := ((s.made.map (·.index)).max?.map (· + 1)).getD 0

def define (s : Scope) (σ : Symbol) : Scope :=
  { s with block := { s.block with definitions := σ :: s.block.definitions }, made := σ :: s.made }

/-- Keeps an answer that is a capture. -/
def answer (s : Scope) : Option Symbol → Scope
  | some σ => if σ.storage = .free then { s with answers := σ :: s.answers } else s
  | none => s

def enter (s : Scope) (nextSlot : Nat) : Scope :=
  { s with block := ⟨nextSlot, []⟩, outer := s.block :: s.outer }

end Scope

/-- The innermost of some functions that has a name in an open block, counted from the inside out,
with the definition that is in force there. -/
def lexical (name : String) : List Scope → Option (Nat × Symbol)
  | [] => none
  | s :: around =>
    match s.latest name with
    | some σ => some (0, σ)
    | none => (lexical name around).map fun (k, σ) => (k + 1, σ)

/-- The variable that a symbol stands for: captures are followed outward, and counted. -/
def follow : List ScopeFrame → Symbol → Option (Nat × Symbol)
  | [], _ => none
  | f :: around, σ =>
    match σ.storage with
    | .frame => some (0, σ)
    | .free => f.free[σ.index]?.bind fun τ =>
      (follow around τ).map fun (k, ρ) => (k + 1, ρ)
    | .global | .builtin => none

theorem follow_variable {f : ScopeFrame} {around : List ScopeFrame} {σ : Symbol}
    (h : σ.storage = .frame) : follow (f :: around) σ = some (0, σ) := by
  simp [follow, h]

theorem follow_capture {f : ScopeFrame} {x : String} {i : Nat} {τ : Symbol}
    (h : f.free[i]? = some τ) (around : List ScopeFrame) :
    follow (f :: around) ⟨x, .free, i⟩ =
      (follow around τ).map fun (k, ρ) => (k + 1, ρ) := by
  rw [follow]
  simp only [h, Option.bind_some]

namespace Ledger

/-- The function in force, or what is outside of all. -/
def current (l : Ledger) : Scope :=
  match l.functions with
  | [] => l.outside
  | s :: _ => s

def setCurrent (l : Ledger) (s : Scope) : Ledger :=
  match l.functions with
  | [] => { l with outside := s }
  | _ :: around => { l with functions := s :: around }

theorem setCurrent_current (l : Ledger) : l.setCurrent l.current = l := by
  obtain ⟨_, functions, _⟩ := l
  cases functions <;> rfl

end Ledger

/-- A symbol table with the ledger of the calls on it. -/
structure Session where
  table : SymbolTable
  ledger : Ledger

namespace Session

/-- A new table, or the table for a module of the program that another table is for. -/
def start : Option SymbolTable → Session
  | none => ⟨.empty, ⟨[], [], .empty⟩⟩
  | some t => ⟨t.forModule, ⟨t.builtins.toList.map fun (x, i) => ⟨x, .builtin, i⟩, [.empty], .empty⟩⟩

/-- One call. Only a block or function that is innermost may be left. -/
def next (s : Session) : TableCall → Option Session
  | .builtin name index => some ⟨s.table.defineBuiltin name index,
      { s.ledger with builtins := ⟨name, .builtin, index⟩ :: s.ledger.builtins }⟩
  | .define name => some ⟨(s.table.define name).2,
      s.ledger.setCurrent (s.ledger.current.define (s.table.define name).1)⟩
  | .resolve name => some ⟨(s.table.resolve name).2,
      s.ledger.setCurrent (s.ledger.current.answer (s.table.resolve name).1)⟩
  | .enterBlock => some ⟨s.table.enterBlock,
      s.ledger.setCurrent (s.ledger.current.enter s.table.current.nextSlot)⟩
  | .leaveBlock =>
    match s.ledger.current.outer with
    | [] => none
    | block :: outer => some ⟨s.table.leaveBlock,
        s.ledger.setCurrent { s.ledger.current with block, outer }⟩
  | .enterFunction => some ⟨s.table.enterFunction,
      { s.ledger with functions := .empty :: s.ledger.functions }⟩
  | .leaveFunction =>
    match s.ledger.functions with
    | ⟨_, [], _, _⟩ :: functions => some ⟨s.table.leaveFunction.2, { s.ledger with functions }⟩
    | _ => none

/-- A block is left for the one around it. -/
theorem next_leaveBlock {s s' : Session} (h : s.next .leaveBlock = some s') :
    ∃ block outer, s.ledger.current.outer = block :: outer ∧
      s' = ⟨s.table.leaveBlock, s.ledger.setCurrent { s.ledger.current with block, outer }⟩ := by
  simp only [next] at h
  split at h
  · cases h
  · exact ⟨_, _, ‹_›, (Option.some.inj h).symm⟩

/-- A function is left when no block is open in it. -/
theorem next_leaveFunction {s s' : Session} (h : s.next .leaveFunction = some s') :
    ∃ a functions, s.ledger.functions = a :: functions ∧ a.outer = [] ∧
      s' = ⟨s.table.leaveFunction.2, { s.ledger with functions }⟩ := by
  simp only [next] at h
  split at h
  · exact ⟨_, _, ‹_›, rfl, (Option.some.inj h).symm⟩
  · cases h

/-- Calls one after the other. -/
def run (s : Session) (calls : List TableCall) : Option Session := calls.foldlM next s

/-- What holds at the start and stays true from call to call holds after any calls. -/
theorem run_induction {P : Session → Prop} (hstart : ∀ t, P (start t))
    (hnext : ∀ {s call s'}, P s → s.next call = some s' → P s') {t : Option SymbolTable}
    {calls : List TableCall} {s : Session} (h : (start t).run calls = some s) : P s := by
  have hrun : ∀ (calls : List TableCall) (s₀ : Session), P s₀ → s₀.run calls = some s → P s := by
    intro calls
    induction calls with
    | nil =>
      intro s₀ h₀ heq
      cases heq
      exact h₀
    | cons call calls ih =>
      intro s₀ h₀ heq
      unfold run at heq
      rw [List.foldlM_cons] at heq
      obtain ⟨s₁, hcall, hrest⟩ := Option.bind_eq_some_iff.mp heq
      exact ih s₁ (hnext h₀ hcall) hrest
  exact hrun calls (start t) (hstart t) h

end Session

end ScriptEngine.Symbols
