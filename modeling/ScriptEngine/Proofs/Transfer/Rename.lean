import ScriptEngine.Proofs.Machine.Guise
/-!
Values with other function objects, whose code was written elsewhere. Code that is compiled twice
makes functions that differ in this way; runs do not show it.
-/
namespace ScriptEngine

/-- Other objects for functions, different ones for different ones, and other places in a source for
their code. -/
structure Renaming where
  who : FunctionId → FunctionId
  injective : Function.Injective who
  places : Array (Nat × Pos) → Array (Nat × Pos)
  /-- Code without places stays so. -/
  unplaced : places #[] = #[]

def Renaming.routine (t : Renaming) (r : Routine) : Routine :=
  { r with sourceMap := t.places r.sourceMap }

namespace Value

mutual

/-- The value with all functions in it renamed. -/
def rename (t : Renaming) : Value → Value
  | array items => array (renameItems t items)
  | map entries => map (renameEntries t entries)
  | module name attrs => module name (renameEntries t attrs)
  | function id r => function (t.who id) (t.routine r)
  | closure id r free => closure (t.who id) (t.routine r) (renameItems t free)
  | other => other

def renameItems (t : Renaming) : List Value → List Value
  | [] => []
  | v :: rest => v.rename t :: renameItems t rest

def renameEntries (t : Renaming) : List (String × Value) → List (String × Value)
  | [] => []
  | (key, v) :: rest => (key, v.rename t) :: renameEntries t rest

end

variable {t : Renaming}

theorem renameItems_eq (items : List Value) : renameItems t items = items.map (rename t) := by
  induction items with
  | nil => rfl
  | cons v rest ih => rw [renameItems, ih, List.map_cons]

theorem renameEntries_eq (entries : List (String × Value)) :
    renameEntries t entries = entries.map fun e => (e.1, e.2.rename t) := by
  induction entries with
  | nil => rfl
  | cons e rest ih => rw [renameEntries, ih, List.map_cons]

/-- No operator and no builtin sees that functions have been renamed. -/
theorem disguises_rename : Disguises t.who t.routine (List.map (rename t)) (rename t) where
  injective := t.injective
  eq v := by
    cases v with
    | array items => exact congrArg array (renameItems_eq items)
    | map entries => exact congrArg map (renameEntries_eq entries)
    | module name attrs => exact congrArg (module name) (renameEntries_eq attrs)
    | closure id r free => exact congrArg (closure (t.who id) (t.routine r)) (renameItems_eq free)
    | _ => rfl

end Value

namespace Guise

/-- All functions are renamed, and the globals are others altogether. -/
def rename (t : Renaming) (g : Globals) : Guise where
  who := t.who
  routine := t.routine
  value := Value.rename t
  globals _ := g
  disguises := Value.disguises_rename
  params _ := rfl
  locals _ := rfl

end Guise

end ScriptEngine
