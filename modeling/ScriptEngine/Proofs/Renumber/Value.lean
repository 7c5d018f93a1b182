import ScriptEngine.Machine.Host
import ScriptEngine.Proofs.Merge.Layout
import ScriptEngine.Proofs.Value.Disguise
/-!
Values whose functions follow their constants to new places. They have other code, and closures hold
such values in turn.
-/
namespace ScriptEngine

namespace Value

mutual

/-- The value with the constants moved in the code of all functions that it holds. -/
def renumber (moved : Array Nat) : Value → Value
  | array items => array (renumberItems moved items)
  | map entries => map (renumberEntries moved entries)
  | module name attrs => module name (renumberEntries moved attrs)
  | function id r => function id (r.redirect moved)
  | closure id r free => closure id (r.redirect moved) (renumberItems moved free)
  | other => other

def renumberItems (moved : Array Nat) : List Value → List Value
  | [] => []
  | v :: rest => v.renumber moved :: renumberItems moved rest

def renumberEntries (moved : Array Nat) : List (String × Value) → List (String × Value)
  | [] => []
  | (key, v) :: rest => (key, v.renumber moved) :: renumberEntries moved rest

end

variable {moved : Array Nat} {v : Value} {items : List Value}

theorem renumberItems_eq : renumberItems moved items = items.map (renumber moved) := by
  induction items with
  | nil => rfl
  | cons v rest ih => simp [renumberItems, ih]

theorem renumberEntries_eq {entries : List (String × Value)} :
    renumberEntries moved entries = entries.map fun e => (e.1, e.2.renumber moved) := by
  induction entries with
  | nil => rfl
  | cons e rest ih => simp [renumberEntries, ih]

@[simp] theorem renumber_undefined : undefined.renumber moved = undefined := rfl

@[simp] theorem renumber_array :
    (array items).renumber moved = array (items.map (renumber moved)) := by
  rw [renumber, renumberItems_eq]

@[simp] theorem renumber_closure {id : FunctionId} {r : Routine} :
    (closure id r items).renumber moved =
      closure id (r.redirect moved) (items.map (renumber moved)) := by
  rw [renumber, renumberItems_eq]

/-- Moving the constants changes nothing in a function's own code. -/
def Fixed (moved : Array Nat) : Value → Prop
  | function _ r | closure _ r _ => r.redirect moved = r
  | _ => True

mutual

/-- A value stays as it is if all code in it does. -/
theorem renumber_fixed : (v : Value) → v.Only (Fixed moved) → v.renumber moved = v
  | .array items, h => congrArg array (renumberItems_fixed items h)
  | .map entries, h => congrArg map (renumberEntries_fixed entries h)
  | .module name attrs, h => congrArg (module name) (renumberEntries_fixed attrs h)
  | .function id r, h => congrArg (function id) (only_function.mp h)
  | .closure id r free, h => by
    have hr : r.redirect moved = r := h _ List.mem_cons_self
    rw [renumber, hr, renumberItems_fixed free fun f hf => h f (List.mem_cons_of_mem _ hf)]
  | .undefined, _ | .bool _, _ | .int _, _ | .float _, _ | .char _, _ | .string _, _
  | .builtin _, _ | .native .., _ => rfl

theorem renumberItems_fixed : (items : List Value) → (∀ f ∈ functionsOf items, Fixed moved f) →
    renumberItems moved items = items
  | [], _ => rfl
  | v :: rest, h => by
    obtain ⟨hv, hrest⟩ := List.forall_mem_append.mp h
    rw [renumberItems, renumber_fixed v hv, renumberItems_fixed rest hrest]

theorem renumberEntries_fixed : (entries : List (String × Value)) →
    (∀ f ∈ functionsIn entries, Fixed moved f) → renumberEntries moved entries = entries
  | [], _ => rfl
  | (key, v) :: rest, h => by
    obtain ⟨hv, hrest⟩ := List.forall_mem_append.mp h
    rw [renumberEntries, renumber_fixed v hv, renumberEntries_fixed rest hrest]

end

mutual

/-- The functions in a renumbered value are those in the value, renumbered. -/
theorem functions_renumber : (v : Value) →
    (v.renumber moved).functions = v.functions.map (renumber moved)
  | .array items => functionsOf_renumber items
  | .map entries => functionsIn_renumber entries
  | .module _ attrs => functionsIn_renumber attrs
  | .closure _ _ free => congrArg (_ :: ·) (functionsOf_renumber free)
  | .function .. | .undefined | .bool _ | .int _ | .float _ | .char _ | .string _ | .builtin _
  | .native .. => rfl

theorem functionsOf_renumber : (items : List Value) →
    functionsOf (renumberItems moved items) = (functionsOf items).map (renumber moved)
  | [] => rfl
  | v :: rest => by
    rw [renumberItems, functionsOf, functionsOf, functions_renumber v, functionsOf_renumber rest,
      List.map_append]

theorem functionsIn_renumber : (entries : List (String × Value)) →
    functionsIn (renumberEntries moved entries) = (functionsIn entries).map (renumber moved)
  | [] => rfl
  | (key, v) :: rest => by
    rw [renumberEntries, functionsIn, functionsIn, functions_renumber v, functionsIn_renumber rest,
      List.map_append]

end

/-- No operator and no builtin sees that constants have moved. -/
theorem disguises_renumber :
    Disguises id (·.redirect moved) (List.map (renumber moved)) (renumber moved) where
  injective := Function.injective_id
  eq v := by
    cases v with
    | array items => exact renumber_array
    | map entries => exact congrArg map renumberEntries_eq
    | module name attrs => exact congrArg (module name) renumberEntries_eq
    | closure id r free => exact renumber_closure
    | _ => rfl

end Value

open Value

variable {moved : Array Nat}

/-- An answer with its value renumbered. -/
def Reply.renumber (moved : Array Nat) : Reply → Reply
  | .value v => .value (v.renumber moved)
  | other => other

end ScriptEngine
