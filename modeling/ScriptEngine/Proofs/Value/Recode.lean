import ScriptEngine.Proofs.Value.Disguise
/-! Values with other code in their functions. -/
namespace ScriptEngine

namespace Value

section Definitions

variable (code : Routine → Routine) (hold : List Value → List Value)

mutual

/-- The value with other code in its functions, of which closures hold other values. -/
def recode : Value → Value
  | array items => array (recodeItems items)
  | map entries => map (recodeEntries entries)
  | module name attrs => module name (recodeEntries attrs)
  | function id r => function id (code r)
  | closure id r free => closure id (code r) (hold free)
  | other => other

def recodeItems : List Value → List Value
  | [] => []
  | v :: rest => v.recode :: recodeItems rest

def recodeEntries : List (String × Value) → List (String × Value)
  | [] => []
  | (key, v) :: rest => (key, v.recode) :: recodeEntries rest

end

end Definitions

variable {code code₂ : Routine → Routine} {hold hold₂ : List Value → List Value} {v w : Value}
  {items : List Value} {entries : List (String × Value)}

theorem recodeItems_eq : recodeItems code hold items = items.map (recode code hold) := by
  induction items with
  | nil => rfl
  | cons v rest ih => simp [recodeItems, ih]

theorem recodeEntries_eq :
    recodeEntries code hold entries = entries.map fun e => (e.1, e.2.recode code hold) := by
  induction entries with
  | nil => rfl
  | cons e rest ih => simp [recodeEntries, ih]

theorem recode_array :
    (array items).recode code hold = array (items.map (recode code hold)) := by
  rw [recode, recodeItems_eq]

theorem recode_map : (map entries).recode code hold =
    map (entries.map fun e => (e.1, e.2.recode code hold)) := by
  rw [recode, recodeEntries_eq]

theorem recode_module {name : String} : (module name entries).recode code hold =
    module name (entries.map fun e => (e.1, e.2.recode code hold)) := by
  rw [recode, recodeEntries_eq]

/-- No operator and no builtin sees the difference. -/
theorem disguises_recode : Disguises id code hold (recode code hold) where
  injective := Function.injective_id
  eq v := by
    cases v with
    | array items => exact recode_array
    | map entries => exact recode_map
    | module name attrs => exact recode_module
    | _ => rfl

mutual

theorem recode_recode : (v : Value) → (v.recode code hold).recode code₂ hold₂ =
    v.recode (fun r => code₂ (code r)) fun vs => hold₂ (hold vs)
  | .array items => congrArg array (recodeItems_recodeItems items)
  | .map entries => congrArg map (recodeEntries_recodeEntries entries)
  | .module name attrs => congrArg (module name) (recodeEntries_recodeEntries attrs)
  | .function .. | .closure .. | .undefined | .bool _ | .int _ | .float _ | .char _ | .string _
  | .builtin _ | .native .. => rfl

theorem recodeItems_recodeItems : (items : List Value) →
    recodeItems code₂ hold₂ (recodeItems code hold items) =
      recodeItems (fun r => code₂ (code r)) (fun vs => hold₂ (hold vs)) items
  | [] => rfl
  | v :: rest => by
    rw [recodeItems, recodeItems, recodeItems, recode_recode v, recodeItems_recodeItems rest]

theorem recodeEntries_recodeEntries : (entries : List (String × Value)) →
    recodeEntries code₂ hold₂ (recodeEntries code hold entries) =
      recodeEntries (fun r => code₂ (code r)) (fun vs => hold₂ (hold vs)) entries
  | [] => rfl
  | (key, v) :: rest => by
    rw [recodeEntries, recodeEntries, recodeEntries, recode_recode v,
      recodeEntries_recodeEntries rest]

end

end Value

end ScriptEngine
