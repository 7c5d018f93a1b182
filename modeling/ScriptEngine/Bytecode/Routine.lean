import ScriptEngine.Pos
/-! Compiled code of a function, a module or the main program. -/
namespace ScriptEngine

/-- Code with the frame it runs in. `sourceMap` pairs code offsets with the source positions from
there on, in ascending order. -/
structure Routine where
  code : Array UInt8
  locals : Nat
  params : Nat
  sourceMap : Array (Nat × Pos)
  deriving DecidableEq, Repr, Inhabited

namespace Routine

/-- Halves the stretch of `size` entries from `base` on in which the last one at or before `ip`
lies, until one is left. -/
def narrow (map : Array (Nat × Pos)) (ip : Nat) : (fuel size base : Nat) → Nat
  | 0, _, base => base
  | fuel + 1, size, base =>
    if size ≤ 1 then base
    else
      let middle := base + size / 2
      let reached := (map[middle]?.map fun entry => decide (entry.1 ≤ ip)).getD false
      narrow map ip fuel (size - size / 2) (if reached then middle else base)

/-- The source position recorded for the instruction at `ip`: that of the last entry at or before
it. -/
def posAt (r : Routine) (ip : Nat) : Option Pos :=
  let base := narrow r.sourceMap ip r.sourceMap.size r.sourceMap.size 0
  match r.sourceMap[base]? with
  | none => none
  | some (offset, pos) =>
    if offset ≤ ip then some pos
    else if base = 0 then none
    else (r.sourceMap[base - 1]?).map (·.2)

end Routine

end ScriptEngine
