import ScriptEngine.Proofs.Globals.Handles
import ScriptEngine.Proofs.Positions.Program
import ScriptEngine.Proofs.Transfer.Code
/-!
Functions that a host takes from one artifact and gives to another. Their code names constants by
the place in a pool, and the machine looks in the pool of the artifact that runs.
-/
namespace ScriptEngine

open Encoding Globals

/-- All functions in a value have code that a compiler may have written. -/
def Value.Sealed (v : Value) : Prop := v.Only (Value.Runs Body.Sealed)

/-- Moved constants leave the instructions where they are, and the jumps. -/
theorem Body.Sealed.redirect {R : Body} (h : R.Sealed) (moved : Array Nat) :
    (R.redirect moved).Sealed where
  plain hat := by
    rw [Body.redirect, Code.at?_redirect] at hat
    obtain ⟨item, hitem, rfl⟩ := Option.map_eq_some_iff.mp hat
    obtain ⟨i, pos, rfl⟩ := h.plain hitem
    exact ⟨i.redirect moved, pos, rfl⟩
  jumps {p i pos} hat hop := by
    rw [Body.redirect, Code.at?_redirect] at hat
    obtain ⟨item, hitem, heq⟩ := Option.map_eq_some_iff.mp hat
    obtain ⟨j, pos', rfl⟩ := h.plain hitem
    cases heq
    rw [Instruction.op_redirect] at hop
    have hloads : ¬ j.op.loadsConstant = true := fun hloads => by
      rcases widths_of_loadsConstant hloads with hj | hj <;> rw [hj] at hop <;> cases hop
    have hsame : j.redirect moved = j := if_neg hloads
    have hbound : R.Bound j.narrow.a := h.jumps hitem hop
    rw [hsame]
    simpa [Body.redirect, Body.Bound, boundary_map] using hbound

theorem Value.Sealed.redirect {v : Value} (h : v.Sealed) (moved : Array Nat) :
    (v.redirect moved).Sealed := by
  cases v with
  | function id r =>
    obtain ⟨R, hR, rfl⟩ := Value.only_function.mp h
    exact Value.only_function.mpr ⟨R.redirect moved, hR.redirect moved, R.routine_redirect moved⟩
  | _ => exact h

section Program

variable {s : Script} {a : Artifact} {text : List Stmt} {L : Image} {main : Body}

/-- A program whose host has given it such functions alone has no others. -/
theorem Script.Laid.running (h : s.Laid a text L main) (hs : s.Holds Value.Sealed) :
    a.Running Body.Sealed := by
  obtain ⟨moved, hcomplete⟩ := h.complete
  have hconstant {v : Value} (hv : L.Constant v) : v.Sealed := by
    cases v with
    | function id r =>
      obtain ⟨R, rfl, hdefines⟩ := hv
      obtain ⟨whole, -, htiled⟩ := hdefines.tiled hcomplete.modules
      exact Value.only_function.mpr ⟨R, Image.sealed_of_tiled htiled, rfl⟩
    | module name attrs =>
      obtain rfl : attrs = L.attrs name := hv
      exact Value.only_module.mpr <|
        h.attrs_all hs (fun hmodule => Value.only_module.mp hmodule) name
    | int _ | float _ | char _ | string _ => exact Value.Plain.only rfl
    | _ => exact hv.elim
  have hpool : ∀ v ∈ a.bytecode.pool, v.Sealed := by
    intro v hv
    rcases hcomplete.constants v (h.pool ▸ hv) with hforeign | hlaid
    · obtain ⟨w, hw, rfl⟩ := List.mem_map.mp hforeign
      exact Value.Sealed.redirect (hs.pool w hw) moved
    · exact hconstant hlaid
  refine ⟨⟨id, fun _ _ _ hv => hpool _ (Array.mem_of_getElem? hv)⟩,
    ⟨main, Image.sealed_of_tiled (h.lays.tiled hcomplete.modules), h.main⟩, ?_, fun i v hv => ?_⟩
  · rw [← h.main, Body.routine, h.lays.locals]
    exact Nat.zero_le _
  · rw [h.globals] at hv
    exact hs.globals hv

end Program

/-- A number, or the object and the code of a function: what can be compared. -/
def Value.facet : Value → Option (Int64 ⊕ FunctionId × Routine)
  | .int n => some (.inl n)
  | .function id r => some (.inr (id, r))
  | _ => none

theorem Value.eq_of_facets {vs ws : List Value} (h : vs.map facet = ws.map facet)
    (hws : ∀ w ∈ ws, w.facet ≠ none) : vs = ws := by
  have heq {v w : Value} (h : v.facet = w.facet) (hw : w.facet ≠ none) : v = w := by
    cases v <;> cases w <;> simp_all [facet]
  induction ws generalizing vs with
  | nil => exact List.map_eq_nil_iff.mp h
  | cons w ws ih =>
    obtain ⟨v, vs, rfl, hv, hvs⟩ := List.map_eq_cons_iff.mp h
    obtain ⟨hw, hws⟩ := List.forall_mem_cons.mp hws
    rw [heq hv hw, ih hvs hws]

/-- How the examples are run. -/
def bareConditions : Conditions := ⟨bareHost, 100, 0, 2⟩

/-- A script compiles to an artifact with some constants. After a run one of its globals has some
value. -/
def Script.Yields (s : Script) (maker : Nat) (name : String) (v : Value) (pool : List Value) :
    Prop :=
  ∃ a, (s.compile maker).1 = .ok a ∧ (a.run bareConditions).artifact.get name = v ∧
    a.bytecode.pool = pool.toArray

theorem Script.yields_of_check {s : Script} {maker : Nat} {name : String} {v w : Value}
    {pool : List Value} (hbindings : s.bindings = [(name, w)])
    (hfacets : ∀ u ∈ v :: pool, u.facet ≠ none)
    (h : ((s.compile maker).1.toOption.any fun a =>
      decide ((((a.run bareConditions).artifact.globals.get? 0).getD .undefined ::
        a.bytecode.pool.toList).map Value.facet = (v :: pool).map Value.facet)) = true) :
    s.Yields maker name v pool := by
  obtain ⟨a, ha, h⟩ := Compile.eq_ok_of_any h
  obtain ⟨hv, hpool⟩ := List.cons.inj (Value.eq_of_facets (of_decide_eq_true h) hfacets)
  have hslot : a.slot? name = some 0 :=
    slot_bound (by simp [Script.bound, hbindings]) ha (by simp [Script.bound, hbindings])
  refine ⟨a, ha, ?_, Array.toList_inj.mp hpool⟩
  change ((a.slot? name).bind (a.run bareConditions).artifact.globals.get?).getD .undefined = v
  rw [hslot, Option.bind_some, hv]

/-- A function that returns a constant. -/
def returningFunction (id : FunctionId) (k : Nat) (sourceMap : Array (Nat × Pos)) : Value :=
  .function id { Routine.ofRow [⟨.constant, k, 0⟩, ⟨.ret, 1, 0⟩] with sourceMap }

theorem mem_slots_returning {id : FunctionId} {k p : Nat} {sourceMap : Array (Nat × Pos)}
    {i : Instruction} (h : ⟨p, some i⟩ ∈ slots (returningFunction id k sourceMap).code) :
    i = ⟨.constant, k % 65536, 0⟩ ∨ i = ⟨.ret, 1, 0⟩ := by
  have hslots : slots (returningFunction id k sourceMap).code = _ :=
    @slots_encode _ [⟨.constant, k, 0⟩, ⟨.ret, 1, 0⟩] rfl
  rw [hslots] at h
  simp only [slotsOf, List.mem_cons, List.not_mem_nil, or_false] at h
  rcases h with h | h
  · cases h
    exact Or.inl rfl
  · cases h
    exact Or.inr rfl

/-- The number that a call of a function yields where that bytecode runs, if it yields one. -/
def Bytecode.replies (b : Bytecode) (f : Value) : Option Int64 :=
  match (Machine.calling f [] (.ofSize 0) none).loop ⟨b, bareHost, 2⟩ (fun _ => false) 20 with
  | (.finished, m) =>
    match m.stack.back? with
    | some (.int n) => some n
    | _ => none
  | _ => none

/-- A script whose function returns its second constant. -/
def aheadScript : Script :=
  (Script.ofSource "k := 1\nfn = func() { return 2 }".toUTF8 Script.defaultFile
    Script.defaultExtension).addValue "fn" .undefined

def aheadFunction : Value := returningFunction ⟨0, 0⟩ 1 #[(0, ⟨28, 2, 22⟩), (3, ⟨21, 2, 15⟩)]

/-- A script with another second constant. -/
def otherScript (v : Value) : Script :=
  (Script.ofSource "x := 7\ny := 8".toUTF8 Script.defaultFile Script.defaultExtension).addValue
    "fn" v

/-- A function that touches no globals yields another number where another constant stands in that
place, whether the name was bound to it before the other script was compiled, or set to it after. -/
theorem functions_mislead_elsewhere :
    ∃ a b c c', (aheadScript.compile 0).1 = .ok a ∧
      (a.run bareConditions).artifact.get "fn" = aheadFunction ∧
      (∀ p i, ⟨p, some i⟩ ∈ slots aheadFunction.code → i.op.isGlobal = false) ∧
      ((otherScript aheadFunction).compile 1).1 = .ok b ∧
      ((otherScript (.int 0)).compile 1).1 = .ok c ∧ c.setValue "fn" aheadFunction = .ok c' ∧
      a.bytecode.replies aheadFunction = some 2 ∧ b.bytecode.replies aheadFunction = some 8 ∧
      c'.bytecode.replies aheadFunction = some 8 := by
  have hreplies {b : Bytecode} (hpool : b.pool = #[.int 7, .int 8]) :
      b.replies aheadFunction = some 8 := by
    obtain ⟨file, main, pool⟩ := b
    cases hpool
    rfl
  have hahead : aheadScript.Yields 0 "fn" aheadFunction [.int 1, .int 2, aheadFunction] :=
    Script.yields_of_check rfl (by decide) (by decide +kernel)
  have hbound : (otherScript aheadFunction).Yields 1 "fn" aheadFunction [.int 7, .int 8] :=
    Script.yields_of_check rfl (by decide) (by decide +kernel)
  have hset : (otherScript (.int 0)).Yields 1 "fn" (.int 0) [.int 7, .int 8] :=
    Script.yields_of_check rfl (by decide) (by decide +kernel)
  obtain ⟨⟨names, ⟨file, main, pool⟩, globals, maxAllocs, made⟩, ha, hfn, hpool⟩ := hahead
  cases hpool
  obtain ⟨b, hb, -, hpool⟩ := hbound
  obtain ⟨c, hc, -, hpool'⟩ := hset
  have hslot : c.slot? "fn" = some 0 := slot_bound (by decide) hc rfl
  refine ⟨_, b, c, { c with globals := c.globals.set 0 aheadFunction }, ha, hfn, ?_, hb, hc, ?_,
    rfl, hreplies hpool, hreplies hpool'⟩
  · intro p i hi
    rcases mem_slots_returning hi with rfl | rfl <;> rfl
  · rw [Artifact.setValue, hslot]

end ScriptEngine
