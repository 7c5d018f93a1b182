import Mathlib
import ScriptEngine.Proofs.Interchange.RoundTrip
import ScriptEngine.Value.Call
import ScriptEngine.Value.Equality
/-!
The laws of equality. It is symmetric and transitive, and a value equals itself unless it holds a
NaN. Equal values are of one type and as truthy as each other, and their lengths and keys agree.

The rules of `Value.Alike` say when two values are equal. A derivation pairs values of one kind
only, so that the laws are read off it rule by rule.
-/
namespace ScriptEngine

/-- Equal floats are both zero or neither is. -/
theorem float_truthy_eq {x y : Float} (h : x == y) :
    (x != 0.0 && !x.isNaN) = (y != 0.0 && !y.isNaN) := by
  have hzero : (x == 0.0) = (y == 0.0) := BEq.congr_left h
  have hx : x ≠ .nan := Float.beq_self_iff.mp (PartialEquivBEq.trans h (BEq.symm h))
  have hy : y ≠ .nan := Float.beq_self_iff.mp (PartialEquivBEq.trans (BEq.symm h) h)
  rw [bne, bne, hzero, Float.isNaN_eq_decide_eq_nan, Float.isNaN_eq_decide_eq_nan,
    decide_eq_false hx, decide_eq_false hy]

namespace Value

/-! ### The rules -/

mutual

/-- When two values are equal: data by its contents, floats as numbers, functions if they are the
same object. -/
inductive Alike : Value → Value → Prop
  | undefined : Alike undefined undefined
  | bool (b : Bool) : Alike (bool b) (bool b)
  | int (n : Int64) : Alike (int n) (int n)
  | float {x y : Float} : (x == y) = true → Alike (float x) (float y)
  | char (c : Char) : Alike (char c) (char c)
  | string (s : String) : Alike (string s) (string s)
  | array {as bs : List Value} : ItemsAlike as bs → Alike (array as) (array bs)
  | map {as bs : List (String × Value)} : EntriesAlike as bs → Alike (map as) (map bs)
  | module (name : String) {as bs : List (String × Value)} : EntriesAlike as bs →
      Alike (module name as) (module name bs)
  | function (id : FunctionId) (r r' : Routine) : Alike (function id r) (function id r')
  | closure (id : FunctionId) (r r' : Routine) (free free' : List Value) :
      Alike (closure id r free) (closure id r' free')
  | builtin (b : Builtin) : Alike (builtin b) (builtin b)
  | native (id : FunctionId) (name name' : String) : Alike (native id name) (native id name')

/-- As many items, equal one by one. -/
inductive ItemsAlike : List Value → List Value → Prop
  | nil : ItemsAlike [] []
  | cons {a b : Value} {as bs : List Value} : Alike a b → ItemsAlike as bs →
      ItemsAlike (a :: as) (b :: bs)

/-- The same keys, with equal values. -/
inductive EntriesAlike : List (String × Value) → List (String × Value) → Prop
  | nil : EntriesAlike [] []
  | cons (key : String) {a b : Value} {as bs : List (String × Value)} : Alike a b →
      EntriesAlike as bs → EntriesAlike ((key, a) :: as) ((key, b) :: bs)

end

mutual

theorem alike_of_same {a b : Value} (h : same a b = true) : Alike a b := by
  match a with
  | undefined | bool _ | int _ | char _ | string _ | function .. | closure .. | builtin _
  | native .. =>
    cases b <;> simp only [same, beq_iff_eq, Bool.false_eq_true] at h
    try subst h
    constructor
  | float x =>
    cases b <;> simp only [same, Bool.false_eq_true] at h
    exact .float h
  | array as =>
    cases b <;> simp only [same, Bool.false_eq_true] at h
    exact .array (itemsAlike_of_same h)
  | map as =>
    cases b <;> simp only [same, Bool.false_eq_true] at h
    exact .map (entriesAlike_of_same h)
  | module name as =>
    cases b <;> simp only [same, Bool.false_eq_true, Bool.and_eq_true, beq_iff_eq] at h
    obtain ⟨rfl, hattrs⟩ := h
    exact .module name (entriesAlike_of_same hattrs)

theorem itemsAlike_of_same {as bs : List Value} (h : sameItems as bs = true) :
    ItemsAlike as bs := by
  match as with
  | [] =>
    cases bs <;> simp only [sameItems, Bool.false_eq_true] at h
    exact .nil
  | a :: as =>
    cases bs <;> simp only [sameItems, Bool.false_eq_true, Bool.and_eq_true] at h
    obtain ⟨hfirst, hrest⟩ := h
    exact .cons (alike_of_same hfirst) (itemsAlike_of_same hrest)

theorem entriesAlike_of_same {as bs : List (String × Value)} (h : sameEntries as bs = true) :
    EntriesAlike as bs := by
  match as with
  | [] =>
    cases bs <;> simp only [sameEntries, Bool.false_eq_true] at h
    exact .nil
  | (key, a) :: as =>
    cases bs <;> simp only [sameEntries, Bool.false_eq_true, Bool.and_eq_true, beq_iff_eq] at h
    obtain ⟨⟨rfl, hvalue⟩, hrest⟩ := h
    exact .cons _ (alike_of_same hvalue) (entriesAlike_of_same hrest)

end

mutual

theorem Alike.same {a b : Value} : Alike a b → Value.same a b = true
  | .undefined => rfl
  | .bool _ | .int _ | .char _ | .string _ | .function .. | .closure .. | .builtin _ | .native .. =>
    beq_self_eq_true _
  | .float h => h
  | .array h => h.same
  | .map h => h.same
  | .module name h => by
    rw [Value.same, beq_self_eq_true, h.same]
    rfl

theorem ItemsAlike.same {as bs : List Value} : ItemsAlike as bs → sameItems as bs = true
  | .nil => rfl
  | .cons h rest => by
    rw [sameItems, h.same, rest.same]
    rfl

theorem EntriesAlike.same {as bs : List (String × Value)} :
    EntriesAlike as bs → sameEntries as bs = true
  | .nil => rfl
  | .cons key h rest => by
    rw [sameEntries, beq_self_eq_true, h.same, rest.same]
    rfl

end

theorem same_iff {a b : Value} : same a b = true ↔ Alike a b := ⟨alike_of_same, Alike.same⟩

/-! ### The laws -/

mutual

theorem Alike.symm {a b : Value} : Alike a b → Alike b a
  | .undefined => .undefined
  | .bool b => .bool b
  | .int n => .int n
  | .float h => .float (BEq.symm h)
  | .char c => .char c
  | .string s => .string s
  | .array h => .array h.symm
  | .map h => .map h.symm
  | .module name h => .module name h.symm
  | .function id r r' => .function id r' r
  | .closure id r r' free free' => .closure id r' r free' free
  | .builtin b => .builtin b
  | .native id name name' => .native id name' name

theorem ItemsAlike.symm {as bs : List Value} : ItemsAlike as bs → ItemsAlike bs as
  | .nil => .nil
  | .cons h rest => .cons h.symm rest.symm

theorem EntriesAlike.symm {as bs : List (String × Value)} :
    EntriesAlike as bs → EntriesAlike bs as
  | .nil => .nil
  | .cons key h rest => .cons key h.symm rest.symm

end

mutual

theorem Alike.trans {a b c : Value} : Alike a b → Alike b c → Alike a c
  | .undefined, .undefined => .undefined
  | .bool b, .bool _ => .bool b
  | .int n, .int _ => .int n
  | .float h, .float h' => .float (PartialEquivBEq.trans h h')
  | .char c, .char _ => .char c
  | .string s, .string _ => .string s
  | .array h, .array h' => .array (h.trans h')
  | .map h, .map h' => .map (h.trans h')
  | .module name h, .module _ h' => .module name (h.trans h')
  | .function id r _, .function _ _ r' => .function id r r'
  | .closure id r _ free _, .closure _ _ r' _ free' => .closure id r r' free free'
  | .builtin b, .builtin _ => .builtin b
  | .native id name _, .native _ _ name' => .native id name name'

theorem ItemsAlike.trans {as bs cs : List Value} :
    ItemsAlike as bs → ItemsAlike bs cs → ItemsAlike as cs
  | .nil, .nil => .nil
  | .cons h rest, .cons h' rest' => .cons (h.trans h') (rest.trans rest')

theorem EntriesAlike.trans {as bs cs : List (String × Value)} :
    EntriesAlike as bs → EntriesAlike bs cs → EntriesAlike as cs
  | .nil, .nil => .nil
  | .cons key h rest, .cons _ h' rest' => .cons key (h.trans h') (rest.trans rest')

end

mutual

/-- What a closure captured is no part of it, so a NaN there does no harm. -/
theorem alike_self (v : Value) : Alike v v ↔ ∀ x, float x ∈ v.parts → x.isNaN = false := by
  match v with
  | undefined | bool _ | int _ | char _ | string _ | function .. | closure .. | builtin _
  | native .. =>
    simp only [parts, List.mem_singleton, reduceCtorEq, false_implies, implies_true, iff_true]
    constructor
  | float x =>
    simp only [parts, List.mem_singleton, float.injEq, forall_eq, Float.isNaN_eq_decide_eq_nan,
      decide_eq_false_iff_not]
    exact ⟨fun | .float h => Float.beq_self_iff.mp h, fun h => .float (Float.beq_self_iff.mpr h)⟩
  | array items =>
    simp only [parts, List.mem_cons, reduceCtorEq, false_or, ← itemsAlike_self items]
    exact ⟨fun | .array h => h, .array⟩
  | map entries =>
    simp only [parts, List.mem_cons, reduceCtorEq, false_or, ← entriesAlike_self entries]
    exact ⟨fun | .map h => h, .map⟩
  | module name attrs =>
    simp only [parts, List.mem_cons, reduceCtorEq, false_or, ← entriesAlike_self attrs]
    exact ⟨fun | .module _ h => h, .module name⟩

theorem itemsAlike_self (items : List Value) :
    ItemsAlike items items ↔ ∀ x, float x ∈ itemsParts items → x.isNaN = false := by
  match items with
  | [] =>
    simp only [itemsParts, List.not_mem_nil, false_implies, implies_true, iff_true]
    exact .nil
  | v :: rest =>
    simp only [itemsParts, List.mem_append, or_imp, forall_and, ← alike_self v,
      ← itemsAlike_self rest]
    exact ⟨fun | .cons h hrest => ⟨h, hrest⟩, fun ⟨h, hrest⟩ => .cons h hrest⟩

theorem entriesAlike_self (entries : List (String × Value)) :
    EntriesAlike entries entries ↔ ∀ x, float x ∈ entriesParts entries → x.isNaN = false := by
  match entries with
  | [] =>
    simp only [entriesParts, List.not_mem_nil, false_implies, implies_true, iff_true]
    exact .nil
  | (key, v) :: rest =>
    simp only [entriesParts, List.mem_append, or_imp, forall_and, ← alike_self v,
      ← entriesAlike_self rest]
    exact ⟨fun | .cons _ h hrest => ⟨h, hrest⟩, fun ⟨h, hrest⟩ => .cons key h hrest⟩

end

/-! ### What equal values have in common -/

theorem ItemsAlike.length_eq {as bs : List Value} : ItemsAlike as bs → as.length = bs.length
  | .nil => rfl
  | .cons _ rest => congrArg (· + 1) rest.length_eq

theorem EntriesAlike.keys_eq {as bs : List (String × Value)} :
    EntriesAlike as bs → as.map (·.1) = bs.map (·.1)
  | .nil => rfl
  | .cons key _ rest => congrArg (key :: ·) rest.keys_eq

theorem EntriesAlike.length_eq {as bs : List (String × Value)} (h : EntriesAlike as bs) :
    as.length = bs.length := by
  rw [← List.length_map (·.1), h.keys_eq, List.length_map]

namespace Alike

variable {a b : Value}

theorem typeName_eq (h : Alike a b) : a.typeName = b.typeName := by
  cases h <;> rfl

theorem isTruthy_eq (h : Alike a b) : a.isTruthy = b.isTruthy := by
  cases h with
  | float h => exact float_truthy_eq h
  | array h => cases h <;> rfl
  | map h => cases h <;> rfl
  | _ => rfl

theorem array_eq {as : List Value} (h : Alike (.array as) b) :
    ∃ bs, b = .array bs ∧ as.length = bs.length := by
  cases h with
  | array h => exact ⟨_, rfl, h.length_eq⟩

theorem keys_eq (h : Alike a b) :
    a.entries?.map (·.map (·.1)) = b.entries?.map (·.map (·.1)) := by
  cases h with
  | map h => exact congrArg some h.keys_eq
  | module name h => exact congrArg some h.keys_eq
  | _ => rfl

/-- The builtin `len` answers alike, also where it refuses its argument. -/
theorem length_eq (h : Alike a b) : Builtin.length a = Builtin.length b := by
  cases h with
  | array h => simp only [Builtin.length, h.length_eq]
  | map h => simp only [Builtin.length, h.length_eq]
  | module name h => simp only [Builtin.length, h.length_eq]
  | _ => rfl

/-- The builtin `keys` answers alike, also where it refuses its argument. -/
theorem keysOf_eq (h : Alike a b) : Builtin.keysOf a = Builtin.keysOf b := by
  have texts (es : List (String × Value)) :
      es.map (fun e => Value.string e.1) = (es.map (·.1)).map Value.string := by
    rw [List.map_map]
    rfl
  cases h with
  | map h => simp only [Builtin.keysOf, texts, h.keys_eq]
  | module name h => simp only [Builtin.keysOf, texts, h.keys_eq]
  | _ => rfl

end Alike

end Value

/-- Equality is symmetric and transitive. A value equals itself exactly if none of its parts is a
NaN, where what a closure captured is no part of it. Equal values are of one type, as truthy as each
other, and of one length and with the same keys, also as scripts see them. -/
theorem equality_fails_only_on_nan :
    (∀ a b : Value, a.same b = true → b.same a = true) ∧
    (∀ a b c : Value, a.same b = true → b.same c = true → a.same c = true) ∧
    (∀ a : Value, a.same a = true ↔ ∀ x, .float x ∈ a.parts → x.isNaN = false) ∧
    ∀ a b : Value, a.same b = true →
      a.typeName = b.typeName ∧ a.isTruthy = b.isTruthy ∧
      (∀ as, a = .array as → ∃ bs, b = .array bs ∧ as.length = bs.length) ∧
      a.entries?.map (·.map (·.1)) = b.entries?.map (·.map (·.1)) ∧
      Builtin.len.call [a] = Builtin.len.call [b] ∧
      Builtin.keys.call [a] = Builtin.keys.call [b] := by
  simp only [Value.same_iff]
  refine ⟨fun a b h => h.symm, fun a b c hab hbc => hab.trans hbc, Value.alike_self, ?_⟩
  intro a b h
  refine ⟨h.typeName_eq, h.isTruthy_eq, ?_, h.keys_eq, h.length_eq, h.keysOf_eq⟩
  rintro as rfl
  exact h.array_eq

/-- A module with a number, and with a closure that captured a NaN. -/
def numberModule (x : Float) : Value :=
  .module "m" [("f", .closure ⟨2, 0⟩ default [.float (0.0 / 0.0)]), ("x", .array [.float x])]

/-- The two zeros make equal modules, and a NaN makes one that is not equal to itself. -/
theorem equality_fails_only_on_nan_zeros :
    (numberModule 0.0).same (numberModule (-0.0)) = true ∧
    (numberModule (-0.0)).same (numberModule 0.0) = true ∧
    (numberModule 0.0).same (numberModule 0.0) = true ∧
    Builtin.keys.call [numberModule 0.0] = Builtin.keys.call [numberModule (-0.0)] ∧
    ¬ (numberModule (0.0 / 0.0)).same (numberModule (0.0 / 0.0)) = true := by
  obtain ⟨symm, trans, self, alike⟩ := equality_fails_only_on_nan
  have equal : (numberModule 0.0).same (numberModule (-0.0)) = true := by decide
  have back : (numberModule (-0.0)).same (numberModule 0.0) = true := symm _ _ equal
  refine ⟨equal, back, trans _ _ _ equal back, (alike _ _ equal).2.2.2.2.2, ?_⟩
  intro h
  have nan : (0.0 / 0.0 : Float).isNaN = false :=
    (self _).mp h _ (by simp [numberModule, Value.parts, Value.itemsParts, Value.entriesParts])
  exact absurd nan (by decide)

end ScriptEngine
