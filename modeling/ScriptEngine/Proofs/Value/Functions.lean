import ScriptEngine.Machine.Operation
import ScriptEngine.Machine.Host
/-!
The script functions that a value holds. No operator and no builtin makes one: what a result holds
was held by an operand.
-/
namespace ScriptEngine

namespace Value

theorem mem_functionsOf {f : Value} {items : List Value} :
    f ∈ functionsOf items ↔ ∃ v ∈ items, f ∈ v.functions := by
  induction items with
  | nil => simp [functionsOf]
  | cons v rest ih => simp [functionsOf, ih]

theorem mem_functionsIn {f : Value} {entries : List (String × Value)} :
    f ∈ functionsIn entries ↔ ∃ e ∈ entries, f ∈ e.2.functions := by
  induction entries with
  | nil => simp [functionsIn]
  | cons e rest ih => simp [functionsIn, ih]

/-- All functions in a value are of one kind. -/
def Only (P : Value → Prop) (v : Value) : Prop := ∀ f ∈ v.functions, P f

/-- A value without script functions. -/
def Plain (v : Value) : Prop := v.functions = []

variable {P Q : Value → Prop} {v w : Value} {items : List Value}
  {entries : List (String × Value)}

theorem Plain.only (h : v.Plain) : v.Only P := by
  intro f hf
  rw [show v.functions = [] from h] at hf
  simp at hf

theorem Only.mono (h : v.Only P) (hPQ : ∀ f, P f → Q f) : v.Only Q := fun f hf => hPQ f (h f hf)

@[simp] theorem only_undefined : Only P .undefined := Plain.only rfl
@[simp] theorem only_bool (b : Bool) : Only P (.bool b) := Plain.only rfl
@[simp] theorem only_int (n : Int64) : Only P (.int n) := Plain.only rfl
@[simp] theorem only_float (x : Float) : Only P (.float x) := Plain.only rfl
@[simp] theorem only_char (c : Char) : Only P (.char c) := Plain.only rfl
@[simp] theorem only_string (s : String) : Only P (.string s) := Plain.only rfl
@[simp] theorem only_builtin (b : Builtin) : Only P (.builtin b) := Plain.only rfl

@[simp] theorem only_array : Only P (.array items) ↔ ∀ v ∈ items, v.Only P := by
  simp only [Only, functions, mem_functionsOf]
  exact ⟨fun h v hv f hf => h f ⟨v, hv, hf⟩, fun h f ⟨v, hv, hf⟩ => h v hv f hf⟩

@[simp] theorem only_map : Only P (.map entries) ↔ ∀ e ∈ entries, e.2.Only P := by
  simp only [Only, functions, mem_functionsIn]
  exact ⟨fun h e he f hf => h f ⟨e, he, hf⟩, fun h f ⟨e, he, hf⟩ => h e he f hf⟩

@[simp] theorem only_module {name : String} :
    Only P (.module name entries) ↔ ∀ e ∈ entries, e.2.Only P := only_map

@[simp] theorem only_function {id : FunctionId} {r : Routine} :
    Only P (.function id r) ↔ P (.function id r) := by
  simp [Only, functions]

@[simp] theorem only_closure {id : FunctionId} {r : Routine} {free : List Value} :
    Only P (.closure id r free) ↔ P (.closure id r free) ∧ ∀ v ∈ free, v.Only P := by
  simp only [Only, functions, List.mem_cons, mem_functionsOf]
  constructor
  · intro h
    exact ⟨h _ (Or.inl rfl), fun v hv f hf => h f (Or.inr ⟨v, hv, hf⟩)⟩
  · rintro ⟨h, hfree⟩ f (rfl | ⟨v, hv, hf⟩)
    · exact h
    · exact hfree v hv f hf

end Value

open Value

variable {P : Value → Prop} {l r v w : Value}

theorem Value.plain_of_mem {entries : List (String × Value)} (h : functionsIn entries = [])
    {e : String × Value} (he : e ∈ entries) : e.2.Plain := by
  refine List.eq_nil_iff_forall_not_mem.mpr fun f hf => ?_
  have hmem := mem_functionsIn.mpr ⟨e, he, hf⟩
  rw [h] at hmem
  cases hmem

/-- A trap of the machine itself: there is no such instruction. -/
def Trap.isInvalid : Trap → Bool
  | invalidInstruction _ => true
  | _ => false

/-- A computation keeps to the functions that its operands hold, and its traps are not the
machine's. -/
structure Computes (P : Value → Prop) (e : Except Trap Value) : Prop where
  only : ∀ v, e = .ok v → v.Only P
  trap : ∀ t, e = .error t → t.isInvalid = false

theorem Computes.ok (h : v.Only P) : Computes P (.ok v) where
  only w hw := by
    cases hw
    exact h
  trap t ht := by cases ht

theorem Computes.error {t : Trap} (h : t.isInvalid = false) : Computes P (.error t) where
  only w hw := by cases hw
  trap u hu := by
    cases hu
    exact h

theorem Computes.bind {α : Type} {e : Except Trap α} {f : α → Except Trap Value}
    (he : ∀ t, e = .error t → t.isInvalid = false) (h : ∀ a, e = .ok a → Computes P (f a)) :
    Computes P (e >>= f) := by
  cases e with
  | error t => exact .error (he t rfl)
  | ok a => exact h a rfl

theorem ArithOp.computes (op : ArithOp) (hl : l.Only P) (hr : r.Only P) :
    Computes P (op.apply l r) := by
  have hints (n k : Int64) : Computes P (op.onInts n k) := by
    cases op <;> simp only [onInts]
    case div | rem =>
      split
      · exact .error rfl
      · exact .ok (only_int _)
    all_goals exact .ok (only_int _)
  have hchars (c : Char) (n : Int64) : Computes P (op.apply (.char c) (.int n)) := by
    simp only [apply]
    split
    · exact .ok (only_char _)
    · exact .error rfl
  have harrays (xs ys : List Value) (hx : Only P (.array xs)) (hy : Only P (.array ys)) :
      Computes P (op.apply (.array xs) (.array ys)) := by
    simp only [apply]
    split
    · rw [only_array] at hx hy
      refine .ok (only_array.mpr fun v hv => ?_)
      exact (List.mem_append.mp hv).elim (hx v) (hy v)
    · exact .error rfl
  cases l <;> cases r
  case int.int => exact hints _ _
  case char.int => exact hchars _ _
  case array.array xs ys => exact harrays _ _ hl hr
  case float.float | int.float | float.int => exact .ok (only_float _)
  case string.string | string.int | string.float | string.char | string.bool =>
    simp only [apply]
    split
    · exact .ok (only_string _)
    · exact .error rfl
  all_goals exact .error rfl

theorem Comparison.computes (c : Comparison) : Computes P (c.apply l r) := by
  cases l <;> cases r
  case int.int | float.float | int.float | float.int | string.string | char.char =>
    exact .ok (only_bool _)
  all_goals exact .error rfl

namespace Value

theorem negate_computes : Computes P v.negate := by
  cases v
  case int => exact .ok (only_int _)
  case float => exact .ok (only_float _)
  all_goals exact .error rfl

theorem position_trap {container : String} {length : Nat} {t : Trap}
    (h : position container length v = .error t) : t.isInvalid = false := by
  cases v <;> simp only [position] at h
  case int n =>
    split at h <;> cases h
    rfl
  all_goals
    cases h
    rfl

theorem only_find? {entries : List (String × Value)} {key : String}
    (h : ∀ e ∈ entries, e.2.Only P) : ((Entries.find? key entries).getD .undefined).Only P := by
  induction entries with
  | nil => exact only_undefined
  | cons e rest ih =>
    unfold Entries.find?
    split
    · exact h e List.mem_cons_self
    · exact ih fun f hf => h f (List.mem_cons_of_mem _ hf)

theorem element_computes (hl : l.Only P) : Computes P (l.element r) := by
  cases l with
  | array items =>
    refine .bind (fun t ht => position_trap ht) fun i _ => .ok ?_
    rw [only_array] at hl
    rcases Nat.lt_or_ge i items.length with hi | hi
    · simpa [List.getD, List.getElem?_eq_getElem hi] using hl _ (List.getElem_mem hi)
    · simp [List.getD, List.getElem?_eq_none hi]
  | string s =>
    refine .bind (fun t ht => position_trap ht) fun i _ => .ok ?_
    cases s.toList[i]? <;> simp
  | map entries =>
    cases r with
    | string key => exact .ok (only_find? (only_map.mp hl))
    | _ => exact .error rfl
  | module name entries =>
    cases r with
    | string key => exact .ok (only_find? (only_module.mp hl))
    | _ => exact .error rfl
  | undefined => exact .ok only_undefined
  | _ => exact .error rfl

theorem replaceElement_computes (hl : l.Only P) (hv : v.Only P) :
    Computes P (l.replaceElement r v) := by
  cases l with
  | array items =>
    refine .bind (fun t ht => position_trap ht) fun i _ => .ok (only_array.mpr fun u hu => ?_)
    rcases List.mem_or_eq_of_mem_set hu with hu | rfl
    · exact only_array.mp hl u hu
    · exact hv
  | map entries =>
    unfold replaceElement
    cases r
    case string key =>
      refine .ok (only_map.mpr fun e he => ?_)
      rcases Entries.mem_insert he with rfl | he
      · exact hv
      · exact only_map.mp hl e he
    all_goals exact .error rfl
  | _ => exact .error rfl

theorem mapOf_computes {items : List Value} {entries : List (String × Value)}
    (hitems : ∀ v ∈ items, v.Only P) (h : ∀ e ∈ entries, e.2.Only P) :
    Computes P (mapOf items entries) := by
  induction items, entries using mapOf.induct with
  | case1 key value rest entries ih =>
    refine ih (fun v hv => hitems v (by simp [hv])) fun e he => ?_
    rcases Entries.mem_insert he with rfl | he
    · exact hitems _ (by simp)
    · exact h e he
  | case2 other value rest entries hother =>
    unfold mapOf
    split
    · rename_i heq
      simp only [List.cons.injEq] at heq
      exact absurd heq.1 (hother _)
    · exact .error rfl
    · exact .ok (only_map.mpr h)
  | case3 items entries h₁ h₂ =>
    unfold mapOf
    split
    · exact absurd rfl (h₁ _ _ _)
    · exact absurd rfl (h₂ _ _ _)
    · exact .ok (only_map.mpr h)

end Value

namespace Builtin

theorem mem_withFallback {args : List Value} {fallback : Value}
    (h : withFallback args = .ok (v, fallback)) :
    v ∈ args ∧ (fallback ∈ args ∨ fallback = .undefined) := by
  unfold withFallback at h
  split at h <;> cases h <;> simp

theorem only_extend {args : List Value} (h : extend args = .ok v) (hargs : ∀ u ∈ args, u.Only P) :
    v.Only P := by
  unfold extend at h
  split at h <;> cases h
  · rename_i items rest
    refine only_array.mpr fun u hu => ?_
    rcases List.mem_append.mp hu with hu | hu
    · exact only_array.mp (hargs _ List.mem_cons_self) u hu
    · exact hargs u (List.mem_cons_of_mem _ hu)
  · exact only_array.mpr fun u hu => hargs u (List.mem_cons_of_mem _ hu)

theorem only_conversion {f : Value → Value → Value} {args : List Value}
    (hf : ∀ u fallback, (f u fallback).functions = [] ∨ f u fallback = fallback)
    (h : ((withFallback args).map fun (u, fallback) => f u fallback) = .ok v)
    (hargs : ∀ u ∈ args, u.Only P) : v.Only P := by
  cases hu : withFallback args with
  | error e =>
    rw [hu] at h
    cases h
  | ok pair =>
    obtain ⟨u, fallback⟩ := pair
    rw [hu] at h
    cases h
    rcases hf u fallback with hplain | heq
    · exact Plain.only hplain
    · show Only P (f u fallback)
      rw [heq]
      rcases (mem_withFallback hu).2 with hmem | rfl
      · exact hargs _ hmem
      · exact only_undefined

theorem toText_plain (u fallback : Value) :
    (toText u fallback).functions = [] ∨ toText u fallback = fallback := by
  cases u <;> first | exact Or.inl rfl | exact Or.inr rfl

theorem toInt_plain (u fallback : Value) :
    (toInt u fallback).functions = [] ∨ toInt u fallback = fallback := by
  cases u with
  | float x =>
    simp only [toInt]
    split
    · exact Or.inl rfl
    · exact Or.inr rfl
  | string s =>
    simp only [toInt]
    split
    · exact Or.inl rfl
    · exact Or.inr rfl
  | _ => first | exact Or.inl rfl | exact Or.inr rfl

theorem toFloat_plain (u fallback : Value) :
    (toFloat u fallback).functions = [] ∨ toFloat u fallback = fallback := by
  cases u with
  | string s =>
    simp only [toFloat]
    split
    · exact Or.inl rfl
    · exact Or.inr rfl
  | _ => first | exact Or.inl rfl | exact Or.inr rfl

theorem only_length (h : length w = .ok v) : v.Only P := by
  cases w <;> cases h <;> exact only_int _

theorem only_keysOf (h : keysOf w = .ok v) : v.Only P := by
  have hkeys (entries : List (String × Value)) :
      Only P (.array (entries.map fun e => .string e.1)) := by
    refine only_array.mpr fun u hu => ?_
    obtain ⟨e, _, rfl⟩ := List.mem_map.mp hu
    exact only_string _
  cases w <;> cases h <;> exact hkeys _

/-- No builtin makes a function. -/
theorem only_call {b : Builtin} {args : List Value} (h : b.call args = .ok v)
    (hargs : ∀ u ∈ args, u.Only P) : v.Only P := by
  have hsingle {f : Value → Except CallError Value} (hf : ∀ u w, f u = .ok w → w.Only P)
      (h : single args >>= f = .ok v) : v.Only P := by
    cases hu : single args with
    | error e =>
      rw [hu] at h
      cases h
    | ok u =>
      rw [hu] at h
      exact hf u v h
  cases b with
  | len => exact hsingle (fun _ _ h => only_length h) h
  | append => exact only_extend h hargs
  | typeName =>
    refine hsingle (f := fun u => .ok (.string u.typeName)) (fun u w hw => ?_) h
    cases hw
    exact only_string _
  | string => exact only_conversion toText_plain h hargs
  | int => exact only_conversion toInt_plain h hargs
  | float => exact only_conversion toFloat_plain h hargs
  | isUndefined =>
    refine hsingle (f := fun u => .ok (.bool u.isUndefined)) (fun u w hw => ?_) h
    cases hw
    exact only_bool _
  | keys => exact hsingle (fun _ _ h => only_keysOf h) h

end Builtin

/-- A host whose functions yield no script functions but those that they are given. -/
def Host.Lends (host : Host) : Prop :=
  ∀ id name args v, host.call id name args = .value v →
    ∀ f ∈ v.functions, ∃ u ∈ args, f ∈ u.functions

theorem Host.Lends.only {host : Host} (h : host.Lends) {id : FunctionId} {name : String}
    {args : List Value} (hv : host.call id name args = .value v)
    (hargs : ∀ u ∈ args, u.Only P) : v.Only P := by
  intro f hf
  obtain ⟨u, hu, hfu⟩ := h id name args v hv f hf
  exact hargs u hu f hfu

end ScriptEngine
