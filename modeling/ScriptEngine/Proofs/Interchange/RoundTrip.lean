import ScriptEngine.Interchange.Tree
/-!
The conversions between values and trees undo each other. Going out, a value fails at the first of
its parts that has no tree and comes back in its normal form; going in, a tree fails at the first
integer that is too large and comes back as it was. What a function captured is not part of a
value here.
-/
namespace ScriptEngine

variable {α β : Type}

/-- How a conversion ends that objects to nothing but `objection?`: with that error if there is
one, else with a result of which `Q` holds. -/
def Converts (objection? : Option ConversionError) (result : Except ConversionError α)
    (Q : α → Prop) : Prop :=
  match objection? with
  | some e => result = .error e
  | none => ∃ a, result = .ok a ∧ Q a

namespace Converts

theorem ok {a : α} {Q : α → Prop} (h : Q a) : Converts none (.ok a) Q := ⟨a, rfl, h⟩

/-- Of two conversions in a row the first one that objects decides. -/
theorem bind {o o' : Option ConversionError} {r : Except ConversionError α}
    {f : α → Except ConversionError β} {Q : α → Prop} {Q' : β → Prop} (h : Converts o r Q)
    (next : ∀ a, Q a → Converts o' (f a) Q') : Converts (o.or o') (r >>= f) Q' := by
  cases o with
  | some e =>
    have hr : r = .error e := h
    rw [hr]
    exact rfl
  | none =>
    obtain ⟨a, hr, ha⟩ := h
    rw [hr]
    exact next a ha

theorem map {o : Option ConversionError} {r : Except ConversionError α} {f : α → β}
    {Q : α → Prop} {Q' : β → Prop} (h : Converts o r Q) (keep : ∀ a, Q a → Q' (f a)) :
    Converts o (r >>= fun a => .ok (f a)) Q' := by
  have next : Converts (o.or none) (r >>= fun a => .ok (f a)) Q' :=
    h.bind fun a ha => ok (keep a ha)
  rwa [Option.or_none] at next

end Converts

namespace Value

mutual

/-- A value and all that it holds, in the order of the elements and keys. -/
def parts : Value → List Value
  | array items => array items :: itemsParts items
  | map entries => map entries :: entriesParts entries
  | module name attrs => module name attrs :: entriesParts attrs
  | v => [v]

def itemsParts : List Value → List Value
  | [] => []
  | v :: rest => v.parts ++ itemsParts rest

def entriesParts : List (String × Value) → List Value
  | [] => []
  | (_, v) :: rest => v.parts ++ entriesParts rest

end

/-- Why a value has no tree, whatever it holds. -/
def objection? : Value → Option ConversionError
  | float x => if x.isFinite then none else some (.nonFiniteFloat x)
  | v@(function ..) | v@(closure ..) | v@(builtin _) | v@(native ..) =>
    some (.unsupported v.typeName)
  | _ => none

mutual

/-- A value with strings in place of characters and maps in place of modules. -/
def normal : Value → Value
  | char c => string c.toString
  | array items => array (normalItems items)
  | map entries | module _ entries => map (normalEntries entries)
  | v => v

def normalItems : List Value → List Value
  | [] => []
  | v :: rest => v.normal :: normalItems rest

def normalEntries : List (String × Value) → List (String × Value)
  | [] => []
  | (key, v) :: rest => (key, v.normal) :: normalEntries rest

end

end Value

namespace Tree

mutual

/-- A tree and all that it holds, in the order of the elements and keys. -/
def parts : Tree → List Tree
  | array items => array items :: itemsParts items
  | object entries => object entries :: entriesParts entries
  | t => [t]

def itemsParts : List Tree → List Tree
  | [] => []
  | t :: rest => t.parts ++ itemsParts rest

def entriesParts : List (String × Tree) → List Tree
  | [] => []
  | (_, t) :: rest => t.parts ++ entriesParts rest

end

/-- Why a tree has no value, whatever it holds. -/
def objection? : Tree → Option ConversionError
  | int n => if Int64.maxValue.toInt < n then some (.integerOverflow n) else none
  | _ => none

/-- Whether a number can stand in a tree: an integer has 64 bits, with or without a sign, and a
float is finite. -/
def HasRange : Tree → Prop
  | int n => Int64.minValue.toInt ≤ n ∧ n ≤ UInt64.size - 1
  | float x => x.isFinite
  | _ => True

instance : DecidablePred HasRange
  | int n => inferInstanceAs (Decidable (Int64.minValue.toInt ≤ n ∧ n ≤ UInt64.size - 1))
  | float x => inferInstanceAs (Decidable (x.isFinite = true))
  | null | bool _ | string _ | array _ | object _ => .isTrue trivial

/-- The trees that there are outside. -/
def Legal (t : Tree) : Prop := ∀ u ∈ t.parts, u.HasRange

instance (t : Tree) : Decidable t.Legal := inferInstanceAs (Decidable (∀ u ∈ t.parts, u.HasRange))

theorem legal_of_leaf {t : Tree} (leaf : t.parts = [t]) (range : t.HasRange) : t.Legal := by
  intro u hu
  rw [leaf] at hu
  exact List.mem_singleton.mp hu ▸ range

theorem legal_array {items : List Tree} (h : ∀ u ∈ itemsParts items, u.HasRange) :
    (array items).Legal :=
  List.forall_mem_cons.mpr ⟨trivial, h⟩

theorem legal_object {entries : List (String × Tree)}
    (h : ∀ u ∈ entriesParts entries, u.HasRange) : (object entries).Legal :=
  List.forall_mem_cons.mpr ⟨trivial, h⟩

end Tree

/-! ### From values to trees -/

namespace Value

theorem int_converts (n : Int64) :
    (Tree.int n.toInt).Legal ∧ (Tree.int n.toInt).toValue = .ok (int n) := by
  have lower : Int64.minValue.toInt ≤ n.toInt := n.minValue_le_toInt
  have upper : n.toInt ≤ Int64.maxValue.toInt := n.toInt_le
  have wide : Int64.maxValue.toInt ≤ UInt64.size - 1 := by decide
  refine ⟨Tree.legal_of_leaf rfl ⟨lower, Int.le_trans upper wide⟩, ?_⟩
  rw [Tree.toValue, if_pos (by simp only [lower, upper, decide_true, Bool.and_self]),
    Int64.ofInt_toInt]

theorem float_converts (x : Float) :
    Converts (float x).objection? (float x).toTree
      fun t => t.Legal ∧ t.toValue = .ok (float x) := by
  by_cases finite : x.isFinite
  · rw [objection?, toTree, if_pos finite, if_pos finite]
    exact Converts.ok ⟨Tree.legal_of_leaf rfl finite, rfl⟩
  · rw [objection?, toTree, if_neg finite, if_neg finite]
    exact rfl

mutual

theorem toTree_converts (v : Value) :
    Converts (v.parts.findSome? objection?) v.toTree
      fun t => t.Legal ∧ t.toValue = .ok v.normal := by
  match v with
  | undefined | bool _ | string _ | char _ =>
    exact Converts.ok ⟨Tree.legal_of_leaf rfl trivial, rfl⟩
  | int n => exact Converts.ok (int_converts n)
  | float x =>
    have alone : (float x).parts.findSome? objection? = (float x).objection? :=
      List.findSome?_singleton
    rw [alone]
    exact float_converts x
  | array items =>
    refine (itemsToTrees_converts items).map fun ts ⟨legal, back⟩ =>
      ⟨Tree.legal_array legal, ?_⟩
    rw [Tree.toValue, back]
    rfl
  | map entries | module _ entries =>
    refine (entriesToTrees_converts entries).map fun es ⟨legal, back⟩ =>
      ⟨Tree.legal_object legal, ?_⟩
    rw [Tree.toValue, back]
    rfl
  | function .. | closure .. | builtin _ | native .. => exact rfl

theorem itemsToTrees_converts (items : List Value) :
    Converts ((itemsParts items).findSome? objection?) (itemsToTrees items)
      fun ts => (∀ u ∈ Tree.itemsParts ts, u.HasRange) ∧
        Tree.itemsToValues ts = .ok (normalItems items) := by
  match items with
  | [] => exact Converts.ok ⟨fun u hu => absurd hu List.not_mem_nil, rfl⟩
  | v :: rest =>
    rw [itemsParts, List.findSome?_append]
    refine (toTree_converts v).bind fun t ⟨legal, back⟩ =>
      (itemsToTrees_converts rest).map fun ts ⟨legalRest, backRest⟩ =>
        ⟨List.forall_mem_append.mpr ⟨legal, legalRest⟩, ?_⟩
    rw [Tree.itemsToValues, back, backRest]
    rfl

theorem entriesToTrees_converts (entries : List (String × Value)) :
    Converts ((entriesParts entries).findSome? objection?) (entriesToTrees entries)
      fun es => (∀ u ∈ Tree.entriesParts es, u.HasRange) ∧
        Tree.entriesToValues es = .ok (normalEntries entries) := by
  match entries with
  | [] => exact Converts.ok ⟨fun u hu => absurd hu List.not_mem_nil, rfl⟩
  | (key, v) :: rest =>
    rw [entriesParts, List.findSome?_append]
    refine (toTree_converts v).bind fun t ⟨legal, back⟩ =>
      (entriesToTrees_converts rest).map fun es ⟨legalRest, backRest⟩ =>
        ⟨List.forall_mem_append.mpr ⟨legal, legalRest⟩, ?_⟩
    rw [Tree.entriesToValues, back, backRest]
    rfl

end

end Value

/-! ### From trees to values -/

namespace Tree

theorem int_converts {n : Int} (range : (int n).HasRange) :
    Converts (int n).objection? (int n).toValue fun v => v.toTree = .ok (int n) := by
  by_cases large : Int64.maxValue.toInt < n
  · have outside : ¬(Int64.minValue.toInt ≤ n && n ≤ Int64.maxValue.toInt) := by
      simpa using fun _ => large
    rw [objection?, toValue, if_pos large, if_neg outside]
    exact rfl
  · have fits : (Int64.minValue.toInt ≤ n && n ≤ Int64.maxValue.toInt) := by
      simpa using ⟨range.1, Int.not_lt.mp large⟩
    rw [objection?, toValue, if_neg large, if_pos fits]
    have upper : n < 2 ^ 63 := by
      have top : Int64.maxValue.toInt = 2 ^ 63 - 1 := by decide
      omega
    exact Converts.ok (congrArg (Except.ok ∘ Tree.int) (Int64.toInt_ofInt_of_le range.1 upper))

mutual

theorem toValue_converts (t : Tree) (legal : t.Legal) :
    Converts (t.parts.findSome? objection?) t.toValue fun v => v.toTree = .ok t := by
  match t with
  | null | bool _ | string _ => exact Converts.ok rfl
  | int n =>
    have alone : (int n).parts.findSome? objection? = (int n).objection? :=
      List.findSome?_singleton
    rw [alone]
    exact int_converts (legal _ List.mem_cons_self)
  | float x =>
    have finite : x.isFinite := legal _ List.mem_cons_self
    exact Converts.ok (if_pos finite)
  | array items =>
    refine (itemsToValues_converts items (List.forall_mem_cons.mp legal).2).map fun vs back => ?_
    rw [Value.toTree, back]
    rfl
  | object entries =>
    refine (entriesToValues_converts entries (List.forall_mem_cons.mp legal).2).map
      fun es back => ?_
    rw [Value.toTree, back]
    rfl

theorem itemsToValues_converts (items : List Tree) (legal : ∀ u ∈ itemsParts items, u.HasRange) :
    Converts ((itemsParts items).findSome? objection?) (itemsToValues items)
      fun vs => Value.itemsToTrees vs = .ok items := by
  match items with
  | [] => exact Converts.ok rfl
  | t :: rest =>
    obtain ⟨first, others⟩ := List.forall_mem_append.mp legal
    rw [itemsParts, List.findSome?_append]
    refine (toValue_converts t first).bind fun v back =>
      (itemsToValues_converts rest others).map fun vs backRest => ?_
    rw [Value.itemsToTrees, back, backRest]
    rfl

theorem entriesToValues_converts (entries : List (String × Tree))
    (legal : ∀ u ∈ entriesParts entries, u.HasRange) :
    Converts ((entriesParts entries).findSome? objection?) (entriesToValues entries)
      fun es => Value.entriesToTrees es = .ok entries := by
  match entries with
  | [] => exact Converts.ok rfl
  | (key, t) :: rest =>
    obtain ⟨first, others⟩ := List.forall_mem_append.mp legal
    rw [entriesParts, List.findSome?_append]
    refine (toValue_converts t first).bind fun v back =>
      (entriesToValues_converts rest others).map fun es backRest => ?_
    rw [Value.entriesToTrees, back, backRest]
    rfl

end

end Tree

/-- A value converts exactly if none of its parts objects, else it fails as the first of them; the
tree converts back, to the value in its normal form. A tree of numbers with a range converts
exactly if none of its integers is too large, and back to itself. -/
theorem conversions_undo_each_other :
    (∀ v : Value, match v.parts.findSome? Value.objection? with
      | some e => v.toTree = .error e
      | none => ∃ t, v.toTree = .ok t ∧ t.Legal ∧ t.toValue = .ok v.normal) ∧
    ∀ t : Tree, t.Legal → match t.parts.findSome? Tree.objection? with
      | some e => t.toValue = .error e
      | none => ∃ v, t.toValue = .ok v ∧ v.toTree = .ok t :=
  ⟨Value.toTree_converts, Tree.toValue_converts⟩

/-- Of two integers beyond the signed ones, in an object, the one at the smaller key is reported. -/
theorem conversions_undo_each_other_object :
    let t := Tree.object [("a", .array [.int (-3), .int 9223372036854775808]),
      ("b", .int 18446744073709551615)]
    t.Legal ∧ t.toValue = .error (.integerOverflow 9223372036854775808) := by
  intro t
  have legal : t.Legal := by decide
  exact ⟨legal, conversions_undo_each_other.2 t legal⟩

end ScriptEngine
