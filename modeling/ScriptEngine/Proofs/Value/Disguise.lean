import ScriptEngine.Proofs.Value.Functions
import ScriptEngine.Value.Equality
/-!
Maps that put other functions in the place of those that a value holds, different ones in the place
of different ones. No operator and no builtin sees the difference: of a function only the identity is
looked at.
-/
namespace ScriptEngine

namespace Value

/-- The value with other functions, and with what it holds replaced by a map. -/
def dress (who : FunctionId → FunctionId) (code : Routine → Routine)
    (hold : List Value → List Value) (φ : Value → Value) : Value → Value
  | array items => array (items.map φ)
  | map entries => map (entries.map fun e => (e.1, φ e.2))
  | module name attrs => module name (attrs.map fun e => (e.1, φ e.2))
  | function id r => function (who id) (code r)
  | closure id r free => closure (who id) (code r) (hold free)
  | other => other

/-- A map that changes functions alone, all through a value, and keeps them apart. -/
structure Disguises (who : FunctionId → FunctionId) (code : Routine → Routine)
    (hold : List Value → List Value) (φ : Value → Value) : Prop where
  injective : Function.Injective who
  eq : ∀ v, φ v = v.dress who code hold φ

end Value

theorem Entries.find?_map {α β : Type} (f : α → β) (key : String) (entries : List (String × α)) :
    find? key (entries.map fun e => (e.1, f e.2)) = (find? key entries).map f := by
  induction entries with
  | nil => rfl
  | cons e rest ih =>
    simp only [List.map_cons, find?]
    split
    · rfl
    · exact ih

theorem Entries.insert_map {α β : Type} (f : α → β) (key : String) (value : α)
    (entries : List (String × α)) :
    insert key (f value) (entries.map fun e => (e.1, f e.2)) =
      (insert key value entries).map fun e => (e.1, f e.2) := by
  induction entries with
  | nil => rfl
  | cons e rest ih =>
    simp only [List.map_cons, insert]
    split
    · rfl
    · split
      · rfl
      · rw [ih, List.map_cons]

theorem Builtin.single_map (φ : Value → Value) (args : List Value) :
    single (args.map φ) = (single args).map φ := by
  match args with
  | [] | [_] => rfl
  | _ :: _ :: rest => simp [single, Except.map]

namespace Value.Disguises

variable {who : FunctionId → FunctionId} {code : Routine → Routine}
  {hold : List Value → List Value} {φ : Value → Value}

/-! Functions are one object if they were before. -/

theorem beq_eq (h : Disguises who code hold φ) (a b : FunctionId) : (who a == who b) = (a == b) :=
  Bool.eq_iff_iff.mpr <| by simp [h.injective.eq_iff]

mutual

theorem same_eq (h : Disguises who code hold φ) :
    (v w : Value) → (φ v).same (φ w) = v.same w
  | .array a, w => by
    rw [h.eq, h.eq w]
    cases w with
    | array b => exact h.sameItems_eq a b
    | _ => rfl
  | .map a, w => by
    rw [h.eq, h.eq w]
    cases w with
    | map b => exact h.sameEntries_eq a b
    | _ => rfl
  | .module name a, w => by
    rw [h.eq, h.eq w]
    cases w with
    | module name' b => exact congrArg (name == name' && ·) (h.sameEntries_eq a b)
    | _ => rfl
  | .function id r, w => by
    rw [h.eq, h.eq w]
    cases w with
    | function id' r' => exact h.beq_eq id id'
    | _ => rfl
  | .closure id r free, w => by
    rw [h.eq, h.eq w]
    cases w with
    | closure id' r' free' => exact h.beq_eq id id'
    | _ => rfl
  | .undefined, w | .bool _, w | .int _, w | .float _, w | .char _, w | .string _, w
  | .builtin _, w | .native .., w => by
    rw [h.eq, h.eq w]
    cases w <;> rfl

theorem sameItems_eq (h : Disguises who code hold φ) : (a b : List Value) →
    sameItems (a.map φ) (b.map φ) = sameItems a b
  | [], [] | [], _ :: _ | _ :: _, [] => rfl
  | v :: as, w :: bs => by
    simp only [List.map_cons, sameItems, h.same_eq v w, h.sameItems_eq as bs]

theorem sameEntries_eq (h : Disguises who code hold φ) : (a b : List (String × Value)) →
    sameEntries (a.map fun e => (e.1, φ e.2)) (b.map fun e => (e.1, φ e.2)) = sameEntries a b
  | [], [] | [], _ :: _ | _ :: _, [] => rfl
  | (k, v) :: as, (l, w) :: bs => by
    simp only [List.map_cons, sameEntries, h.same_eq v w, h.sameEntries_eq as bs]

end

mutual

/-- A value is kept if all functions in it are. -/
theorem fixed_eq (h : Disguises who code hold φ) :
    (v : Value) → (∀ f ∈ v.functions, φ f = f) → φ v = v
  | .array items, hv => by rw [h.eq, dress, h.fixedItems_eq items hv]
  | .map entries, hv => by rw [h.eq, dress, h.fixedEntries_eq entries hv]
  | .module name attrs, hv => by rw [h.eq, dress, h.fixedEntries_eq attrs hv]
  | .function .., hv | .closure .., hv => hv _ List.mem_cons_self
  | .undefined, _ | .bool _, _ | .int _, _ | .float _, _ | .char _, _ | .string _, _
  | .builtin _, _ | .native .., _ => h.eq _

theorem fixedItems_eq (h : Disguises who code hold φ) :
    (items : List Value) → (∀ f ∈ functionsOf items, φ f = f) → items.map φ = items
  | [], _ => rfl
  | v :: rest, hv => by
    obtain ⟨hfirst, hrest⟩ := List.forall_mem_append.mp hv
    rw [List.map_cons, h.fixed_eq v hfirst, h.fixedItems_eq rest hrest]

theorem fixedEntries_eq (h : Disguises who code hold φ) :
    (entries : List (String × Value)) → (∀ f ∈ functionsIn entries, φ f = f) →
      (entries.map fun e => (e.1, φ e.2)) = entries
  | [], _ => rfl
  | (key, v) :: rest, hv => by
    obtain ⟨hfirst, hrest⟩ := List.forall_mem_append.mp hv
    rw [List.map_cons, h.fixed_eq v hfirst, h.fixedEntries_eq rest hrest]

end

variable (h : Disguises who code hold φ)
include h

/-- Data is kept. -/
theorem plain_eq {v : Value} (hv : v.Plain) : φ v = v := h.fixed_eq v hv.only

/-- A value with nothing to change is kept. -/
theorem kept {v : Value} (hv : v.dress who code hold φ = v) : v = φ v := (h.eq v ▸ hv).symm

/-! What scripts see of a value stays. -/

theorem typeName_eq (v : Value) : (φ v).typeName = v.typeName := by
  rw [h.eq v]
  cases v <;> rfl

theorem isUndefined_eq (v : Value) : (φ v).isUndefined = v.isUndefined := by
  rw [h.eq v]
  cases v <;> rfl

theorem isTruthy_eq (v : Value) : (φ v).isTruthy = v.isTruthy := by
  rw [h.eq v]
  cases v with
  | array items => cases items <;> rfl
  | map entries => cases entries <;> rfl
  | _ => rfl

mutual

theorem display_eq : (v : Value) → (φ v).display = v.display
  | .array items => by
    rw [h.eq, dress, Value.display, Value.display, displayItems_eq items]
  | .map entries => by
    rw [h.eq, dress, Value.display, Value.display, displayEntries_eq entries]
  | .module .. | .function .. | .closure .. | .undefined | .bool _ | .int _ | .float _ | .char _
  | .string _ | .builtin _ | .native .. => by
    rw [h.eq]
    rfl

theorem displayItems_eq : (items : List Value) →
    displayItems (items.map φ) = displayItems items
  | [] => rfl
  | v :: rest => by
    have hrest := displayItems_eq rest
    have hv := display_eq v
    rw [List.map_cons]
    rw [h.eq v] at hv ⊢
    cases v <;> simp only [dress, displayItems, hrest] at hv ⊢
    all_goals rw [hv]

theorem displayEntries_eq : (entries : List (String × Value)) →
    displayEntries (entries.map fun e => (e.1, φ e.2)) = displayEntries entries
  | [] => rfl
  | (key, v) :: rest => by
    have hrest := displayEntries_eq rest
    have hv := display_eq v
    rw [List.map_cons]
    dsimp only
    rw [h.eq v] at hv ⊢
    cases v <;> simp only [dress, displayEntries, hrest] at hv ⊢
    all_goals rw [hv]

end

/-! Operators work alike. -/

theorem arith (op : ArithOp) (l r : Value) : op.apply (φ l) (φ r) = (op.apply l r).map φ := by
  have hok (v : Value) (hv : v.dress who code hold φ = v) :
      (.ok v : Except Trap Value) = (Except.ok v).map φ := congrArg Except.ok (h.kept hv)
  rw [h.eq l, h.eq r]
  cases l <;> cases r
  case int.int =>
    cases op <;> simp only [dress, ArithOp.apply, ArithOp.onInts]
    case div | rem =>
      split
      · rfl
      · exact hok _ rfl
    all_goals exact hok _ rfl
  case char.int =>
    simp only [dress, ArithOp.apply]
    split
    · exact hok _ rfl
    · rfl
  case array.array xs ys =>
    simp only [dress, ArithOp.apply]
    split
    · exact congrArg Except.ok (by rw [h.eq, dress, List.map_append])
    · rfl
  case string.string | string.int | string.float | string.char | string.bool =>
    simp only [dress, ArithOp.apply]
    split
    · exact hok _ rfl
    · rfl
  case float.float | int.float | float.int => exact hok _ rfl
  all_goals rfl

theorem order (c : Comparison) (l r : Value) : c.apply (φ l) (φ r) = (c.apply l r).map φ := by
  rw [h.eq l, h.eq r]
  cases l <;> cases r
  case int.int | float.float | int.float | float.int | string.string | char.char =>
    exact congrArg Except.ok (h.kept rfl)
  all_goals rfl

theorem negate_eq (v : Value) : (φ v).negate = v.negate.map φ := by
  rw [h.eq v]
  cases v
  case int | float => exact congrArg Except.ok (h.kept rfl)
  all_goals rfl

theorem position_eq (container : String) (length : Nat) (v : Value) :
    position container length (φ v) = position container length v := by
  rw [h.eq v]
  cases v <;> rfl

/-- Behind the end of a container there is nothing. -/
theorem getD_eq (v : Option Value) : (v.map φ).getD .undefined = φ (v.getD .undefined) := by
  cases v with
  | none => exact h.kept rfl
  | some v => rfl

theorem element_eq (v w : Value) : (φ v).element (φ w) = (v.element w).map φ := by
  have hfind (entries : List (String × Value)) (key : String) :
      (Entries.find? key (entries.map fun e => (e.1, φ e.2))).getD .undefined =
        φ ((Entries.find? key entries).getD .undefined) := by
    rw [Entries.find?_map, h.getD_eq]
  rw [h.eq v]
  cases v with
  | array items =>
    simp only [dress, element, h.position_eq, List.length_map]
    cases position "array" items.length w with
    | error t => rfl
    | ok i =>
      refine congrArg Except.ok ?_
      simp only [List.getD_eq_getElem?_getD, List.getElem?_map, h.getD_eq]
  | string s =>
    simp only [dress, element, h.position_eq]
    cases position "string" s.length w with
    | error t => rfl
    | ok i =>
      refine congrArg Except.ok ?_
      cases s.toList[i]? <;> exact h.kept rfl
  | map entries =>
    rw [h.eq w]
    cases w with
    | string key => exact congrArg Except.ok (hfind entries key)
    | _ => rfl
  | module name entries =>
    rw [h.eq w]
    cases w with
    | string key => exact congrArg Except.ok (hfind entries key)
    | _ => rfl
  | undefined => exact congrArg Except.ok (h.kept rfl)
  | _ => rfl

theorem replaceElement_eq (u v w : Value) :
    (φ u).replaceElement (φ v) (φ w) = (u.replaceElement v w).map φ := by
  rw [h.eq u]
  cases u with
  | array items =>
    simp only [dress, replaceElement, h.position_eq, List.length_map]
    cases position "array" items.length v with
    | error t => rfl
    | ok i =>
      refine congrArg Except.ok ?_
      rw [h.eq (.array _), dress, List.map_set]
  | map entries =>
    simp only [dress, replaceElement]
    rw [h.eq v]
    cases v with
    | string key =>
      refine congrArg Except.ok ?_
      rw [h.eq (.map _), dress, Entries.insert_map φ]
    | _ => rfl
  | _ => rfl

theorem mapOf_eq (items : List Value) (entries : List (String × Value)) :
    mapOf (items.map φ) (entries.map fun e => (e.1, φ e.2)) = (mapOf items entries).map φ := by
  induction items, entries using mapOf.induct with
  | case1 key value rest entries ih =>
    rw [List.map_cons, List.map_cons, h.eq (.string key)]
    simp only [dress, mapOf, Entries.insert_map φ]
    exact ih
  | case2 other value rest entries hother =>
    rw [List.map_cons, List.map_cons, h.eq other]
    cases other with
    | string key => exact absurd rfl (hother key)
    | _ => rfl
  | case3 items entries h₁ h₂ =>
    have hmap : .ok (.map (entries.map fun e => (e.1, φ e.2))) =
        (Except.ok (.map entries) : Except Trap Value).map φ :=
      congrArg Except.ok (h.eq (.map entries)).symm
    rcases items with _ | ⟨u, _ | ⟨v, rest⟩⟩
    · exact hmap
    · have hnone (w : Value) (entries : List (String × Value)) :
          mapOf [w] entries = .ok (.map entries) := by
        simp [mapOf]
      simpa only [List.map_cons, List.map_nil, hnone] using hmap
    · exact absurd rfl (h₂ u v rest)

/-! So do the builtins. -/

theorem withFallback_eq (args : List Value) :
    Builtin.withFallback (args.map φ) =
      (Builtin.withFallback args).map fun e => (φ e.1, φ e.2) := by
  match args with
  | [_] => exact congrArg (fun v => Except.ok (φ _, v)) (h.kept rfl)
  | [] | [_, _] => rfl
  | _ :: _ :: _ :: rest => simp [Builtin.withFallback, Except.map]

theorem length_eq (v : Value) : Builtin.length (φ v) = Builtin.length v := by
  rw [h.eq v]
  cases v <;> simp [dress, Builtin.length, Value.typeName]

theorem keysOf_eq (v : Value) : Builtin.keysOf (φ v) = Builtin.keysOf v := by
  rw [h.eq v]
  cases v <;> simp [dress, Builtin.keysOf, Value.typeName]

theorem toText_eq (v w : Value) : Builtin.toText (φ v) (φ w) = φ (Builtin.toText v w) := by
  have hdisplay := h.display_eq v
  rw [h.eq v] at hdisplay ⊢
  cases v
  case undefined => rfl
  all_goals exact (congrArg Value.string hdisplay).trans (h.kept rfl)

theorem toInt_eq (v w : Value) : Builtin.toInt (φ v) (φ w) = φ (Builtin.toInt v w) := by
  rw [h.eq v]
  cases v with
  | float x =>
    simp only [dress, Builtin.toInt]
    split
    · exact h.kept rfl
    · rfl
  | string s =>
    simp only [dress, Builtin.toInt]
    split
    · exact h.kept rfl
    · rfl
  | int | char | bool => exact h.kept rfl
  | _ => rfl

theorem toFloat_eq (v w : Value) : Builtin.toFloat (φ v) (φ w) = φ (Builtin.toFloat v w) := by
  rw [h.eq v]
  cases v with
  | string s =>
    simp only [dress, Builtin.toFloat]
    split
    · exact h.kept rfl
    · rfl
  | int | float => exact h.kept rfl
  | _ => rfl

theorem call_eq (b : Builtin) (args : List Value) : b.call (args.map φ) = (b.call args).map φ := by
  -- What the builtins with one argument make holds no functions.
  have hsingle {f : Value → Except CallError Value} (hf : ∀ v, f (φ v) = f v)
      (hplain : ∀ v w, f v = .ok w → φ w = w) :
      Builtin.single (args.map φ) >>= f = (Builtin.single args >>= f).map φ := by
    rw [Builtin.single_map]
    cases Builtin.single args with
    | error e => rfl
    | ok v =>
      show f (φ v) = (f v).map φ
      rw [hf]
      cases hw : f v with
      | error e => rfl
      | ok w => exact congrArg Except.ok (hplain v w hw).symm
  have hconversion {f : Value → Value → Value} (hf : ∀ v w, f (φ v) (φ w) = φ (f v w)) :
      (Builtin.withFallback (args.map φ)).map (fun e => f e.1 e.2) =
        ((Builtin.withFallback args).map fun e => f e.1 e.2).map φ := by
    rw [h.withFallback_eq]
    cases Builtin.withFallback args with
    | error e => rfl
    | ok e => exact congrArg Except.ok (hf e.1 e.2)
  cases b with
  | len =>
    refine hsingle h.length_eq fun v w hw => ?_
    cases v <;> cases hw <;> exact h.eq _
  | append =>
    cases args with
    | nil => rfl
    | cons v rest =>
      simp only [Builtin.call, List.map_cons]
      rw [h.eq v]
      cases v
      case array items =>
        refine congrArg Except.ok ?_
        rw [h.eq, dress, List.map_append]
      case undefined => exact congrArg Except.ok (h.eq (.array rest)).symm
      all_goals rfl
  | typeName =>
    refine hsingle (f := fun v => .ok (.string v.typeName)) (fun v => by rw [h.typeName_eq])
      fun v w hw => ?_
    cases hw
    exact h.eq _
  | string => exact hconversion h.toText_eq
  | int => exact hconversion h.toInt_eq
  | float => exact hconversion h.toFloat_eq
  | isUndefined =>
    refine hsingle (f := fun v => .ok (.bool v.isUndefined)) (fun v => by rw [h.isUndefined_eq])
      fun v w hw => ?_
    cases hw
    exact h.eq _
  | keys =>
    refine hsingle h.keysOf_eq fun v w hw => ?_
    have hstrings (entries : List (String × Value)) :
        φ (.array (entries.map fun e => .string e.1)) = .array (entries.map fun e => .string e.1) := by
      rw [h.eq, dress, List.map_map]
      exact congrArg Value.array (List.map_congr_left fun e _ => h.eq _)
    cases v <;> cases hw <;> exact hstrings _

end Value.Disguises

end ScriptEngine
