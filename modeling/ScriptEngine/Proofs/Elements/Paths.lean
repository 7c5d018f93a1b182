import Mathlib.Tactic.Common
import ScriptEngine.Machine.Operation
/-!
Parts of values that keys lead to. An array or a map with one part replaced differs from what it was
in that part alone, however deep the part lies.
-/
namespace ScriptEngine

theorem bind_eq_ok {ε α β : Type} {r : Except ε α} {f : α → Except ε β} {b : β} :
    r >>= f = .ok b ↔ ∃ a, r = .ok a ∧ f a = .ok b := by
  cases r with
  | error e => exact ⟨nofun, fun ⟨_, h, _⟩ => nomatch h⟩
  | ok a => exact ⟨fun h => ⟨a, rfl, h⟩, fun ⟨_, h, h'⟩ => Except.ok.inj h ▸ h'⟩

namespace Value

/-- The part that keys lead to, the outermost key first. -/
def follow (v : Value) : List Value → Except Trap Value
  | [] => .ok v
  | k :: ks => do (← v.element k).follow ks

/-- The value with the part that keys lead to replaced. -/
def assigned (v : Value) (keys : List Value) (w : Value) : Except Trap Value :=
  match keys with
  | [] => .ok w
  | [k] => v.replaceElement k w
  | k :: k' :: ks => do
    let part ← v.element k
    v.replaceElement k (← part.assigned (k' :: ks) w)

/-- Arrays of one length, or maps with the same keys but for one that may be new. -/
inductive SameShape (gained : Option Value) : Value → Value → Prop where
  | array {xs ys : List Value} (h : ys.length = xs.length) : SameShape gained (array xs) (array ys)
  | map {es es' : List (String × Value)} (h : ∀ key, (Entries.find? key es').isSome ↔
      (Entries.find? key es).isSome ∨ gained = some (string key)) :
    SameShape gained (map es) (map es')

/-- The second value is the first one with another part where the keys lead, and that alone. -/
structure Replaced (keys : List Value) (w v v' : Value) : Prop where
  there : v'.follow keys = .ok w
  elsewhere : ∀ before k behind j more, keys = before ++ k :: behind → j ≠ k →
    v'.follow (before ++ j :: more) = v.follow (before ++ j :: more)
  /-- Every container on the way stays as large as it is; the innermost may gain the last key. -/
  shape : ∀ before k behind, keys = before ++ k :: behind → ∃ c c', v.follow before = .ok c ∧
    v'.follow before = .ok c' ∧ SameShape (if behind = [] then some k else none) c c'

variable {v v' w k j : Value} {keys : List Value} {i n : Nat} {t : Trap}

theorem follow_cons : v.follow (k :: keys) = v.element k >>= fun part => part.follow keys := rfl

theorem follow_append {more : List Value} :
    v.follow (keys ++ more) = v.follow keys >>= fun part => part.follow more := by
  induction keys generalizing v with
  | nil => rfl
  | cons k rest ih =>
    rw [List.cons_append, follow_cons, follow_cons, bind_assoc]
    cases v.element k with
    | error t => rfl
    | ok part => exact ih

theorem follow_snoc : v.follow (keys ++ [k]) = v.follow keys >>= fun part => part.element k := by
  rw [follow_append]
  refine bind_congr fun part => ?_
  rw [follow_cons]
  cases part.element k <;> rfl

theorem position_eq_ok {container : String} (h : position container n k = .ok i) :
    ∃ x : Int64, k = int x ∧ i = x.toInt.toNat ∧ 0 ≤ x.toInt ∧ i < n := by
  cases k with
  | int x =>
    simp only [position] at h
    split at h
    · rename_i inside
      cases h
      simp only [Bool.and_eq_true, decide_eq_true_eq] at inside
      exact ⟨x, rfl, rfl, inside.1, by omega⟩
    · cases h
  | _ => cases h

/-- Different keys mean different positions. -/
theorem position_ne {container : String} {i' : Nat} (h : position container n k = .ok i)
    (h' : position container n j = .ok i') (hne : j ≠ k) : i ≠ i' := by
  obtain ⟨x, rfl, rfl, hx, -⟩ := position_eq_ok h
  obtain ⟨y, rfl, rfl, hy, -⟩ := position_eq_ok h'
  intro same
  have equal : y.toInt = x.toInt := by omega
  exact hne (congrArg int (Int64.toInt_inj.mp equal))

/-- Only arrays and maps have elements that can be replaced. -/
theorem replaceElement_eq_ok (h : v.replaceElement k w = .ok v') :
    (∃ xs i, v = array xs ∧ position "array" xs.length k = .ok i ∧ v' = array (xs.set i w)) ∨
      ∃ es key, v = map es ∧ k = string key ∧ v' = map (Entries.insert key w es) := by
  cases v with
  | array xs =>
    simp only [replaceElement] at h
    cases hposition : position "array" xs.length k with
    | error t =>
      rw [hposition] at h
      cases h
    | ok i =>
      rw [hposition] at h
      cases h
      exact .inl ⟨xs, i, rfl, hposition, rfl⟩
  | map es =>
    cases k with
    | string key =>
      cases h
      exact .inr ⟨es, key, rfl, rfl, rfl⟩
    | _ => cases h
  | _ => cases h

theorem element_replaced (h : v.replaceElement k w = .ok v') : v'.element k = .ok w := by
  obtain ⟨xs, i, rfl, hposition, rfl⟩ | ⟨es, key, rfl, rfl, rfl⟩ := replaceElement_eq_ok h
  · obtain ⟨-, -, -, -, inside⟩ := position_eq_ok hposition
    simp only [element, List.length_set, hposition]
    change Except.ok ((xs.set i w).getD i undefined) = .ok w
    simp [inside]
  · simp only [element, Entries.find?_insert, if_true, Option.getD_some]

theorem element_elsewhere (h : v.replaceElement k w = .ok v') (hne : j ≠ k) :
    v'.element j = v.element j := by
  obtain ⟨xs, i, rfl, hposition, rfl⟩ | ⟨es, key, rfl, rfl, rfl⟩ := replaceElement_eq_ok h
  · simp only [element, List.length_set]
    cases hother : position "array" xs.length j with
    | error t => rfl
    | ok i' =>
      have apart : i ≠ i' := position_ne hposition hother hne
      change Except.ok ((xs.set i w).getD i' undefined) = .ok (xs.getD i' undefined)
      simp [List.getElem?_set_ne apart]
  · cases j with
    | string other =>
      have apart : key ≠ other := fun same => hne (congrArg string same.symm)
      simp only [element, Entries.find?_insert, apart, if_false]
    | _ => rfl

theorem shape_replaced (h : v.replaceElement k w = .ok v') : SameShape (some k) v v' := by
  obtain ⟨xs, i, rfl, -, rfl⟩ | ⟨es, key, rfl, rfl, rfl⟩ := replaceElement_eq_ok h
  · exact .array (List.length_set ..)
  · refine .map fun other => ?_
    rw [Entries.find?_insert]
    by_cases same : key = other
    · simp [same]
    · simp [same]

/-- A key that leads to an element is not a new one. -/
theorem SameShape.of_element (h : SameShape (some k) v v') (hk : v.element k = .ok w)
    (hw : w ≠ undefined) : SameShape none v v' := by
  cases h with
  | array h => exact .array h
  | @map es es' h =>
    refine .map fun key => ⟨fun found => ?_, fun found => ?_⟩
    · rcases (h key).mp found with old | new
      · exact .inl old
      · cases new
        refine .inl (Option.isSome_iff_ne_none.mpr fun missing => hw ?_)
        simp only [element, missing, Option.getD_none] at hk
        exact (Except.ok.inj hk).symm
    · rcases found with old | new
      · exact (h key).mpr (.inl old)
      · cases new

theorem assigned_cons {k' : Value} {ks : List Value} : v.assigned (k :: k' :: ks) w =
    v.element k >>= fun part => part.assigned (k' :: ks) w >>= fun new =>
      v.replaceElement k new := by
  rw [assigned]

/-- A path of two keys at least leads through an element, which is replaced itself. -/
theorem assigned_cons_eq_ok {k' : Value} {ks : List Value}
    (h : v.assigned (k :: k' :: ks) w = .ok v') : ∃ part new, v.element k = .ok part ∧
      part.assigned (k' :: ks) w = .ok new ∧ v.replaceElement k new = .ok v' := by
  rw [assigned_cons, bind_eq_ok] at h
  obtain ⟨part, hpart, h⟩ := h
  obtain ⟨new, hnew, hreplace⟩ := bind_eq_ok.mp h
  exact ⟨part, new, hpart, hnew, hreplace⟩

/-- A part is replaced by replacing the container that it lies in. -/
theorem assigned_snoc : v.assigned (keys ++ [k]) w = v.follow keys >>= fun part =>
    part.replaceElement k w >>= fun new => v.assigned keys new := by
  induction keys generalizing v with
  | nil =>
    change v.replaceElement k w = v.replaceElement k w >>= fun new => .ok new
    cases v.replaceElement k w <;> rfl
  | cons k₀ rest ih =>
    cases rest with
    | nil =>
      change v.assigned [k₀, k] w = (v.element k₀ >>= fun part => .ok part) >>= _
      rw [assigned_cons]
      cases v.element k₀ <;> rfl
    | cons k₁ ks =>
      have hcons : v.assigned (k₀ :: k₁ :: ks ++ [k]) w = v.element k₀ >>= fun part =>
          part.assigned (k₁ :: ks ++ [k]) w >>= fun new => v.replaceElement k₀ new :=
        assigned_cons
      rw [hcons, follow_cons, bind_assoc]
      cases hpart : v.element k₀ with
      | error t => rfl
      | ok part =>
        have outer (new : Value) : v.assigned (k₀ :: k₁ :: ks) new =
            part.assigned (k₁ :: ks) new >>= fun new => v.replaceElement k₀ new := by
          rw [assigned_cons, hpart]
          rfl
        simp only [outer]
        change (part.assigned (k₁ :: ks ++ [k]) w >>= fun new => v.replaceElement k₀ new) = _
        rw [ih]
        simp only [bind_assoc]
        rfl

/-- What is assigned where keys lead, once the containers on the way have been read. -/
def rebuilt (v : Value) (keys : List Value) (make : Nat → Except Trap (Value × Nat))
    (made : Nat) : Except Trap (Value × Nat) := do
  let _ ← v.follow keys.dropLast
  let (w, made) ← make made
  return (← v.assigned keys w, made)

theorem rebuilt_nil (v : Value) (make : Nat → Except Trap (Value × Nat)) :
    v.rebuilt [] make = make := by
  funext made
  change (make made >>= fun (w, made) => .ok (w, made)) = make made
  cases make made <;> rfl

theorem follow_of_dropLast (h : v.follow keys.dropLast = .error t) : v.follow keys = .error t := by
  rcases List.eq_nil_or_concat keys with rfl | ⟨before, k, rfl⟩
  · cases h
  · rw [List.concat_eq_append, List.dropLast_concat] at h
    rw [List.concat_eq_append, follow_append, h]
    rfl

/-- An element is assigned by assigning its container with the element replaced. -/
theorem rebuilt_snoc (v : Value) (keys : List Value) (k : Value)
    (make : Nat → Except Trap (Value × Nat)) :
    v.rebuilt (keys ++ [k]) make = v.rebuilt keys fun made => do
      let part ← v.follow keys
      let (w, made) ← make made
      return (← part.replaceElement k w, made) := by
  funext made
  unfold rebuilt
  rw [List.dropLast_concat]
  simp only [assigned_snoc]
  cases hbefore : v.follow keys.dropLast with
  | error t =>
    rw [follow_of_dropLast hbefore]
    rfl
  | ok container =>
    cases hpart : v.follow keys with
    | error t => rfl
    | ok part =>
      change (make made >>= _) = (make made >>= _) >>= _
      rw [bind_assoc]
      refine bind_congr fun (w, made) => ?_
      change ((part.replaceElement k w >>= _) >>= _) = ((part.replaceElement k w >>= _) >>= _)
      simp only [bind_assoc, pure_bind]

theorem rebuilt_eq_ok {make : Nat → Except Trap (Value × Nat)} {made made' : Nat}
    (h : v.rebuilt keys make made = .ok (v', made')) :
    ∃ w, make made = .ok (w, made') ∧ v.assigned keys w = .ok v' := by
  unfold rebuilt at h
  obtain ⟨container, -, h⟩ := bind_eq_ok.mp h
  obtain ⟨⟨w, made₁⟩, hmake, h⟩ := bind_eq_ok.mp h
  obtain ⟨new, hassigned, h⟩ := bind_eq_ok.mp h
  cases h
  exact ⟨w, hmake, hassigned⟩

/-- Only numbers and texts are keys of elements that can be replaced. -/
theorem key_of_replaceElement (h : v.replaceElement k w = .ok v') :
    (∃ n, k = int n) ∨ ∃ text, k = string text := by
  obtain ⟨xs, i, rfl, hposition, rfl⟩ | ⟨es, key, rfl, rfl, rfl⟩ := replaceElement_eq_ok h
  · obtain ⟨n, rfl, -⟩ := position_eq_ok hposition
    exact .inl ⟨n, rfl⟩
  · exact .inr ⟨key, rfl⟩

theorem keys_of_assigned (h : v.assigned keys w = .ok v') :
    ∀ k ∈ keys, (∃ n, k = int n) ∨ ∃ text, k = string text := by
  induction keys generalizing v v' with
  | nil => simp
  | cons k rest ih =>
    cases rest with
    | nil =>
      intro j hj
      exact List.mem_singleton.mp hj ▸ key_of_replaceElement h
    | cons k' ks =>
      obtain ⟨part, new, hpart, hnew, hreplace⟩ := assigned_cons_eq_ok h
      intro j hj
      rcases List.mem_cons.mp hj with rfl | hj
      · exact key_of_replaceElement hreplace
      · exact ih hnew j hj

/-- A container that an element is replaced in is no key on the way to it. -/
theorem not_mem_of_assigned (hkeys : keys ≠ []) (h : v.assigned keys w = .ok v') : v ∉ keys := by
  intro hmem
  have hkey := keys_of_assigned h v hmem
  have hshape : ∃ k part, v.replaceElement k part = .ok v' := by
    match keys, hkeys with
    | [k], _ => exact ⟨k, w, h⟩
    | k :: k' :: ks, _ =>
      obtain ⟨part, new, -, -, hreplace⟩ := assigned_cons_eq_ok h
      exact ⟨k, new, hreplace⟩
  obtain ⟨k, part, hreplace⟩ := hshape
  obtain ⟨n, rfl⟩ | ⟨text, rfl⟩ := hkey <;> cases hreplace

/-- Nothing can be replaced in undefined. -/
theorem ne_undefined_of_assigned (hkeys : keys ≠ []) (h : v.assigned keys w = .ok v') :
    v ≠ undefined := by
  rintro rfl
  match keys, hkeys with
  | [k], _ => cases h
  | k :: k' :: ks, _ =>
    obtain ⟨part, new, -, -, hreplace⟩ := assigned_cons_eq_ok h
    cases hreplace

theorem replaced_of_replaceElement (h : v.replaceElement k w = .ok v') : Replaced [k] w v v' := by
  -- The path is a single key, so a path beside it differs in its first key.
  have single {before behind : List Value} {k₀ : Value} (hsplit : [k] = before ++ k₀ :: behind) :
      before = [] ∧ k₀ = k ∧ behind = [] := by
    cases before with
    | nil =>
      cases hsplit
      exact ⟨rfl, rfl, rfl⟩
    | cons b rest =>
      have hnil := (List.cons.inj hsplit).2
      simp at hnil
  refine ⟨?_, fun before k₀ behind j more hsplit hne => ?_, fun before k₀ behind hsplit => ?_⟩
  · rw [follow_cons, element_replaced h]
    rfl
  · obtain ⟨rfl, rfl, rfl⟩ := single hsplit
    rw [List.nil_append, follow_cons, follow_cons, element_elsewhere h hne]
  · obtain ⟨rfl, rfl, rfl⟩ := single hsplit
    exact ⟨v, v', rfl, rfl, shape_replaced h⟩

/-- A part replaced in an element of a container. -/
theorem Replaced.cons {part new : Value} (hpart : v.element k = .ok part)
    (hdefined : part ≠ undefined) (hkeys : keys ≠ []) (h : Replaced keys w part new)
    (hreplace : v.replaceElement k new = .ok v') : Replaced (k :: keys) w v v' := by
  have hnew : v'.element k = .ok new := element_replaced hreplace
  have inside (path : List Value) : v.follow (k :: path) = part.follow path := by
    rw [follow_cons, hpart]
    rfl
  have inside' (path : List Value) : v'.follow (k :: path) = new.follow path := by
    rw [follow_cons, hnew]
    rfl
  refine ⟨(inside' keys).trans h.there, fun before k₀ behind j more hsplit hne => ?_,
    fun before k₀ behind hsplit => ?_⟩
  · cases before with
    | nil =>
      obtain ⟨rfl, -⟩ := List.cons.inj hsplit
      rw [List.nil_append, follow_cons, follow_cons, element_elsewhere hreplace hne]
    | cons b rest =>
      obtain ⟨rfl, hrest⟩ := List.cons.inj hsplit
      rw [List.cons_append, inside, inside']
      exact h.elsewhere rest k₀ behind j more hrest hne
  · cases before with
    | nil =>
      obtain ⟨rfl, rfl⟩ := List.cons.inj hsplit
      rw [if_neg hkeys]
      exact ⟨v, v', rfl, rfl, (shape_replaced hreplace).of_element hpart hdefined⟩
    | cons b rest =>
      obtain ⟨rfl, hrest⟩ := List.cons.inj hsplit
      rw [inside, inside']
      exact h.shape rest k₀ behind hrest

/-- A value with a part replaced is as it was but for that part. -/
theorem replaced_of_assigned (hkeys : keys ≠ []) (h : v.assigned keys w = .ok v') :
    Replaced keys w v v' := by
  induction keys generalizing v v' with
  | nil => exact absurd rfl hkeys
  | cons k rest ih =>
    cases rest with
    | nil => exact replaced_of_replaceElement h
    | cons k' ks =>
      obtain ⟨part, new, hpart, hnew, hreplace⟩ := assigned_cons_eq_ok h
      have defined : part ≠ undefined := ne_undefined_of_assigned (List.cons_ne_nil _ _) hnew
      exact (ih (List.cons_ne_nil _ _) hnew).cons hpart defined (List.cons_ne_nil _ _) hreplace

end Value

end ScriptEngine
