import Mathlib.Algebra.Order.BigOperators.Group.List
import ScriptEngine.Proofs.Merge.Survivors
import ScriptEngine.Proofs.Merge.Sweep
import ScriptEngine.Proofs.Renumber.Program
/-!
Merging as a quotient of the pool by equal keys, for any bytecode, whether or not a compiler made
it.
-/
namespace ScriptEngine

/-- A routine whose code names the constants that are left, of which `kept` are the old places. -/
structure Routine.Redirected (xs : List Value) (kept : List Nat) (r r' : Routine) : Prop where
  frame : r' = { r with code := r'.code }
  size : r'.code.size = r.code.size
  inside : ∀ place k, NamesConstant r.code place k → k < xs.length →
    ∃ j i, NamesConstant r'.code place j ∧ kept[j]? = some i ∧ StandsFor xs i k
  outside : ∀ place k, NamesConstant r.code place k → xs.length ≤ k →
    NamesConstant r'.code place k ∧ kept.length ≤ k
  others : ∀ q, (∀ place k, NamesConstant r.code place k → q ≠ place ∧ q ≠ place + 1) →
    r'.code[q]? = r.code[q]?

/-- A constant that is left: itself, or a function with the constants of its code redirected. -/
inductive Value.Redirected (xs : List Value) (kept : List Nat) : Value → Value → Prop where
  | function (id : FunctionId) {r r' : Routine} :
      r.Redirected xs kept r' → Redirected xs kept (.function id r) (.function id r')
  | same (v : Value) : (∀ id r, v ≠ .function id r) → Redirected xs kept v v

/-- A program whose constants are those of `b` at the places `kept`, one for each key and all that
have none. -/
structure Bytecode.Quotient (b : Bytecode) (kept : List Nat) (b' : Bytecode) : Prop where
  file : b'.file = b.file
  ascending : kept.Pairwise (· < ·)
  first : ∀ i, i ∈ kept ↔ Survives b.pool.toList i
  pool : List.Forall₂ (fun i w => ∃ v, b.pool[i]? = some v ∧ v.Redirected b.pool.toList kept w)
    kept b'.pool.toList
  distinct : ∀ i j key, keyAt b'.pool.toList i = some key → keyAt b'.pool.toList j = some key →
    i = j
  main : b.main.Redirected b.pool.toList kept b'.main
  objects : b'.countObjects ≤ b.countObjects

theorem forall₂_of_map_some {α β : Type} {R : α → β → Prop} {f : α → Option β} {xs : List α}
    {ys : List β} (h : ys.map some = xs.map f) (hR : ∀ x y, f x = some y → R x y) :
    List.Forall₂ R xs ys := by
  induction xs generalizing ys with
  | nil =>
    obtain rfl : ys = [] := by simpa using h
    exact .nil
  | cons x xs ih =>
    cases ys with
    | nil => simp at h
    | cons y ys =>
      obtain ⟨hy, hrest⟩ : some y = f x ∧ ys.map some = xs.map f := by simpa using h
      exact .cons (hR x y hy.symm) (ih hrest)

@[simp] theorem ConstantKey.of?_redirect (moved : Array Nat) (v : Value) :
    of? (v.redirect moved) = of? v := by
  cases v <;> rfl

@[simp] theorem Value.countObjects_redirect (moved : Array Nat) (v : Value) :
    (v.redirect moved).countObjects = v.countObjects := by
  cases v <;> simp [Value.redirect, Value.countObjects]

namespace Bytecode

variable (b : Bytecode)

theorem countObjects_eq : b.countObjects = (b.pool.toList.map Value.countObjects).sum := by
  have hfold (vs : List Value) (n : Nat) :
      vs.foldl (fun n v => n + v.countObjects) n = n + (vs.map Value.countObjects).sum := by
    induction vs generalizing n with
    | nil => simp
    | cons v rest ih =>
      rw [List.foldl_cons, ih, List.map_cons, List.sum_cons]
      omega
  rw [countObjects, ← Array.foldl_toList, hfold, Nat.zero_add]

theorem merge_pool_survivors : b.merge.pool.toList.map some =
    (survivors b.pool.toList).map fun i => b.pool[i]?.map (Value.redirect b.moved) := by
  have hkept := (Merged.ofPool_tracks b.pool).kept
  have := congrArg (List.map (Option.map (Value.redirect b.moved))) hkept
  simpa [merge, moved, Function.comp_def] using this

/-- A constant's new place is that of the one that stands for it. -/
theorem moved_of_lt {k : Nat} (hk : k < b.pool.size) :
    ∃ j i, b.moved.getD k k = j ∧ j ≤ k ∧ (survivors b.pool.toList)[j]? = some i ∧
      StandsFor b.pool.toList i k := by
  obtain ⟨j, hj, hle, -⟩ := (Merged.ofPool_covers b.pool).place k b.pool[k] (by simp [hk])
  obtain ⟨i, hi, hstands⟩ := (Merged.ofPool_tracks b.pool).moved k j hj
  exact ⟨j, i, by simp [moved, Array.getD_eq_getD_getElem?, hj], hle, hi, hstands⟩

theorem moved_of_le {k : Nat} (hk : b.pool.size ≤ k) : b.moved.getD k k = k := by
  have hsize := (Merged.ofPool_tracks b.pool).size
  have hnone : b.moved[k]? = none := Array.getElem?_eq_none (by simp [moved, hsize, hk])
  rw [Array.getD_eq_getD_getElem?, hnone, Option.getD_none]

theorem length_survivors_le (xs : List Value) : (survivors xs).length ≤ xs.length := by
  have := List.length_filter_le (fun i => decide (Survives xs i)) (List.range xs.length)
  simpa [survivors] using this

/-- Code follows the constants that it names. -/
theorem redirected (r : Routine) : r.Redirected b.pool.toList (survivors b.pool.toList)
    { r with code := redirectCode b.moved r.code } where
  frame := rfl
  size := size_redirectCode
  inside place k hnames hk := by
    obtain ⟨j, i, hj, hle, hi, hstands⟩ := b.moved_of_lt (by simpa using hk)
    have hlt := hnames.lt
    have hnew : NamesConstant (redirectCode b.moved r.code) place _ := hnames.redirected
    rw [hj, Nat.min_eq_left (by omega)] at hnew
    exact ⟨j, i, hnew, hi, hstands⟩
  outside place k hnames hk := by
    have hlt := hnames.lt
    have hnew : NamesConstant (redirectCode b.moved r.code) place _ := hnames.redirected
    rw [b.moved_of_le (by simpa using hk), Nat.min_eq_left (by omega)] at hnew
    exact ⟨hnew, Nat.le_trans (length_survivors_le _) hk⟩
  others q h := getElem?_redirectCode h

theorem redirected_value (v : Value) :
    v.Redirected b.pool.toList (survivors b.pool.toList) (v.redirect b.moved) := by
  cases v with
  | function id r => exact .function id (b.redirected r)
  | _ => exact .same _ (by simp)

theorem keyAt_merge {n : Nat} {key : ConstantKey}
    (h : keyAt b.merge.pool.toList n = some key) :
    ∃ i, (survivors b.pool.toList)[n]? = some i ∧ keyAt b.pool.toList i = some key := by
  obtain ⟨w, hw, hkey⟩ := Option.bind_eq_some_iff.mp h
  have hn := congrArg (·[n]?) b.merge_pool_survivors
  simp only [List.getElem?_map, hw, Option.map_some] at hn
  obtain ⟨i, hi, hv⟩ := Option.map_eq_some_iff.mp hn.symm
  obtain ⟨v, hat, rfl⟩ := Option.map_eq_some_iff.mp hv
  rw [ConstantKey.of?_redirect] at hkey
  refine ⟨i, hi, Option.bind_eq_some_iff.mpr ⟨v, ?_, hkey⟩⟩
  simpa using hat

/-- No two constants that are left have one key. -/
theorem merge_distinct (i j : Nat) (key : ConstantKey)
    (hi : keyAt b.merge.pool.toList i = some key) (hj : keyAt b.merge.pool.toList j = some key) :
    i = j := by
  obtain ⟨i', hi', hikey⟩ := b.keyAt_merge hi
  obtain ⟨j', hj', hjkey⟩ := b.keyAt_merge hj
  obtain rfl : i' = j' :=
    (survives_of_getElem? hi').inj (survives_of_getElem? hj') hikey hjkey
  have hnodup : (survivors b.pool.toList).Nodup := survivors_ascending.imp Nat.ne_of_lt
  exact (List.getElem?_inj (List.getElem?_eq_some_iff.mp hi').1 hnodup).mp (hi'.trans hj'.symm)

theorem map_getElem?_range (xs : List Value) :
    (List.range xs.length).map (xs[·]?) = xs.map some := by
  apply List.ext_getElem (by simp)
  intro i hi _
  simp

/-- The constants that are left are some of the old ones, in their order. -/
theorem kept_sublist : (Merged.ofPool b.pool).kept.toList.Sublist b.pool.toList := by
  have hsub : ((Merged.ofPool b.pool).kept.toList.map some).Sublist (b.pool.toList.map some) := by
    rw [(Merged.ofPool_tracks b.pool).kept, ← map_getElem?_range]
    exact List.filter_sublist.map _
  simpa [List.filterMap_map] using hsub.filterMap id

theorem merge_objects : b.merge.countObjects ≤ b.countObjects := by
  have hsum := (b.kept_sublist.map Value.countObjects).sum_le_sum fun _ _ => Nat.zero_le _
  simpa [countObjects_eq, merge, Function.comp_def] using hsum

theorem merge_is_quotient : b.Quotient (survivors b.pool.toList) b.merge where
  file := rfl
  ascending := survivors_ascending
  first i := mem_survivors
  pool := by
    apply forall₂_of_map_some b.merge_pool_survivors
    intro i w hw
    obtain ⟨v, hv, rfl⟩ := Option.map_eq_some_iff.mp hw
    exact ⟨v, hv, b.redirected_value v⟩
  distinct := b.merge_distinct
  main := b.redirected b.main
  objects := b.merge_objects

variable {b}

theorem survivors_eq_range (h : ∀ i < b.pool.size, Survives b.pool.toList i) :
    survivors b.pool.toList = List.range b.pool.toList.length := by
  apply List.filter_eq_self.mpr
  intro i hi
  exact decide_eq_true (h i (by simpa using hi))

/-- Where all constants are kept, each stays in its place. -/
theorem moved_of_survives (h : ∀ i < b.pool.size, Survives b.pool.toList i) (k : Nat) :
    b.moved.getD k k = k := by
  rcases Nat.lt_or_ge k b.pool.size with hk | hk
  · obtain ⟨j, i, hj, -, hi, hstands⟩ := b.moved_of_lt hk
    rw [survivors_eq_range h] at hi
    obtain ⟨_, hji⟩ := List.getElem?_eq_some_iff.mp hi
    obtain rfl : j = i := by simpa using hji
    obtain ⟨hsurvives, rfl | ⟨key, hikey, hkkey⟩⟩ := hstands
    · exact hj
    · rw [hj]
      exact hsurvives.inj (h k hk) hikey hkkey
  · exact b.moved_of_le hk

/-- A program in which no key occurs twice is left as it is. -/
theorem merge_eq_self (h : ∀ i < b.pool.size, Survives b.pool.toList i) : b.merge = b := by
  have hcode (code : Array UInt8) : redirectCode b.moved code = code :=
    redirectCode_eq_self fun k _ => moved_of_survives h k
  have hvalue (v : Value) : v.redirect b.moved = v := by
    cases v <;> simp [Value.redirect, hcode]
  have hkept : (Merged.ofPool b.pool).kept = b.pool := by
    have := (Merged.ofPool_tracks b.pool).kept
    rw [survivors_eq_range h, map_getElem?_range] at this
    exact Array.toList_inj.mp (List.map_injective_iff.mpr (Option.some_injective _) this)
  have hpool : (Merged.ofPool b.pool).kept.map (Value.redirect b.moved) = b.pool := by
    rw [hkept, show Value.redirect b.moved = id from funext hvalue, Array.map_id]
  calc b.merge
      = { b with
          main := { b.main with code := redirectCode b.moved b.main.code }
          pool := (Merged.ofPool b.pool).kept.map (Value.redirect b.moved) } := rfl
    _ = b := by rw [hcode, hpool]

variable (b)

/-- Merging makes the quotient of a program by equal keys, and has nothing left to do then. -/
theorem merge_quotient_idempotent :
    (∃ kept, b.Quotient kept b.merge) ∧ b.merge.merge = b.merge := by
  refine ⟨⟨_, b.merge_is_quotient⟩, merge_eq_self fun i hi => ⟨by simpa using hi, ?_⟩⟩
  cases hkey : keyAt b.merge.pool.toList i with
  | none => exact Or.inl rfl
  | some key =>
    refine Or.inr fun j hj hjkey => ?_
    have := b.merge_distinct i j key hkey hjkey
    omega

end Bytecode

end ScriptEngine
