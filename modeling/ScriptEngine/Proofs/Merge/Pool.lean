import Mathlib.Tactic.Common
import ScriptEngine.Bytecode.Merge
/-!
Where the constants of a pool are after merging: each one is the first with its key, or itself if it
has none.
-/
namespace ScriptEngine

theorem ConstantKey.order_injective : Function.Injective ConstantKey.order := by
  intro k l h
  cases k <;> cases l <;> simp [ConstantKey.order] at h
  case bool.bool b c =>
    cases b <;> cases c <;> first | rfl | simp at h
  case int.int n m => exact congrArg int (Int64.toBitVec.inj
    (congrArg UInt64.toBitVec (UInt64.toNat_inj.mp h)))
  case float.float n m => exact congrArg float (UInt64.toNat_inj.mp h)
  case char.char c d => exact congrArg char (Char.toNat_inj.mp h)
  case string.string s t => exact congrArg string h
  case module.module s t => exact congrArg module h

instance : Std.TransCmp ConstantKey.cmp :=
  inferInstanceAs (Std.TransCmp (compareLex (compareOn fun k : ConstantKey => k.order.1)
    (compareLex (compareOn (·.order.2.1)) (compareOn (·.order.2.2)))))

theorem ConstantKey.cmp_eq_iff {k l : ConstantKey} : cmp k l = .eq ↔ k = l := by
  constructor
  · intro h
    simp only [cmp, Ordering.then_eq_eq, Std.compare_eq_iff_eq] at h
    exact order_injective (Prod.ext h.1 (Prod.ext h.2.1 h.2.2))
  · rintro rfl
    exact Std.ReflCmp.compare_self

theorem float_toBits_injective : Function.Injective Float.toBits := by
  rintro ⟨⟨x, hx⟩⟩ ⟨⟨y, hy⟩⟩ h
  obtain rfl : x = y := h
  rfl

/-- Constants with one key are equal, but for the attributes of modules. -/
theorem ConstantKey.eq_of_of? {v w : Value} {key : ConstantKey} (hv : of? v = some key)
    (hw : of? w = some key) (hmodule : ∀ name, key ≠ .module name) : v = w := by
  cases v <;> simp only [of?, Option.some.injEq, reduceCtorEq] at hv <;> subst hv <;>
    cases w <;> simp only [of?, Option.some.injEq, reduceCtorEq, bool.injEq, int.injEq,
      float.injEq, char.injEq, string.injEq] at hw
  case float.float => rw [float_toBits_injective hw]
  case module.module name _ _ _ => exact absurd rfl (hmodule name)
  all_goals rw [hw]

/-- The first of some constants with the key of a value; the value itself if it has no key. -/
def Value.first (xs : List Value) (v : Value) : Value :=
  match ConstantKey.of? v with
  | none => v
  | some key => (xs.find? (ConstantKey.of? · = some key)).getD v

theorem Value.of?_first (xs : List Value) (v : Value) :
    ConstantKey.of? (v.first xs) = ConstantKey.of? v := by
  cases hv : ConstantKey.of? v with
  | none => simp [first, hv]
  | some key =>
    cases hf : xs.find? (ConstantKey.of? · = some key) with
    | none => simp [first, hv, hf]
    | some w =>
      have hw : ConstantKey.of? w = some key := by simpa using List.find?_some hf
      simp [first, hv, hf, hw]

/-- The first constant stays the first when more follow. -/
theorem Value.first_append {xs : List Value} {v : Value} (h : v ∈ xs) (ys : List Value) :
    v.first (xs ++ ys) = v.first xs := by
  unfold first
  cases hv : ConstantKey.of? v with
  | none => rfl
  | some key =>
    have hsome : (xs.find? (ConstantKey.of? · = some key)).isSome :=
      List.find?_isSome.mpr ⟨v, h, by simp [hv]⟩
    obtain ⟨w, hw⟩ := Option.isSome_iff_exists.mp hsome
    simp [List.find?_append, hw]

/-- Only modules give way to others. -/
theorem Value.first_eq {xs : List Value} {v : Value} (h : ∀ name attrs, v ≠ .module name attrs) :
    v.first xs = v := by
  have hkey := v.of?_first xs
  cases hv : ConstantKey.of? v with
  | none => simp [first, hv]
  | some key =>
    refine ConstantKey.eq_of_of? (hkey.trans hv) hv fun name hname => ?_
    subst hname
    cases v <;> simp_all [ConstantKey.of?]

namespace Merged

/-- Every constant of a list is where its index has moved to. -/
structure Covers (m : Merged) (xs : List Value) : Prop where
  size : m.moved.size = xs.length
  kept : m.kept.size ≤ xs.length
  place : ∀ (i : Nat) (v : Value), xs[i]? = some v →
    ∃ j, m.moved[i]? = some j ∧ j ≤ i ∧ m.kept[j]? = some (Value.first xs v)
  new : ∀ key, m.seen[key]? = none → xs.find? (ConstantKey.of? · = some key) = none
  old : ∀ key j, m.seen[key]? = some j →
    ∃ v, xs.find? (ConstantKey.of? · = some key) = some v ∧ m.kept[j]? = some v
  source : ∀ v ∈ m.kept, v ∈ xs ∧ Value.first xs v = v

variable {m : Merged} {xs : List Value}

/-- A constant that is kept comes last. -/
theorem Covers.keep (h : m.Covers xs) (v : Value) (hv : v.first (xs ++ [v]) = v) (seen)
    (hnew : ∀ key, seen[key]? = none →
      (xs ++ [v]).find? (ConstantKey.of? · = some key) = none)
    (hold : ∀ key j, seen[key]? = some j →
      ∃ w, (xs ++ [v]).find? (ConstantKey.of? · = some key) = some w ∧
        (m.kept.push v)[j]? = some w) :
    Covers ⟨m.kept.push v, seen, m.moved.push m.kept.size⟩ (xs ++ [v]) where
  size := by simp [h.size]
  kept := by simpa using h.kept
  place i w hw := by
    by_cases hi : i < xs.length
    · rw [List.getElem?_append_left hi] at hw
      obtain ⟨j, hj, hle, hkept⟩ := h.place i w hw
      have hlt : j < m.kept.size := (Array.getElem?_eq_some_iff.mp hkept).1
      refine ⟨j, ?_, hle, ?_⟩
      · rw [Array.getElem?_push_lt (by rw [h.size]; exact hi)]
        rw [← hj, Array.getElem?_eq_getElem]
      · rw [Value.first_append (List.mem_of_getElem? hw), ← hkept, Array.getElem?_push]
        simp [Nat.ne_of_lt hlt]
    · rw [List.getElem?_append_right (by omega)] at hw
      have hi' : i = xs.length := by
        have := (List.getElem?_eq_some_iff.mp hw).1
        simp at this
        omega
      subst hi'
      obtain rfl : v = w := by simpa using hw
      refine ⟨m.kept.size, ?_, h.kept, by simp [hv]⟩
      rw [← h.size]
      simp
  new := hnew
  old := hold
  source w hw := by
    rcases Array.mem_push.mp hw with hw | rfl
    · obtain ⟨hmem, hfirst⟩ := h.source w hw
      exact ⟨List.mem_append_left _ hmem, (Value.first_append hmem _).trans hfirst⟩
    · exact ⟨by simp, hv⟩

theorem Covers.add (h : m.Covers xs) (v : Value) : (m.add v).Covers (xs ++ [v]) := by
  unfold Merged.add
  cases hv : ConstantKey.of? v with
  | none =>
    have hother (key : ConstantKey) : (xs ++ [v]).find? (ConstantKey.of? · = some key) =
        xs.find? (ConstantKey.of? · = some key) := by
      simp [List.find?_append, hv]
    refine h.keep v (by simp [Value.first, hv]) m.seen (fun key hs => ?_) fun key j hs => ?_
    · rw [hother, h.new key hs]
    · obtain ⟨w, hw, hkept⟩ := h.old key j hs
      have hlt := (Array.getElem?_eq_some_iff.mp hkept).1
      refine ⟨w, (hother key).trans hw, ?_⟩
      rw [Array.getElem?_push_lt hlt, ← hkept, Array.getElem?_eq_getElem]
  | some key =>
    cases hseen : m.seen[key]? with
    | none =>
      simp only [hseen]
      have hnone := h.new key hseen
      have hself : (xs ++ [v]).find? (ConstantKey.of? · = some key) = some v := by
        simp [List.find?_append, hnone, hv]
      have hother (k : ConstantKey) (hk : key ≠ k) :
          (xs ++ [v]).find? (ConstantKey.of? · = some k) =
            xs.find? (ConstantKey.of? · = some k) := by
        simp [List.find?_append, hv, hk]
      refine h.keep v (by simp [Value.first, hv, hself]) _ (fun k hs => ?_) fun k j hs => ?_
      · rw [Std.TreeMap.getElem?_insert] at hs
        split at hs
        · simp at hs
        · rename_i hk
          rw [hother k (fun he => hk (ConstantKey.cmp_eq_iff.mpr he))]
          exact h.new k hs
      · rw [Std.TreeMap.getElem?_insert] at hs
        split at hs
        · rename_i hk
          obtain rfl := ConstantKey.cmp_eq_iff.mp hk
          obtain rfl : m.kept.size = j := by simpa using hs
          exact ⟨v, hself, by simp⟩
        · rename_i hk
          obtain ⟨w, hw, hkept⟩ := h.old k j hs
          have hlt := (Array.getElem?_eq_some_iff.mp hkept).1
          refine ⟨w, (hother k fun he => hk (ConstantKey.cmp_eq_iff.mpr he)).trans hw, ?_⟩
          rw [Array.getElem?_push_lt hlt, ← hkept, Array.getElem?_eq_getElem]
    | some j =>
      simp only [hseen]
      obtain ⟨w, hw, hkept⟩ := h.old key j hseen
      have hlt := (Array.getElem?_eq_some_iff.mp hkept).1
      have hsame (k : ConstantKey) : (xs ++ [v]).find? (ConstantKey.of? · = some k) =
          xs.find? (ConstantKey.of? · = some k) := by
        by_cases hk : key = k
        · subst hk
          simp [List.find?_append, hw]
        · simp [List.find?_append, hv, hk]
      refine ⟨by simp [h.size], by have := h.kept; simp; omega, fun i u hu => ?_,
        fun k hs => (hsame k).trans (h.new k hs), fun k i hs => ?_,
        fun u hu => ?_⟩
      · by_cases hi : i < xs.length
        · rw [List.getElem?_append_left hi] at hu
          obtain ⟨j', hj, hle, hk⟩ := h.place i u hu
          refine ⟨j', ?_, hle, by rw [Value.first_append (List.mem_of_getElem? hu), hk]⟩
          rw [Array.getElem?_push_lt (by rw [h.size]; exact hi), ← hj, Array.getElem?_eq_getElem]
        · have hlast := (List.getElem?_eq_some_iff.mp hu).1
          obtain rfl : i = xs.length := by
            simp at hlast
            omega
          obtain rfl : v = u := by simpa using hu
          refine ⟨j, by rw [← h.size]; simp, by have := h.kept; omega, ?_⟩
          simp [Value.first, hv, hsame, hw, hkept]
      · obtain ⟨u, hu, hk⟩ := h.old k i hs
        exact ⟨u, (hsame k).trans hu, hk⟩
      · obtain ⟨hmem, hfirst⟩ := h.source u hu
        exact ⟨List.mem_append_left _ hmem, (Value.first_append hmem _).trans hfirst⟩

theorem ofPool_covers (pool : Array Value) : (ofPool pool).Covers pool.toList := by
  have step (ys xs : List Value) (m : Merged) (h : m.Covers xs) :
      (ys.foldl add m).Covers (xs ++ ys) := by
    induction ys generalizing xs m with
    | nil => simpa using h
    | cons v rest ih => simpa using ih _ _ (h.add v)
  have hempty : empty.Covers [] :=
    ⟨rfl, Nat.le_refl _, by simp, by simp, by simp [empty], by simp [empty]⟩
  rw [ofPool, ← Array.foldl_toList]
  exact step pool.toList [] empty hempty

end Merged

end ScriptEngine
