import Mathlib.Data.List.Basic
import Mathlib.Data.Nat.Find
import ScriptEngine.Proofs.Merge.Pool
/-!
The constants that merging keeps, told by their places. A constant is kept unless one before it has
its key, and the first with a key stands for all others with it.
-/
namespace ScriptEngine

/-- The key of the constant at a place. -/
def keyAt (xs : List Value) (i : Nat) : Option ConstantKey := xs[i]?.bind ConstantKey.of?

/-- The constant at a place has no key, or is the first with its key. -/
def Survives (xs : List Value) (i : Nat) : Prop :=
  i < xs.length ∧ (keyAt xs i = none ∨ ∀ j < i, keyAt xs j ≠ keyAt xs i)

instance (xs : List Value) (i : Nat) : Decidable (Survives xs i) :=
  inferInstanceAs (Decidable (_ ∧ (_ ∨ _)))

/-- The constant at `i` is kept for the one at `k`. -/
def StandsFor (xs : List Value) (i k : Nat) : Prop :=
  Survives xs i ∧ (i = k ∨ ∃ key, keyAt xs i = some key ∧ keyAt xs k = some key)

/-- The places of the constants that are kept. -/
def survivors (xs : List Value) : List Nat := (List.range xs.length).filter (Survives xs ·)

variable {xs ys : List Value} {v : Value} {i j k : Nat}

theorem keyAt_append (h : i < xs.length) : keyAt (xs ++ ys) i = keyAt xs i := by
  rw [keyAt, List.getElem?_append_left h, keyAt]

@[simp] theorem keyAt_length : keyAt (xs ++ [v]) xs.length = ConstantKey.of? v := by
  simp [keyAt]

theorem lt_of_keyAt {key : ConstantKey} (h : keyAt xs i = some key) : i < xs.length := by
  obtain ⟨v, hv, -⟩ := Option.bind_eq_some_iff.mp h
  exact (List.getElem?_eq_some_iff.mp hv).1

theorem survives_append (h : i < xs.length) : Survives (xs ++ ys) i ↔ Survives xs i := by
  have hkey (j : Nat) (hj : j < i) : keyAt (xs ++ ys) j = keyAt xs j :=
    keyAt_append (Nat.lt_trans hj h)
  constructor
  · rintro ⟨-, hfirst⟩
    rw [keyAt_append h] at hfirst
    exact ⟨h, hfirst.imp_right fun hne j hj => hkey j hj ▸ hne j hj⟩
  · rintro ⟨-, hfirst⟩
    rw [Survives, keyAt_append h]
    exact ⟨by rw [List.length_append]; omega,
      hfirst.imp_right fun hne j hj => (hkey j hj).symm ▸ hne j hj⟩

/-- The last constant is kept unless its key is known. -/
theorem survives_length : Survives (xs ++ [v]) xs.length ↔
    ∀ key, ConstantKey.of? v = some key → ∀ j, keyAt xs j ≠ some key := by
  constructor
  · rintro ⟨-, hnone | hfirst⟩ key hkey j hj
    · rw [keyAt_length, hkey] at hnone
      cases hnone
    · have hlt := lt_of_keyAt hj
      apply hfirst j hlt
      rw [keyAt_length, keyAt_append hlt, hj, hkey]
  · intro h
    refine ⟨by simp, ?_⟩
    cases hkey : ConstantKey.of? v with
    | none => exact Or.inl (keyAt_length.trans hkey)
    | some key =>
      refine Or.inr fun j hj => ?_
      rw [keyAt_length, keyAt_append hj, hkey]
      exact h key hkey j

theorem mem_survivors : i ∈ survivors xs ↔ Survives xs i := by
  simp only [survivors, List.mem_filter, List.mem_range, decide_eq_true_eq]
  exact ⟨fun h => h.2, fun h => ⟨h.1, h⟩⟩

theorem survivors_ascending : (survivors xs).Pairwise (· < ·) :=
  List.pairwise_lt_range.filter _

theorem survivors_concat : survivors (xs ++ [v]) =
    if Survives (xs ++ [v]) xs.length then survivors xs ++ [xs.length] else survivors xs := by
  have hsame : (List.range xs.length).filter (Survives (xs ++ [v]) ·) = survivors xs := by
    apply List.filter_congr
    intro i hi
    simp only [survives_append (List.mem_range.mp hi)]
  have hlen : (xs ++ [v]).length = xs.length + 1 := by simp
  rw [survivors, hlen, List.range_succ, List.filter_append, hsame]
  split <;> simp [*]

theorem StandsFor.append (h : StandsFor xs i k) : StandsFor (xs ++ ys) i k := by
  obtain ⟨hi, hk⟩ := h
  refine ⟨(survives_append hi.1).mpr hi, ?_⟩
  rcases hk with rfl | ⟨key, hikey, hkkey⟩
  · exact Or.inl rfl
  · exact Or.inr ⟨key, by rwa [keyAt_append hi.1], by rwa [keyAt_append (lt_of_keyAt hkkey)]⟩

/-- No constant stands for an earlier one. -/
theorem StandsFor.le (h : StandsFor xs i k) : i ≤ k := by
  obtain ⟨⟨-, hfirst⟩, rfl | ⟨key, hi, hk⟩⟩ := h
  · exact Nat.le_refl i
  · by_contra hlt
    rcases hfirst with hnone | hfirst
    · rw [hi] at hnone
      cases hnone
    · exact hfirst k (by omega) (hk.trans hi.symm)

/-- Every key belongs to a constant that is kept. -/
theorem exists_survivor {key : ConstantKey} (h : keyAt xs k = some key) :
    ∃ i, Survives xs i ∧ keyAt xs i = some key := by
  have hex : ∃ i, keyAt xs i = some key := ⟨k, h⟩
  refine ⟨Nat.find hex, ⟨lt_of_keyAt (Nat.find_spec hex), Or.inr fun j hj => ?_⟩,
    Nat.find_spec hex⟩
  rw [Nat.find_spec hex]
  exact Nat.find_min hex hj

theorem survives_of_getElem? {n : Nat} (h : (survivors xs)[n]? = some i) : Survives xs i :=
  mem_survivors.mp (List.mem_of_getElem? h)

/-- Two constants that are kept have different keys. -/
theorem Survives.inj {key : ConstantKey} (hi : Survives xs i) (hj : Survives xs j)
    (hikey : keyAt xs i = some key) (hjkey : keyAt xs j = some key) : i = j :=
  Nat.le_antisymm (StandsFor.le ⟨hi, Or.inr ⟨key, hikey, hjkey⟩⟩)
    (StandsFor.le ⟨hj, Or.inr ⟨key, hjkey, hikey⟩⟩)

namespace Merged

variable {m : Merged}

/-- What merging knows once it has met these constants. -/
structure Tracks (m : Merged) (xs : List Value) : Prop where
  kept : m.kept.toList.map some = (survivors xs).map (xs[·]?)
  size : m.moved.size = xs.length
  moved : ∀ k n, m.moved[k]? = some n → ∃ i, (survivors xs)[n]? = some i ∧ StandsFor xs i k
  seen : ∀ key n, m.seen[key]? = some n ↔
    ∃ i, (survivors xs)[n]? = some i ∧ keyAt xs i = some key

theorem Tracks.length (h : m.Tracks xs) : (survivors xs).length = m.kept.size := by
  have := congrArg List.length h.kept
  simpa using this.symm

/-- A key that was not met has no constant. -/
theorem Tracks.unseen {key : ConstantKey} (h : m.Tracks xs) (hkey : m.seen[key]? = none) (j : Nat) :
    keyAt xs j ≠ some key := by
  intro hj
  obtain ⟨i, hi, hikey⟩ := exists_survivor hj
  obtain ⟨n, hn⟩ := List.getElem?_of_mem (mem_survivors.mpr hi)
  have := (h.seen key n).mpr ⟨i, hn, hikey⟩
  rw [hkey] at this
  cases this

theorem map_survivors_append : (survivors xs).map ((xs ++ ys)[·]?) = (survivors xs).map (xs[·]?) := by
  apply List.map_congr_left
  intro i hi
  exact List.getElem?_append_left (mem_survivors.mp hi).1

/-- The places of constants that were met before stay right. -/
theorem Tracks.moved_push (h : m.Tracks xs) {n : Nat}
    (hold : ∀ n i : Nat, (survivors xs)[n]? = some i → (survivors (xs ++ [v]))[n]? = some i)
    (hnew : ∃ i, (survivors (xs ++ [v]))[n]? = some i ∧ StandsFor (xs ++ [v]) i xs.length)
    (k j : Nat) (hk : (m.moved.push n)[k]? = some j) :
    ∃ i, (survivors (xs ++ [v]))[j]? = some i ∧ StandsFor (xs ++ [v]) i k := by
  rw [Array.getElem?_push] at hk
  split at hk
  · rename_i hlast
    obtain rfl := Option.some.inj hk
    rw [hlast, h.size]
    exact hnew
  · obtain ⟨i, hi, hstands⟩ := h.moved k j hk
    exact ⟨i, hold j i hi, hstands.append⟩

/-- A constant that is kept comes last. -/
theorem Tracks.keep (h : m.Tracks xs) (hv : Survives (xs ++ [v]) xs.length) {seen}
    (hseen : ∀ key n, seen[key]? = some n ↔
      m.seen[key]? = some n ∨ n = m.kept.size ∧ ConstantKey.of? v = some key) :
    Tracks ⟨m.kept.push v, seen, m.moved.push m.kept.size⟩ (xs ++ [v]) := by
  have hsurvivors : survivors (xs ++ [v]) = survivors xs ++ [xs.length] := by
    rw [survivors_concat, if_pos hv]
  have hlast : (survivors (xs ++ [v]))[m.kept.size]? = some xs.length := by
    simp [hsurvivors, ← h.length]
  have hold (n i : Nat) (hn : (survivors xs)[n]? = some i) :
      (survivors (xs ++ [v]))[n]? = some i := by
    rw [hsurvivors, List.getElem?_append_left (List.getElem?_eq_some_iff.mp hn).1]
    exact hn
  refine ⟨?_, by simp [h.size], h.moved_push hold ⟨_, hlast, hv, Or.inl rfl⟩, fun key n => ?_⟩
  · simp [hsurvivors, map_survivors_append, h.kept]
  · rw [hseen, h.seen]
    constructor
    · rintro (⟨i, hi, hkey⟩ | ⟨rfl, hkey⟩)
      · exact ⟨i, hold n i hi, by rwa [keyAt_append (lt_of_keyAt hkey)]⟩
      · exact ⟨xs.length, hlast, keyAt_length.trans hkey⟩
    · rintro ⟨i, hi, hkey⟩
      by_cases hn : n < (survivors xs).length
      · rw [hsurvivors, List.getElem?_append_left hn] at hi
        have hlt := (survives_of_getElem? hi).1
        exact Or.inl ⟨i, hi, by rwa [keyAt_append hlt] at hkey⟩
      · rw [hsurvivors, List.getElem?_append_right (by omega)] at hi
        have hbound := (List.getElem?_eq_some_iff.mp hi).1
        simp only [List.length_singleton] at hbound
        have hzero : n - (survivors xs).length = 0 := by omega
        rw [hzero] at hi
        obtain rfl : xs.length = i := by simpa using hi
        exact Or.inr ⟨by rw [← h.length]; omega, by rwa [keyAt_length] at hkey⟩

/-- A constant whose key was met makes way for the one that has it. -/
theorem Tracks.drop (h : m.Tracks xs) {key : ConstantKey} {n : Nat}
    (hkey : ConstantKey.of? v = some key) (hn : m.seen[key]? = some n) :
    Tracks { m with moved := m.moved.push n } (xs ++ [v]) := by
  obtain ⟨i, hi, hikey⟩ := (h.seen key n).mp hn
  have hlt := lt_of_keyAt hikey
  have hsurvivors : survivors (xs ++ [v]) = survivors xs := by
    rw [survivors_concat, if_neg]
    intro hv
    exact survives_length.mp hv key hkey i hikey
  have hstands : StandsFor (xs ++ [v]) i xs.length := by
    refine ⟨(survives_append hlt).mpr (survives_of_getElem? hi), Or.inr ⟨key, ?_, ?_⟩⟩
    · rwa [keyAt_append hlt]
    · exact keyAt_length.trans hkey
  refine ⟨?_, by simp [h.size], ?_, fun k j => ?_⟩
  · rw [hsurvivors, map_survivors_append]
    exact h.kept
  · exact h.moved_push (by simp [hsurvivors]) ⟨i, by rwa [hsurvivors], hstands⟩
  · rw [h.seen, hsurvivors]
    constructor
    · rintro ⟨i, hi, hk⟩
      exact ⟨i, hi, by rwa [keyAt_append (lt_of_keyAt hk)]⟩
    · rintro ⟨i, hi, hk⟩
      exact ⟨i, hi, by rwa [keyAt_append (survives_of_getElem? hi).1] at hk⟩

theorem Tracks.add (h : m.Tracks xs) (v : Value) : (m.add v).Tracks (xs ++ [v]) := by
  unfold Merged.add
  cases hv : ConstantKey.of? v with
  | none =>
    apply h.keep
    · rw [survives_length, hv]
      rintro key ⟨⟩
    · simp [hv]
  | some key =>
    cases hseen : m.seen[key]? with
    | none =>
      simp only [hseen]
      apply h.keep
      · rw [survives_length, hv]
        rintro _ ⟨⟩
        exact h.unseen hseen
      · intro k n
        rw [Std.TreeMap.getElem?_insert]
        by_cases hk : ConstantKey.cmp key k = .eq
        · obtain rfl := ConstantKey.cmp_eq_iff.mp hk
          simp [hseen, hv, hk, eq_comm]
        · have hne : key ≠ k := by
            intro he
            exact hk (ConstantKey.cmp_eq_iff.mpr he)
          simp [hk, hv, hne]
    | some n =>
      simp only [hseen]
      exact h.drop hv hseen

theorem ofPool_tracks (pool : Array Value) : (ofPool pool).Tracks pool.toList := by
  have step (ys xs : List Value) (m : Merged) (h : m.Tracks xs) :
      (ys.foldl add m).Tracks (xs ++ ys) := by
    induction ys generalizing xs m with
    | nil => simpa using h
    | cons v rest ih => simpa using ih _ _ (h.add v)
  have hempty : empty.Tracks [] :=
    ⟨rfl, rfl, by simp [empty], by simp [empty, survivors]⟩
  rw [ofPool, ← Array.foldl_toList]
  exact step pool.toList [] empty hempty

end Merged

end ScriptEngine
