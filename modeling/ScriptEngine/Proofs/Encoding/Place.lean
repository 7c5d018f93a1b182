import Mathlib.Algebra.GroupWithZero.Nat
import Mathlib.Algebra.Order.BigOperators.Group.List
import Mathlib.Tactic.Common
/-!
Things of various sizes that lie behind one another, found by offset. Instructions lie so in code.
-/
namespace ScriptEngine.Encoding

variable {α β : Type} {size : α → Nat} {xs ys : List α} {x y : α} {p q : Nat}

/-- The size of all things together. -/
def extent (size : α → Nat) (xs : List α) : Nat := (xs.map size).sum

/-- The thing that starts at an offset. -/
def placed (size : α → Nat) : List α → Nat → Option α
  | [], _ => none
  | x :: rest, p =>
    if p = 0 then some x else if p < size x then none else placed size rest (p - size x)

/-- An offset where a thing starts, or the end. -/
def Boundary (size : α → Nat) (xs : List α) (p : Nat) : Prop :=
  ∃ pre post, xs = pre ++ post ∧ extent size pre = p

@[simp] theorem extent_nil : extent size ([] : List α) = 0 := rfl

@[simp] theorem extent_cons : extent size (x :: xs) = size x + extent size xs := by
  simp [extent]

@[simp] theorem extent_append : extent size (xs ++ ys) = extent size xs + extent size ys := by
  simp [extent]

theorem extent_map (size : β → Nat) (f : α → β) (xs : List α) :
    extent size (xs.map f) = extent (fun x => size (f x)) xs := by
  simp [extent, Function.comp_def]

theorem placed_append_cons (hpos : ∀ x, 0 < size x) (pre post : List α) (x : α) :
    placed size (pre ++ x :: post) (extent size pre) = some x := by
  induction pre with
  | nil => simp [placed]
  | cons y rest ih =>
    have hy := hpos y
    have hne : ¬ size y + extent size rest = 0 := by omega
    have hlt : ¬ size y + extent size rest < size y := by omega
    simp only [List.cons_append, placed, extent_cons, if_neg hne, if_neg hlt,
      Nat.add_sub_cancel_left, ih]

theorem placed_eq_some (hpos : ∀ x, 0 < size x) :
    placed size xs p = some x ↔ ∃ pre post, xs = pre ++ x :: post ∧ extent size pre = p := by
  constructor
  · intro h
    induction xs generalizing p with
    | nil => simp [placed] at h
    | cons y rest ih =>
      unfold placed at h
      split at h
      · rename_i hp
        exact ⟨[], rest, by simp_all, by simp [hp]⟩
      · split at h
        · simp at h
        · obtain ⟨pre, post, rfl, hpre⟩ := ih h
          exact ⟨y :: pre, post, rfl, by rw [extent_cons]; omega⟩
  · rintro ⟨pre, post, rfl, rfl⟩
    exact placed_append_cons hpos pre post x

theorem placed_map {size : β → Nat} (f : α → β) (xs : List α) (p : Nat) :
    placed size (xs.map f) p = (placed (fun x => size (f x)) xs p).map f := by
  induction xs generalizing p with
  | nil => rfl
  | cons x rest ih =>
    simp only [List.map_cons, placed]
    split
    · rfl
    · split
      · rfl
      · exact ih _

theorem placed_lt_extent (hpos : ∀ x, 0 < size x) (h : placed size xs p = some x) :
    p + size x ≤ extent size xs := by
  obtain ⟨pre, post, rfl, rfl⟩ := (placed_eq_some hpos).mp h
  simp only [extent_append, extent_cons]
  omega

/-- Nothing starts inside a thing. -/
theorem placed_inside (h : placed size xs p = some x) (hpq : p < q)
    (hq : q < p + size x) : placed size xs q = none := by
  induction xs generalizing p q with
  | nil => rfl
  | cons y rest ih =>
    have hq0 : q ≠ 0 := by omega
    unfold placed at h ⊢
    rw [if_neg hq0]
    split at h
    · obtain rfl : y = x := by simpa using h
      rw [if_pos (by omega)]
    · split at h
      · simp at h
      · rw [if_neg (by omega)]
        exact ih h (by omega) (by omega)

theorem boundary_zero : Boundary size xs 0 := ⟨[], xs, rfl, rfl⟩

theorem boundary_next (hpos : ∀ x, 0 < size x) (h : placed size xs p = some x) :
    Boundary size xs (p + size x) := by
  obtain ⟨pre, post, rfl, rfl⟩ := (placed_eq_some hpos).mp h
  exact ⟨pre ++ [x], post, by simp, by simp⟩

/-- At a boundary there is a thing or the end. -/
theorem Boundary.placed_or_end (hpos : ∀ x, 0 < size x) (h : Boundary size xs p) :
    (∃ x, placed size xs p = some x) ∨ p = extent size xs := by
  obtain ⟨pre, post, rfl, rfl⟩ := h
  cases post with
  | nil => exact Or.inr (by simp)
  | cons x rest => exact Or.inl ⟨x, placed_append_cons hpos pre rest x⟩

theorem Boundary.le_extent (h : Boundary size xs p) : p ≤ extent size xs := by
  obtain ⟨pre, post, rfl, rfl⟩ := h
  simp

theorem boundary_map {size : β → Nat} (f : α → β) (xs : List α) (p : Nat) :
    Boundary size (xs.map f) p ↔ Boundary (fun x => size (f x)) xs p := by
  constructor
  · rintro ⟨pre, post, h, rfl⟩
    obtain ⟨pre, post, rfl, rfl, rfl⟩ := List.map_eq_append_iff.mp h
    exact ⟨pre, post, rfl, (extent_map size f pre).symm⟩
  · rintro ⟨pre, post, rfl, rfl⟩
    exact ⟨pre.map f, post.map f, by simp, extent_map size f pre⟩

end ScriptEngine.Encoding
