import ScriptEngine.Value.Basic
/-! The global slots of a program. -/
namespace ScriptEngine

/-- Slots that may be empty; an empty slot reads as undefined. -/
structure Globals where
  slots : Array (Option Value)
  deriving Inhabited

namespace Globals

def ofSize (n : Nat) : Globals := ⟨Array.replicate n none⟩

def size (g : Globals) : Nat := g.slots.size

def get? (g : Globals) (i : Nat) : Option Value := (g.slots[i]?).join

/-- The slots cut or filled up with empty ones to the given number. -/
def resize (g : Globals) (n : Nat) : Globals :=
  ⟨g.slots.take n ++ Array.replicate (n - g.slots.size) none⟩

/-- Fills a slot; there are as many slots as it takes. -/
def set (g : Globals) (i : Nat) (v : Value) : Globals :=
  if i < g.slots.size then ⟨g.slots.setIfInBounds i (some v)⟩
  else ⟨(g.resize (i + 1)).slots.setIfInBounds i (some v)⟩

theorem size_resize (g : Globals) (n : Nat) : (g.resize n).size = n := by
  simp only [resize, size, Array.take_eq_extract, Array.size_append, Array.size_extract,
    Array.size_replicate]
  omega

theorem get?_resize (g : Globals) (n j : Nat) :
    (g.resize n).get? j = if j < n then g.get? j else none := by
  unfold resize get?
  by_cases hin : j < min n g.slots.size
  · have hj : j < n := by omega
    have hs : j < g.slots.size := by omega
    simp [Array.getElem?_append, hj, hs, hin]
  · have hs : j < n → ¬ j < g.slots.size := by omega
    by_cases hj : j < n
    · simp [Array.getElem?_append, Array.getElem?_replicate, hj, hs hj, hin]
      split <;> rfl
    · simp [Array.getElem?_append, Array.getElem?_replicate, hj, hin]
      split <;> rfl

/-- Setting a slot fills that slot and leaves the others. -/
theorem get?_set (g : Globals) (i j : Nat) (v : Value) :
    (g.set i v).get? j = if i = j then some v else g.get? j := by
  unfold set
  by_cases hi : i < g.slots.size
  · by_cases hj : i = j
    · subst hj
      simp [get?, hi]
    · simp [get?, hi, hj]
  · have hsize : i < (g.resize (i + 1)).slots.size := by
      have h := size_resize g (i + 1)
      simp only [size] at h
      omega
    by_cases hj : i = j
    · subst hj
      simp [get?, hi, hsize]
    · have h := get?_resize g (i + 1) j
      simp only [get?] at h ⊢
      simp only [hi, if_false, Array.getElem?_setIfInBounds_ne hj, h, hj]
      split
      · rfl
      · have hout : ¬ j < g.slots.size := by omega
        simp [hout]

end Globals

end ScriptEngine
