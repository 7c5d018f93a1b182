import ScriptEngine.Proofs.Encoding.Decode
/-!
Source maps. Halving finds the last entry at or before an offset; in the map of a piece of code that
entry has the position of the item at the offset, though equal positions are recorded once.
-/
namespace ScriptEngine

open Encoding

namespace Routine

variable {map : Array (Nat × Pos)} {ip count : Nat}

/-- The first entries start at or before an offset, the others behind it. -/
structure Parted (map : Array (Nat × Pos)) (ip count : Nat) : Prop where
  le : count ≤ map.size
  before : ∀ j e, j < count → map[j]? = some e → e.1 ≤ ip
  behind : ∀ j e, count ≤ j → map[j]? = some e → ip < e.1

/-- An entry in the middle tells on which side of it the entries part. -/
theorem Parted.reached (h : Parted map ip count) (j : Nat) :
    (map[j]?.map fun entry => decide (entry.1 ≤ ip)).getD false = decide (j < count) := by
  have hle := h.le
  cases hj : map[j]? with
  | none =>
    have hsize : map.size ≤ j := Array.getElem?_eq_none_iff.mp hj
    have hout : ¬ j < count := by omega
    simp [hout]
  | some e =>
    by_cases hlt : j < count
    · have hreach := h.before j e hlt hj
      simp [hlt, hreach]
    · have hpast := h.behind j e (by omega) hj
      have hnot : ¬ e.1 ≤ ip := by omega
      simp [hlt, hnot]

/-- Halving a stretch in which the entries part ends at the last one before they do. -/
theorem Parted.narrow (h : Parted map ip count) (fuel size base : Nat) (hfuel : size ≤ fuel)
    (hlow : base < count) (hhigh : count ≤ base + size) :
    Routine.narrow map ip fuel size base = count - 1 := by
  induction fuel generalizing size base with
  | zero => omega
  | succ fuel ih =>
    simp only [Routine.narrow]
    split
    · omega
    · rw [h.reached]
      by_cases hmiddle : base + size / 2 < count
      · simp only [hmiddle, decide_true, if_true]
        apply ih <;> omega
      · simp only [hmiddle, decide_false, Bool.false_eq_true, if_false]
        apply ih <;> omega

theorem Parted.of_split {early late : List (Nat × Pos)} (h : map.toList = early ++ late)
    (hbefore : ∀ e ∈ early, e.1 ≤ ip) (hbehind : ∀ e ∈ late, ip < e.1) :
    Parted map ip early.length := by
  have hget (j : Nat) : map[j]? = (early ++ late)[j]? := by rw [← h, Array.getElem?_toList]
  constructor
  · rw [← Array.length_toList, h, List.length_append]
    omega
  · intro j e hj he
    rw [hget, List.getElem?_append_left hj] at he
    exact hbefore e (List.mem_of_getElem? he)
  · intro j e hj he
    rw [hget, List.getElem?_append_right hj] at he
    exact hbehind e (List.mem_of_getElem? he)

/-- The position recorded for an offset is that of the last entry at or before it. -/
theorem posAt_of_parted {r : Routine} {p : Pos} {offset : Nat} (h : Parted r.sourceMap ip count)
    (hpos : 0 < count) (hlast : r.sourceMap[count - 1]? = some (offset, p)) :
    r.posAt ip = some p := by
  have hle := h.le
  have hfound := h.narrow r.sourceMap.size r.sourceMap.size 0 (by omega) hpos (by omega)
  have hreach : offset ≤ ip := h.before (count - 1) _ (by omega) hlast
  simp only [posAt, hfound, hlast, hreach, if_true]

end Routine

namespace Code

variable {i : Item} {is pre post : List Item} {p : Pos} {map : Array (Nat × Pos)} {offset : Nat}

/-- The map recorded for some items that follow one another from an offset on. -/
def recorded : List Item → Array (Nat × Pos) → Nat → Array (Nat × Pos)
  | [], map, _ => map
  | i :: rest, map, offset => recorded rest (record map offset i) (offset + i.size)

theorem sourceMap_eq (c : Code) : c.sourceMap = recorded c.toList #[] 0 := by
  have hfold (is : List Item) (map : Array (Nat × Pos)) (offset : Nat) :
      (is.foldl (fun e i => (record e.1 e.2 i, e.2 + i.size)) (map, offset)).1 =
        recorded is map offset := by
    induction is generalizing map offset with
    | nil => rfl
    | cons i rest ih => exact ih _ _
  rw [sourceMap, ← Array.foldl_toList]
  exact hfold ..

theorem recorded_append (pre post : List Item) (map : Array (Nat × Pos)) (offset : Nat) :
    recorded (pre ++ post) map offset =
      recorded post (recorded pre map offset) (offset + extent Item.size pre) := by
  induction pre generalizing map offset with
  | nil => rfl
  | cons i rest ih =>
    rw [List.cons_append, recorded, ih, extent_cons, Nat.add_assoc]
    rfl

/-- An item adds at most an entry of its own. -/
theorem record_grows (map : Array (Nat × Pos)) (offset : Nat) (i : Item) :
    ∃ new, (record map offset i).toList = map.toList ++ new ∧ ∀ e ∈ new, e.1 = offset := by
  unfold record
  cases i.pos with
  | none => exact ⟨[], by simp, by simp⟩
  | some pos =>
    dsimp only
    split
    · exact ⟨[], by simp, by simp⟩
    · exact ⟨[(offset, pos)], by simp, by simp⟩

/-- What is added behind an offset starts there. -/
theorem recorded_grows (is : List Item) (map : Array (Nat × Pos)) (offset : Nat) :
    ∃ new, (recorded is map offset).toList = map.toList ++ new ∧ ∀ e ∈ new, offset ≤ e.1 ∧
      e.1 < offset + extent Item.size is := by
  induction is generalizing map offset with
  | nil => exact ⟨[], by simp [recorded], by simp⟩
  | cons i rest ih =>
    obtain ⟨first, hfirst, hat⟩ := record_grows map offset i
    obtain ⟨new, hnew, hbehind⟩ := ih (record map offset i) (offset + i.size)
    have hpos := i.size_pos
    refine ⟨first ++ new, ?_, fun e he => ?_⟩
    · rw [recorded, hnew, hfirst, List.append_assoc]
    · rw [extent_cons]
      rcases List.mem_append.mp he with he | he
      · have := hat e he
        omega
      · have := hbehind e he
        omega

/-- Once an item is recorded the last entry has its position. -/
theorem record_last (h : i.pos = some p) : (record map offset i).back?.map (·.2) = some p := by
  unfold record
  simp only [h]
  split
  · rename_i hsame
    exact hsame
  · simp

/-- The map of a piece of code tells the position of every item that has one. -/
theorem posAt_toRoutine {c : Code} {ip locals params : Nat} (h : c.at? ip = some i)
    (hpos : i.pos = some p) : (c.toRoutine locals params).posAt ip = some p := by
  obtain ⟨pre, post, hcode, rfl⟩ := (placed_eq_some Item.size_pos).mp h
  let here := record (recorded pre #[] 0) (extent Item.size pre) i
  have hmap : c.sourceMap = recorded post here (extent Item.size pre + i.size) := by
    rw [sourceMap_eq, hcode, recorded_append, Nat.zero_add]
    rfl
  obtain ⟨early, hearly, hbefore⟩ := recorded_grows pre #[] 0
  obtain ⟨own, hown, hat⟩ := record_grows (recorded pre #[] 0) (extent Item.size pre) i
  obtain ⟨late, hlate, hbehind⟩ := recorded_grows post here (extent Item.size pre + i.size)
  have hsplit : c.sourceMap.toList = here.toList ++ late := by rw [hmap, hlate]
  have hsize := i.size_pos
  have hparted : Routine.Parted c.sourceMap (extent Item.size pre) here.toList.length := by
    refine .of_split hsplit (fun e he => ?_) fun e he => ?_
    · rw [hown, hearly] at he
      rcases List.mem_append.mp he with he | he
      · have := hbefore e (by simpa using he)
        omega
      · have := hat e he
        omega
    · have := hbehind e he
      omega
  have hrecord : here.back?.map (·.2) = some p := record_last hpos
  obtain ⟨⟨offset, pos⟩, hback, hsame⟩ := Option.map_eq_some_iff.mp hrecord
  obtain rfl : pos = p := hsame
  have hlast : here.toList.getLast? = some (offset, pos) := by
    rw [Array.getLast?_toList]
    exact hback
  have hne : 0 < here.toList.length := by
    rw [List.length_pos_iff]
    intro hempty
    rw [hempty] at hlast
    cases hlast
  have hentry : c.sourceMap[here.toList.length - 1]? = some (offset, pos) := by
    rw [← Array.getElem?_toList, hsplit, List.getElem?_append_left (by omega),
      ← List.getLast?_eq_getElem?]
    exact hlast
  exact Routine.posAt_of_parted (r := c.toRoutine locals params) hparted hne hentry

end Code

end ScriptEngine
