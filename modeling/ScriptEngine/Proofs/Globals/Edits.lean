import Mathlib.Data.List.Nodup
import ScriptEngine.Script.Basic
/-!
What binding and unbinding names comes to. A history of edits, the latest first, says of each name
what it is bound to and since when; the bound names stand in the order of these times.
-/
namespace ScriptEngine

/-- A change of what is bound. -/
inductive Edit where
  | bind (name : String) (value : Value)
  | remove (name : String)

namespace Edit

/-- What a name is bound to: what it was bound to last, if it was not removed after that. -/
def value? : List Edit → String → Option Value
  | [], _ => none
  | bind y v :: past, x => if y = x then some v else value? past x
  | remove y :: past, x => if y = x then none else value? past x

/-- Since when a name is bound: from its first binding after it was removed last. -/
def since? : List Edit → String → Option Nat
  | [], _ => none
  | bind y _ :: past, x =>
    if y = x then some ((since? past x).getD past.length) else since? past x
  | remove y :: past, x => if y = x then none else since? past x

/-- Both names are bound, the one for longer than the other. -/
def Earlier (edits : List Edit) (x y : String) : Prop :=
  ∃ i j, since? edits x = some i ∧ since? edits y = some j ∧ i < j

/-- The names that are bound, in the order in which they were bound. -/
structure Binds (edits : List Edit) (bound : List String) : Prop where
  mem : ∀ x, x ∈ bound ↔ (value? edits x).isSome
  order : bound.Pairwise (Earlier edits)

variable {edits past : List Edit} {bound : List String} {x y : String} {i : Nat}

theorem isSome_since (edits : List Edit) (x : String) :
    (since? edits x).isSome = (value? edits x).isSome := by
  induction edits with
  | nil => rfl
  | cons e past ih =>
    cases e <;> unfold since? value? <;> split <;> simp [ih]

theorem since_lt (h : since? edits x = some i) : i < edits.length := by
  induction edits with
  | nil => cases h
  | cons e past ih =>
    rw [List.length_cons]
    cases e with
    | bind y v =>
      unfold since? at h
      split at h
      · have hi := Option.some.inj h
        cases hpast : since? past x with
        | none =>
          rw [hpast, Option.getD_none] at hi
          omega
        | some j =>
          rw [hpast, Option.getD_some] at hi
          exact Nat.lt_succ_of_lt (ih (hpast.trans (congrArg some hi)))
      · have := ih h
        omega
    | remove y =>
      unfold since? at h
      split at h
      · cases h
      · have := ih h
        omega

theorem Earlier.irrefl (edits : List Edit) (x : String) : ¬ Earlier edits x x := by
  rintro ⟨i, j, hi, hj, hlt⟩
  rw [hi] at hj
  obtain rfl := Option.some.inj hj
  exact absurd hlt (Nat.lt_irrefl i)

theorem Binds.nodup (h : Binds edits bound) : bound.Nodup :=
  List.Pairwise.imp (fun {x y} hxy hne => by
    subst hne
    exact Earlier.irrefl edits x hxy) h.order

/-- A name that is bound again keeps its place. -/
theorem Binds.rebind (h : Binds past bound) (hx : x ∈ bound) (v : Value) :
    Binds (bind x v :: past) bound := by
  have hsome : (since? past x).isSome := by rw [isSome_since, ← h.mem]; exact hx
  have hsame (y : String) : since? (bind x v :: past) y = since? past y := by
    by_cases hxy : x = y
    · subst hxy
      obtain ⟨i, hi⟩ := Option.isSome_iff_exists.mp hsome
      simp [since?, hi]
    · simp [since?, hxy]
  refine ⟨fun y => ?_, h.order.imp fun {y z} => ?_⟩
  · rw [h.mem y, ← isSome_since, ← isSome_since, hsame]
  · rintro ⟨i, j, hi, hj, hlt⟩
    exact ⟨i, j, by rw [hsame, hi], by rw [hsame, hj], hlt⟩

/-- A new name comes behind all others. -/
theorem Binds.bind_new (h : Binds past bound) (hx : x ∉ bound) (v : Value) :
    Binds (bind x v :: past) (bound ++ [x]) := by
  have hother {y : String} (hy : y ∈ bound) : since? (bind x v :: past) y = since? past y := by
    have hxy : x ≠ y := fun he => hx (he ▸ hy)
    simp [since?, hxy]
  have hnew : since? (bind x v :: past) x = some past.length := by
    have hnone : since? past x = none := by
      rw [← Option.not_isSome_iff_eq_none, isSome_since, ← h.mem]
      exact hx
    simp [since?, hnone]
  refine ⟨fun y => ?_, List.pairwise_append.mpr ⟨?_, List.pairwise_singleton _ _, ?_⟩⟩
  · by_cases hxy : x = y
    · simp [value?, hxy]
    · simp [value?, hxy, Ne.symm hxy, h.mem y]
  · refine h.order.imp_of_mem fun {y z} hy hz => ?_
    rintro ⟨i, j, hi, hj, hlt⟩
    exact ⟨i, j, by rw [hother hy, hi], by rw [hother hz, hj], hlt⟩
  · intro y hy z hz
    obtain rfl := List.mem_singleton.mp hz
    have hsome : (since? past y).isSome := by rw [isSome_since, ← h.mem]; exact hy
    obtain ⟨i, hi⟩ := Option.isSome_iff_exists.mp hsome
    exact ⟨i, past.length, by rw [hother hy, hi], hnew, since_lt hi⟩

theorem Binds.remove (h : Binds past bound) (x : String) :
    Binds (remove x :: past) (bound.filter (· ≠ x)) := by
  have hother {y : String} (hy : y ∈ bound.filter (· ≠ x)) :
      since? (Edit.remove x :: past) y = since? past y := by
    have hxy : y ≠ x := by simpa using (List.mem_filter.mp hy).2
    simp [since?, Ne.symm hxy]
  refine ⟨fun y => ?_, (h.order.filter _).imp_of_mem fun {y z} hy hz => ?_⟩
  · by_cases hxy : y = x
    · simp [value?, hxy]
    · simp [value?, hxy, Ne.symm hxy, h.mem y]
  · rintro ⟨i, j, hi, hj, hlt⟩
    exact ⟨i, j, by rw [hother hy, hi], by rw [hother hz, hj], hlt⟩

def apply (s : Script) : Edit → Script
  | bind name v => s.addValue name v
  | remove name => s.remove name

end Edit

namespace Script

/-- The script after edits, the latest first. -/
def edited (s : Script) : List Edit → Script
  | [] => s
  | e :: past => e.apply (s.edited past)

/-- The names that are bound, in the order of their slots. -/
def bound (s : Script) : List String := s.bindings.map (·.1)

variable {s : Script}

theorem bound_addValue (s : Script) (x : String) (v : Value) :
    (s.addValue x v).bound = if x ∈ s.bound then s.bound else s.bound ++ [x] :=
  map_fst_bind x v s.bindings

theorem bound_remove (s : Script) (x : String) : (s.remove x).bound = s.bound.filter (· ≠ x) := by
  simp [remove, bound, List.filter_map, Function.comp_def]

theorem lookup_remove (x y : String) (bs : List (String × Value)) :
    (bs.filter (·.1 ≠ x)).lookup y = if x = y then none else bs.lookup y := by
  induction bs with
  | nil => simp
  | cons b rest ih =>
    obtain ⟨key, v⟩ := b
    rw [List.filter_cons]
    by_cases hx : key = x
    · subst hx
      by_cases hy : key = y
      · simpa [hy] using ih
      · have hne : (y == key) = false := beq_false_of_ne (Ne.symm hy)
        simpa [hy, List.lookup_cons, hne] using ih
    · by_cases hy : y = key
      · subst hy
        simp [hx, Ne.symm hx]
      · have hne : (y == key) = false := beq_false_of_ne hy
        simpa [hx, List.lookup_cons, hne] using ih

/-- A script without bindings has after some edits the bindings that the edits come to. -/
theorem edited_binds (h : s.bindings = []) (edits : List Edit) :
    Edit.Binds edits (s.edited edits).bound ∧
      ∀ x, (s.edited edits).bindings.lookup x = Edit.value? edits x := by
  induction edits with
  | nil =>
    have hbound : (s.edited []).bound = [] := by simp [edited, bound, h]
    rw [hbound]
    exact ⟨⟨by simp [Edit.value?], .nil⟩, by simp [edited, Edit.value?, h]⟩
  | cons e past ih =>
    obtain ⟨hbinds, hlookup⟩ := ih
    cases e with
    | bind x v =>
      refine ⟨?_, fun y => ?_⟩
      · rw [edited, Edit.apply, bound_addValue]
        by_cases hx : x ∈ (s.edited past).bound
        · rw [if_pos hx]
          exact hbinds.rebind hx v
        · rw [if_neg hx]
          exact hbinds.bind_new hx v
      · change (bind x v (s.edited past).bindings).lookup y = _
        rw [lookup_bind, Edit.value?, hlookup]
        simp only [eq_comm]
    | remove x =>
      refine ⟨?_, fun y => ?_⟩
      · rw [edited, Edit.apply, bound_remove]
        exact hbinds.remove x
      · change ((s.edited past).bindings.filter (·.1 ≠ x)).lookup y = _
        rw [lookup_remove, Edit.value?, hlookup]

/-- Edits change nothing but the bindings. -/
theorem edited_eq (s : Script) (edits : List Edit) :
    s.edited edits = { s with bindings := (s.edited edits).bindings } := by
  induction edits with
  | nil => rfl
  | cons e past ih =>
    have happly : ∀ t : Script, e.apply t = { t with bindings := (e.apply t).bindings } := by
      cases e <;> exact fun t => rfl
    rw [edited, happly, ih]

end Script

end ScriptEngine
