import ScriptEngine.Proofs.Meaning.Steps
/-!
Names. What the compiler has resolved a name to is where the machine keeps the value that the
evaluation finds by the name.
-/
namespace ScriptEngine

namespace Locals

variable {locals : Locals} {x : String} {v : Value} {i : Nat}

theorem lookup_of_slotOf (h : slotOf x (locals.map Prod.fst) = some i) :
    ∃ v, locals.lookup x = some v ∧ (locals.reverse.map Prod.snd)[i]? = some v := by
  induction locals with
  | nil => cases h
  | cons e rest ih =>
    obtain ⟨y, w⟩ := e
    simp only [List.map_cons, slotOf] at h
    split at h
    · rename_i hy
      obtain rfl : (rest.map Prod.fst).length = i := Option.some.inj h
      exact ⟨w, by simp [hy], by simp⟩
    · rename_i hy
      obtain ⟨v, hv, hget⟩ := ih h
      have hne : (x == y) = false := beq_false_of_ne fun he => hy he.symm
      refine ⟨v, by rw [List.lookup_cons, hne]; exact hv, ?_⟩
      rw [List.reverse_cons, List.map_append, List.getElem?_append_left]
      · exact hget
      · exact (List.getElem?_eq_some_iff.mp hget).1

theorem lookup_eq_none {e : List (String × Value)} : e.lookup x = none ↔ x ∉ e.map Prod.fst := by
  rw [List.lookup_eq_none_iff]
  simp only [List.mem_map, not_exists, not_and, bne_iff_ne]
  exact ⟨fun h e he hx => h e he hx.symm, fun h e he hx => h e he hx.symm⟩

/-- An assignment changes the value in the slot of the name. -/
theorem assign_slot (h : slotOf x (locals.map Prod.fst) = some i) :
    (locals.assign x v).map Prod.fst = locals.map Prod.fst ∧
      (locals.assign x v).reverse.map Prod.snd = (locals.reverse.map Prod.snd).set i v := by
  induction locals with
  | nil => cases h
  | cons e rest ih =>
    obtain ⟨y, w⟩ := e
    simp only [List.map_cons, slotOf] at h
    split at h
    · rename_i hy
      obtain rfl : (rest.map Prod.fst).length = i := Option.some.inj h
      simp [assign, hy]
    · rename_i hy
      obtain ⟨hnames, hvalues⟩ := ih h
      have hlt := slotOf_lt h
      rw [List.length_map] at hlt
      refine ⟨by simp [assign, hy, hnames], ?_⟩
      simp [assign, hy, hvalues, List.set_append_left, hlt]

/-- Behind a block the variables from before it are left. -/
theorem map_leave {outer inner : Locals} (h : outer.map Prod.fst <:+ inner.map Prod.fst) :
    (outer.leave inner).map Prod.fst = outer.map Prod.fst := by
  have hdrop := List.suffix_iff_eq_drop.mp h
  simp only [List.length_map] at hdrop
  rw [leave, List.map_drop]
  exact hdrop.symm

theorem leave_suffix (outer inner : Locals) : outer.leave inner <:+ inner := List.drop_suffix ..

end Locals

namespace Activation

variable {A : Activation} {Γ Γ' : Names} {locals locals' : Locals} {s : Array Value} {x : String}
  {i : Nat} {storage : Storage} {v w : Value}

theorem Knows.congr (h : A.Knows Γ locals) (haround : Γ'.around? = Γ.around?)
    (hvars : locals'.map Prod.fst = Γ'.vars) : A.Knows Γ' locals' :=
  ⟨hvars, haround ▸ h.around, haround ▸ h.called⟩

theorem Site.skip (h : A.Site Γ locals s) (n : Nat) : A.Site (Γ.skip n) locals s :=
  ⟨h.toRuns, ⟨h.vars, h.around, h.called⟩, h.holds⟩

/-- Fewer variables lie in the same slots. -/
theorem Holds.suffix (h : A.Holds locals s) (hsuffix : locals' <:+ locals) : A.Holds locals' s := by
  obtain ⟨slots, hs, hlength, hprefix⟩ := h
  exact ⟨slots, hs, hlength,
    ((List.reverse_prefix.mpr hsuffix).map Prod.snd).trans hprefix⟩

theorem Holds.size (h : A.Holds locals s) : s.size = A.below.size + A.body.locals := by
  obtain ⟨slots, rfl, hlength, -⟩ := h
  simp [hlength]

/-- The slot of a variable holds its value. -/
theorem Holds.get (h : A.Holds locals s) (hi : (locals.reverse.map Prod.snd)[i]? = some v) :
    ∃ w : Value, s[A.below.size + i]? = some w ∧ w.bare = v := by
  obtain ⟨slots, rfl, -, hprefix⟩ := h
  obtain ⟨hlt, rfl⟩ := List.getElem?_eq_some_iff.mp hi
  have hslot := List.prefix_iff_getElem?.mp hprefix i hlt
  rw [List.getElem?_map, Option.map_eq_some_iff] at hslot
  obtain ⟨w, hw, hbare⟩ := hslot
  refine ⟨w, ?_, hbare⟩
  rw [Array.getElem?_append_right (Nat.le_add_right ..)]
  simpa using hw

/-- A slot is filled with the value of a variable. -/
theorem Holds.set (h : A.Holds locals s)
    (hvalues : ∀ slots : List Value, locals.reverse.map Prod.snd <+: slots.map Value.bare →
      slots.length = A.body.locals →
      locals'.reverse.map Prod.snd <+: (slots.set i w).map Value.bare) :
    A.Holds locals' (s.setIfInBounds (A.below.size + i) w) := by
  obtain ⟨slots, rfl, hlength, hprefix⟩ := h
  refine ⟨slots.set i w, ?_, by simp [hlength], hvalues slots hprefix hlength⟩
  exact Array.toList_inj.mp (by simp)

theorem Holds.assign (h : A.Holds locals s)
    (hslot : slotOf x (locals.map Prod.fst) = some i) :
    A.Holds (locals.assign x w.bare) (s.setIfInBounds (A.below.size + i) w) := by
  refine h.set fun slots hprefix _ => ?_
  rw [(Locals.assign_slot hslot).2, List.map_set]
  obtain ⟨rest, hrest⟩ := hprefix
  have hlt := slotOf_lt hslot
  rw [← hrest, List.set_append_left]
  · exact List.prefix_append ..
  · simpa using hlt

theorem Holds.define (h : A.Holds locals s) (hi : locals.length < A.body.locals) :
    A.Holds ((x, w.bare) :: locals) (s.setIfInBounds (A.below.size + locals.length) w) := by
  refine h.set fun slots hprefix hlength => ?_
  have hsize : (locals.reverse.map Prod.snd).length = locals.length := by simp
  rw [List.map_set, List.reverse_cons, List.map_append]
  obtain ⟨rest, hrest⟩ := hprefix
  rw [← hrest]
  match rest with
  | [] =>
    exfalso
    have := congrArg List.length hrest
    simp only [List.append_nil, List.length_map, List.length_reverse] at this
    omega
  | r :: rest =>
    rw [List.set_append_right _ _ (Nat.le_of_eq hsize), hsize, Nat.sub_self, List.set_cons_zero]
    exact ⟨rest, by simp⟩

/-- The name of a variable of the call itself. -/
theorem Site.frame (h : A.Site Γ locals s)
    (hres : Γ.resolve A.body.captured x = some (.frame, i)) :
    slotOf x (locals.map Prod.fst) = some i := by
  obtain ⟨vars, around, hf, hown⟩ := Layout.own_of_resolve hres (.inl rfl)
  rw [h.vars, Names.vars, hf, List.headD_cons]
  unfold Names.own at hown
  split at hown
  · rename_i j hj
    obtain ⟨-, rfl⟩ := Prod.mk.inj (Option.some.inj hown)
    exact hj
  · obtain ⟨_, _, hfree⟩ := Option.map_eq_some_iff.mp hown
    cases hfree

theorem lookup_of_captures {names : List String} {captured : List (String × Value)}
    {free : List Value} (h : Captures names captured free) (hi : names.idxOf? x = some i) :
    ∃ w : Value, free[i]? = some w ∧ captured.lookup x = some w.bare := by
  obtain ⟨hlength, hget⟩ := List.forall₂_iff_get.mp h
  obtain ⟨hlt, hx, -⟩ := List.findIdx?_eq_some_iff_getElem.mp hi
  have hlt' : i < free.length := hlength ▸ hlt
  refine ⟨free[i], List.getElem?_eq_getElem hlt', ?_⟩
  have hvalue := hget i hlt hlt'
  simp only [List.get_eq_getElem, beq_iff_eq.mp hx] at hvalue
  exact hvalue

/-- The name of a variable that the function took along. -/
theorem Site.free (h : A.Site Γ locals s)
    (hres : Γ.resolve A.body.captured x = some (.free, i)) : locals.lookup x = none ∧
      ∃ w : Value, A.frame.free[i]? = some w ∧ A.captured.lookup x = some w.bare := by
  obtain ⟨vars, around, hf, hown⟩ := Layout.own_of_resolve hres (.inr rfl)
  unfold Names.own at hown
  split at hown
  · cases hown
  · rename_i hslot
    obtain ⟨j, hj, hfree⟩ := Option.map_eq_some_iff.mp hown
    obtain ⟨-, rfl⟩ := Prod.mk.inj hfree
    refine ⟨Locals.lookup_eq_none.mpr ?_, lookup_of_captures h.captured hj⟩
    rw [h.vars, Names.vars, hf]
    exact slotOf_eq_none.mp hslot

theorem Knows.mem_flatten (h : A.Knows Γ locals) {e : String × Value}
    (he : e ∈ locals ++ A.captured) : e.1 ∈ Γ.functions.flatten := by
  have hvars := h.vars
  have haround := h.around
  cases hf : Γ.functions with
  | nil =>
    rcases List.mem_append.mp he with he | he
    · have := List.mem_map_of_mem (f := Prod.fst) he
      rw [hvars, Names.vars, hf] at this
      cases this
    · have := haround e he
      rw [Names.around?, hf] at this
      cases this
  | cons vars around =>
    rw [List.flatten_cons]
    rcases List.mem_append.mp he with he | he
    · have := List.mem_map_of_mem (f := Prod.fst) he
      rw [hvars, Names.vars, hf] at this
      exact List.mem_append_left _ this
    · have := haround e he
      rw [Names.around?, hf] at this
      exact List.mem_append_right _ this

/-- A name that is no variable of a function. -/
theorem Site.outer (h : A.Site Γ locals s)
    (hres : Γ.resolve A.body.captured x = some (storage, i))
    (hs : storage = .global ∨ storage = .builtin) :
    (locals ++ A.captured).lookup x = none ∧ Γ.outer x = some (storage, i) := by
  obtain ⟨hvariable, houter⟩ := Layout.outer_of_resolve hres hs
  refine ⟨Locals.lookup_eq_none.mpr fun hx => ?_, houter⟩
  obtain ⟨e, he, rfl⟩ := List.mem_map.mp hx
  exact hvariable (h.mem_flatten he)

/-- The value of a variable is where the function finds it. -/
theorem Site.lookup (h : A.Site Γ locals s)
    (hres : Γ.resolve A.body.captured x = some (storage, i))
    (hs : storage = .frame ∨ storage = .free) : ∃ w : Value,
      (locals ++ A.captured).lookup x = some w.bare ∧
      (storage = .frame ∧ s[A.below.size + i]? = some w ∨
        storage = .free ∧ A.frame.free[i]? = some w) := by
  rcases hs with rfl | rfl
  · obtain ⟨v, hlookup, hget⟩ := Locals.lookup_of_slotOf (h.frame hres)
    obtain ⟨w, hw, rfl⟩ := h.holds.get hget
    exact ⟨w, by rw [List.lookup_append, hlookup]; rfl, .inl ⟨rfl, hw⟩⟩
  · obtain ⟨hnone, w, hw, hlookup⟩ := h.free hres
    exact ⟨w, by rw [List.lookup_append, hnone, hlookup]; rfl, .inr ⟨rfl, hw⟩⟩

end Activation

end ScriptEngine
