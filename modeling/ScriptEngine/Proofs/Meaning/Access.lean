import ScriptEngine.Proofs.Meaning.Variables
/-! The code that loads the value of a name and that stores one in it. -/
namespace ScriptEngine.Image

open Machine Exec

variable {L : Image} {x : Setting} {A : Activation} {Γ : Names} {locals : Locals}
  {s : Array Value} {m : Machine} {vs : List Value} {p q n : Nat} {st : Store} {pos : Pos}
  {y : String} {v w : Value}

theorem ofName?_of_resolve {i : Nat} (h : Γ.outer y = some (.builtin, i)) :
    Γ.globals.lookup y = none ∧ ∃ b, Builtin.all[i]? = some b ∧ Builtin.ofName? y = some b := by
  unfold Names.outer at h
  split at h
  · cases h
  · rename_i hglobal
    obtain ⟨j, hj, hb⟩ := Option.map_eq_some_iff.mp h
    obtain ⟨-, rfl⟩ := Prod.mk.inj hb
    obtain ⟨hlt, hname, hfirst⟩ := Array.findIdx?_eq_some_iff_getElem.mp hj
    refine ⟨hglobal, Builtin.all[j], Array.getElem?_eq_getElem hlt, ?_⟩
    refine Array.find?_eq_some_iff_getElem.mpr ⟨hname, j, hlt, rfl, fun k hk => ?_⟩
    simpa using hfirst k hk

theorem lookup_of_resolve {i : Nat} (h : Γ.outer y = some (.global, i)) :
    Γ.globals.lookup y = some i := by
  unfold Names.outer at h
  split at h
  · rename_i cell hcell
    obtain ⟨-, rfl⟩ := Prod.mk.inj (Option.some.inj h)
    exact hcell
  · obtain ⟨_, _, hb⟩ := Option.map_eq_some_iff.mp h
    cases hb

/-- A variable is loaded from its slot or from those that the function took along. -/
theorem Loaded.loadVariable (h : L.Loaded A s vs p st m) (hs : A.Site Γ locals s)
    {storage : Storage} {i : Nat} (hres : Γ.resolve A.body.captured y = some (storage, i))
    (hstorage : storage = .frame ∨ storage = .free) : ∃ w : Value,
      (locals ++ A.captured).lookup y = some w.bare ∧ w.Only (L.Known st) ∧
      (execute x ⟨storage.load, i, 0⟩).run (m.fetched ⟨storage.load, i, 0⟩) =
        (m.fetched ⟨storage.load, i, 0⟩).pushed w := by
  obtain ⟨w, hlookup, hplace⟩ := hs.lookup hres hstorage
  refine ⟨w, hlookup, ?_⟩
  obtain ⟨ws, -, -, hstack⟩ := h.stack
  rcases hplace with ⟨rfl, hget⟩ | ⟨rfl, hget⟩
  · obtain ⟨hlt, -⟩ := Array.getElem?_eq_some_iff.mp hget
    have hbase : (m.fetched ⟨.getLocal, i, 0⟩).frame.base = A.below.size := by
      simp only [fetched, h.frame, hs.base]
    have hin : A.below.size + i < m.stack.size := by
      rw [hstack, Array.size_append]
      omega
    have hvalue : m.stack.getD (A.below.size + i) .undefined = w := by
      rw [Array.getD_eq_getD_getElem?, hstack, Array.getElem?_append_left hlt, hget]
      rfl
    refine ⟨h.slots _ w (hs.base ▸ Nat.le_add_right ..) hget, ?_⟩
    rw [Storage.load, execute_getLocal (by rw [hbase]; exact hin), hbase]
    exact congrArg (Machine.pushed _) hvalue
  · have hfree : (m.fetched ⟨.getFree, i, 0⟩).frame.free[i]? = some w := by
      simp only [fetched, h.frame]
      exact hget
    exact ⟨h.free w (List.mem_of_getElem? hget), execute_getFree hfree⟩

/-- The value of a name is loaded. -/
theorem Loaded.load (h : L.Loaded A s vs p st m) (hs : A.Site Γ locals s)
    (hload : L.loadAt A.body Γ pos y p q) :
    m.Agrees x L.Shares n (fun v => L.Loaded A s (vs ++ [v]) q)
      (((A.scope locals).read Γ y).run st) := by
  obtain ⟨storage, i, hres, -, hhas⟩ := hload
  have hvariable (hstorage : storage = .frame ∨ storage = .free) :
      m.Agrees x L.Shares n (fun v => L.Loaded A s (vs ++ [v]) q)
        (((A.scope locals).read Γ y).run st) := by
    obtain ⟨w, hlookup, hw, hexec⟩ := h.loadVariable (x := x) hs hres hstorage
    have hjump : storage.load.isJump = false := by rcases hstorage with rfl | rfl <;> rfl
    rw [Scope.read_variable hlookup]
    exact h.pushed hs.toRuns hhas hjump hexec hw
  cases storage with
  | frame => exact hvariable (.inl rfl)
  | free => exact hvariable (.inr rfl)
  | global =>
    obtain ⟨hnone, hout⟩ := hs.outer hres (.inl rfl)
    have hvalue : (st.globals.get? i).getD .undefined =
        ((m.globals.get? i).getD .undefined).bare := by
      rw [← h.reflects.globals, Globals.get?_bare]
      cases m.globals.get? i <;> rfl
    rw [Scope.read_global hnone (lookup_of_resolve hout), hvalue]
    refine h.pushed hs.toRuns hhas rfl execute_getGlobal ?_
    cases hcell : m.globals.get? i with
    | none => exact Value.only_undefined
    | some w => exact h.reflects.cells i w hcell
  | builtin =>
    obtain ⟨hnone, hout⟩ := hs.outer hres (.inr rfl)
    obtain ⟨hglobal, b, hb, hname⟩ := ofName?_of_resolve hout
    rw [Scope.read_builtin hnone hglobal hname]
    exact h.pushed (w := .builtin b) hs.toRuns hhas rfl (execute_getBuiltin hb)
      (Value.only_builtin b)

/-- The topmost value is stored in a slot. -/
theorem Loaded.setLocal (h : L.Loaded A s [v] p st m) (hs : A.Site Γ locals s) {i : Nat}
    (hi : i < A.body.locals) (hhas : A.body.Has (some pos) .setLocal i 0 p q) :
    ∃ (w : Value) (m' : Machine), w.bare = v ∧ m.advance x = .next m' ∧
      L.Loaded A (s.setIfInBounds (A.below.size + i) w) [] q st m' := by
  obtain ⟨z, rfl, hz, htop⟩ := h.top
  change (m.fetched ⟨.setLocal, i, 0⟩).stack = s.push z at htop
  have hbase : (m.fetched ⟨.setLocal, i, 0⟩).frame.base = A.below.size := by
    simp only [fetched, h.frame, hs.base]
  have hstep := h.advance (x := x) hs.toRuns hhas (fun _ => rfl)
  rw [execute_setLocal htop (by rw [hbase, hs.holds.size]; omega), hbase] at hstep
  have hdrop := h.drop hhas
  refine ⟨z, _, rfl, hstep, hdrop.frame, hdrop.callers, ⟨[], rfl, by simp, by simp⟩, ?_,
    hdrop.free, { hdrop.reflects with }, hdrop.grown⟩
  intro k v hk hv
  rw [Array.getElem?_setIfInBounds] at hv
  split at hv
  · split at hv
    · cases hv
      exact hz
    · cases hv
  · exact h.slots k v hk hv

/-- The topmost value is stored in a cell. -/
theorem Loaded.setGlobal (h : L.Loaded A s [v] p st m) (hA : A.Runs) {i : Nat}
    (hhas : A.body.Has (some pos) .setGlobal i 0 p q) : ∃ m', m.advance x = .next m' ∧
      L.Loaded A s [] q { st with globals := st.globals.set i v } m' := by
  obtain ⟨z, rfl, hz, htop⟩ := h.top
  change (m.fetched ⟨.setGlobal, i, 0⟩).stack = s.push z at htop
  have hstep := h.advance (x := x) hA hhas (fun _ => rfl)
  rw [execute_setGlobal htop] at hstep
  have hdrop := h.drop hhas
  refine ⟨_, hstep, hdrop.frame, hdrop.callers, ⟨[], rfl, by simp, by simp⟩, hdrop.slots,
    hdrop.free, ⟨⟨?_, fun j v hv => ?_, hdrop.reflects.made⟩, hdrop.reflects.budget⟩, hdrop.grown⟩
  · exact (Globals.set_bare _ _ _).symm.trans (congrArg (Globals.set · i z.bare) h.reflects.globals)
  · rw [Globals.get?_set] at hv
    split at hv
    · cases hv
      exact hz
    · exact h.reflects.cells j v hv

/-- A name that is in force already gets a value. -/
theorem Loaded.assign (h : L.Loaded A s [v] p st m) (hs : A.Site Γ locals s)
    (hfill : L.fillAt A.body Γ pos y p q) :
    m.Agrees x L.Shares n (L.Reached A Γ q) (((A.scope locals).assign Γ y v).run st) := by
  obtain ⟨i, ⟨hres, hi, hhas⟩ | ⟨hres, -, hhas⟩⟩ := hfill
  · have hslot := hs.frame hres
    obtain ⟨w, m', rfl, hstep, hm'⟩ := h.setLocal (x := x) hs hi hhas
    obtain ⟨u, hu, -⟩ := Locals.lookup_of_slotOf hslot
    rw [Scope.assign_variable hu]
    refine .step hstep (.here ⟨hs.toKnows.congr rfl ?_, _, hs.holds.assign hslot, hm'⟩)
    exact (Locals.assign_slot hslot).1.trans hs.vars
  · obtain ⟨hnone, hout⟩ := hs.outer hres (.inl rfl)
    obtain ⟨m', hstep, hm'⟩ := h.setGlobal (x := x) hs.toRuns hhas
    have hscope : ((A.scope locals).locals ++ (A.scope locals).captured).lookup y = none := hnone
    rw [Scope.assign_global (Scope.lookup_eq_none hscope).1 (lookup_of_resolve hout)]
    exact .step hstep (.here ⟨hs.toKnows, s, hs.holds, hm'⟩)

/-- A new name gets a value. -/
theorem Loaded.define (h : L.Loaded A s [v] p st m) (hs : A.Site Γ locals s)
    (hfill : L.fillAt A.body (Γ.define y) pos y p q) :
    m.Agrees x L.Shares n (L.Reached A (Γ.define y) q)
      (((A.scope locals).define Γ y v).run st) := by
  cases hf : Γ.functions with
  | nil =>
    rw [Scope.define_outside hf]
    have hown : (Γ.define y).resolve A.body.captured y = some (.global, Γ.cell) := by
      simp [Names.define_outside hf, Names.resolve, Names.outer, hf]
    obtain ⟨i, ⟨hres, -⟩ | ⟨hres, -, hhas⟩⟩ := hfill
    · rw [hown] at hres
      cases hres
    · obtain rfl : Γ.cell = i := by
        rw [hown] at hres
        exact (Prod.mk.inj (Option.some.inj hres)).2
      obtain ⟨m', hstep, hm'⟩ := h.setGlobal (x := x) hs.toRuns hhas
      refine .step hstep (.here ⟨hs.toKnows.congr (Names.around?_define ..) ?_, s, hs.holds, hm'⟩)
      rw [Names.define_outside hf]
      exact hs.vars
  | cons vars around =>
    rw [Scope.define_inside (by simp [hf])]
    have hlength : locals.length = vars.length := by
      rw [← List.length_map (f := Prod.fst), hs.vars, Names.vars, hf, List.headD_cons]
    have hown : (Γ.define y).resolve A.body.captured y = some (.frame, locals.length) := by
      simp [Names.define_inside hf, Names.resolve, Names.own, slotOf, hlength]
    obtain ⟨i, ⟨hres, hi, hhas⟩ | ⟨hres, -⟩⟩ := hfill
    · obtain rfl : locals.length = i := by
        rw [hown] at hres
        exact (Prod.mk.inj (Option.some.inj hres)).2
      obtain ⟨w, m', rfl, hstep, hm'⟩ := h.setLocal (x := x) hs hi hhas
      refine .step hstep
        (.here ⟨hs.toKnows.congr (Names.around?_define ..) ?_, _, hs.holds.define hi, hm'⟩)
      have hvars := hs.vars
      rw [Names.vars, hf, List.headD_cons] at hvars
      rw [Names.define_inside hf]
      exact congrArg (y :: ·) hvars
    · rw [hown] at hres
      cases hres

end ScriptEngine.Image
