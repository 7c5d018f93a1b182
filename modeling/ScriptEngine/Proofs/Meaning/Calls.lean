import ScriptEngine.Proofs.Meaning.Literals
/-! Constants, calls and imports. -/
namespace ScriptEngine

namespace Image

open Machine Exec

/-- The machine follows the calls and imports of an evaluation, and takes `n` steps at least for
those that come to no end. -/
structure Follows (L : Image) (x : Setting) (P : Powers) (n : Nat) : Prop where
  call : ∀ {l : Lambda} {r : Routine} {free zs : List Value} {s : Array Value} {callee : Value}
    {st : Store} {m m₁ : Machine}, l.Compiled L r free → (∀ v ∈ free, v.Only (L.Known st)) →
    (∀ z ∈ zs, z.Only (L.Known st)) → L.Reflects st m → m.stack = s.push callee ++ zs.toArray →
    m₁.advance x = .of (m.entered s.size zs.length r free) →
    m₁.Agrees x L.Shares n (L.Returned s m.frame m.callers st)
      ((P.call l (zs.map Value.bare)).run st)
  load : ∀ {key : String} {id : FunctionId} {r : Routine} {k : Nat} {s : Array Value}
    {callee : Value} {st : Store} {m m₁ : Machine}, L.ModuleAt key (.function id r) →
    L.pool[k]? = some (.function id r) → L.Reflects st m → m.stack = s.push callee →
    m₁.advance x = .of (m.entered s.size 0 r []) →
    m₁.Agrees x L.Shares n (L.Returned s m.frame m.callers st) ((P.load key).run st)
  rounds : n ≤ P.rounds

variable {L : Image} {W : World} {P : Powers} {x : Setting} {A : Activation}
  {s : Array Value} {m m' : Machine} {vs args : List Value} {p q n : Nat} {st : Store} {pos : Pos}
  {v w f : Value} {i : Instruction}

theorem Loaded.constant (hL : L.Suits W x) (h : L.Loaded A s vs p st m) (hA : A.Runs)
    (hv : v.Plain) (hat : L.constantAt A.body pos v p q) :
    m.Agrees x L.Shares n (fun v => L.Loaded A s (vs ++ [v]) q) (.ok v st) := by
  obtain ⟨k, -, hpool, hhas⟩ := hat
  have hpushed := h.pushed (x := x) (n := n) (w := v) hA hhas rfl
    (execute_constant (by rw [hL.pool]; exact hpool)) hv.only
  rwa [hv.bare] at hpushed

theorem Loaded.literal {l : Literal} (hL : L.Suits W x) (h : L.Loaded A s vs p st m) (hA : A.Runs)
    (hat : L.literalAt A.body pos l p q) :
    m.Agrees x L.Shares n (fun v => L.Loaded A s (vs ++ [v]) q) (.ok l.value st) := by
  cases l with
  | undefined => exact h.pushed (w := .undefined) hA hat rfl execute_undefined Value.only_undefined
  | bool b =>
    cases b with
    | false => exact h.pushed (w := .bool false) hA hat rfl execute_pushFalse (Value.only_bool _)
    | true => exact h.pushed (w := .bool true) hA hat rfl execute_pushTrue (Value.only_bool _)
  | int k => exact h.constant hL hA rfl hat
  | float a => exact h.constant hL hA rfl hat
  | char c => exact h.constant hL hA rfl hat
  | string text => exact h.constant hL hA rfl hat

/-- A callee has put its value in the place of its arguments and itself. -/
theorem Loaded.returned {ws : List Value} {op : Opcode} {a b : Nat}
    (h : L.Loaded A s vs p st m) (hws : ∀ w ∈ ws, w.Only (L.Known st))
    (hhas : A.body.Has (some pos) op a b p q) {st' : Store}
    (hm' : L.Returned (s ++ ws.toArray) (m.fetched ⟨op, a, b⟩).frame
      (m.fetched ⟨op, a, b⟩).callers st v st' m') :
    L.Loaded A s (ws.map Value.bare ++ [v]) q st' m' where
  frame := by
    rw [hm'.frame]
    simp only [fetched, h.frame, hhas.2, Instruction.size]
  callers := hm'.callers.trans h.callers
  stack := by
    obtain ⟨w, rfl, hw, hstack⟩ := hm'.stack
    refine ⟨ws ++ [w], by simp, fun u hu => ?_, by simp [hstack]⟩
    rcases List.mem_append.mp hu with hu | hu
    · exact (hws u hu).mono hm'.grown
    · exact List.mem_singleton.mp hu ▸ hw
  slots k v hk hv := (h.slots k v hk hv).mono hm'.grown
  free v hv := (h.free v hv).mono hm'.grown
  reflects := hm'.reflects
  grown v hv := hm'.grown v (h.grown v hv)

/-- A builtin or a function of the host answers. -/
theorem Loaded.answered {ws : List Value} {op : Opcode} {a b : Nat} {e : Except CallError Value}
    (callee : Value) (h : L.Loaded A s vs p st m)
    (hws : ∀ w ∈ ws, w.Only (L.Known st)) (hhas : A.body.Has (some pos) op a b p q)
    (hstep : m.advance x = .of (match e with
      | .ok v => { m.fetched ⟨op, a, b⟩ with stack := s ++ ws.toArray }.paid v
      | .error t => .error (.trap (.call t))
        { m.fetched ⟨op, a, b⟩ with stack := (s ++ ws.toArray).push callee }))
    (honly : ∀ v, e = .ok v → v.Only (L.Known st)) :
    m.Agrees x L.Shares n (fun v => L.Loaded A s (ws.map Value.bare ++ [v]) q)
      ((Eval.answer (e.map Value.bare)).run st) := by
  have htake := h.take hhas hws
  cases e with
  | ok v =>
    have hbudget : (m.fetched ⟨op, a, b⟩).budget = none := h.reflects.budget
    simp only [paid_free hbudget, Machine.looked] at hstep
    exact .pushed hstep (.here (htake.push (honly v rfl)))
  | error t => exact .halt hstep { h.reflects with }

/-- A function that the store knows is its text, called. -/
theorem apply_function {id : FunctionId} {r : Routine} {l : Lambda} {vs : List Value}
    (h : st.functions id = some l) :
    ((Value.function id r).apply W P vs).run st = (P.call l vs).run st := by
  simp only [Value.apply, EStateM.run_bind, EStateM.run_get, h]

theorem apply_closure {id : FunctionId} {r : Routine} {free : List Value} {l : Lambda}
    {vs : List Value} (h : st.closures id = some l) :
    ((Value.closure id r free).apply W P vs).run st = (P.call l vs).run st := by
  simp only [Value.apply, EStateM.run_bind, EStateM.run_get, h]

/-- A value is called. -/
theorem Loaded.call (hL : L.Suits W x) (hP : L.Follows x P n)
    (h : L.Loaded A s (vs ++ f :: args) p st m) (hA : A.Runs)
    (hhas : A.body.Has (some pos) .call args.length 0 p q) :
    m.Agrees x L.Shares n (fun v => L.Loaded A s (vs ++ [v]) q) ((f.apply W P args).run st) := by
  obtain ⟨ws, all, rfl, hall, hstack, hws, honly⟩ := h.split
  obtain ⟨callee, zs, rfl, rfl, rfl⟩ := List.map_eq_cons_iff.mp hall
  have htop : (m.fetched ⟨.call, (zs.map Value.bare).length, 0⟩).stack =
      (s ++ ws.toArray).push callee ++ zs.toArray :=
    Array.toList_inj.mp (by simp [fetched, hstack])
  have hstep := h.advance (x := x) hA hhas (by rintro ⟨⟩)
  rw [execute_call htop (by simp)] at hstep
  have hcallee : callee.Only (L.Known st) := honly callee (by simp)
  have hargs (u : Value) (hu : u ∈ zs) : u.Only (L.Known st) := honly u (by simp [hu])
  have hreflects : L.Reflects st (m.fetched ⟨.call, (zs.map Value.bare).length, 0⟩) :=
    { h.reflects with }
  cases callee with
  | function id r =>
    obtain ⟨-, l, hl, hcompiled⟩ := Value.only_function.mp hcallee
    have hcall := hP.call hcompiled (by simp) hargs hreflects htop hstep
    change m.Agrees x L.Shares n _ (((Value.function id default).apply W P _).run st)
    rw [apply_function hl]
    exact hcall.mono fun v st' m' hm' => h.returned hws hhas hm'
  | closure id r free =>
    obtain ⟨⟨-, l, hl, hcompiled⟩, hfree⟩ := Value.only_closure.mp hcallee
    have hcall := hP.call hcompiled hfree hargs hreflects htop hstep
    change m.Agrees x L.Shares n _ (((Value.closure id default []).apply W P _).run st)
    rw [apply_closure hl]
    exact hcall.mono fun v st' m' hm' => h.returned hws hhas hm'
  | builtin b =>
    have hbuiltin : b.call (zs.map Value.bare) = (b.call zs).map Value.bare := Value.disguises_bare.call_eq b zs
    change m.Agrees x L.Shares n _ ((Eval.answer (b.call (zs.map Value.bare))).run st)
    rw [hbuiltin]
    refine h.answered (.builtin b) hws hhas (hstep.trans ?_)
      fun v hv => Builtin.only_call hv hargs
    cases hb : b.call zs with
    | ok v => simp only [called, hb]
    | error t => simp only [called, hb]
  | native id name =>
    change m.Agrees x L.Shares n _ ((Eval.answer (W.host id name (zs.map Value.bare))).run st)
    obtain ⟨e, hanswer, hhost⟩ := hL.host id name zs
    rw [hanswer]
    refine h.answered (.native id name) hws hhas (hstep.trans ?_) fun v hv => ?_
    · cases e with
      | ok v => simp only [called, hhost]
      | error t => simp only [called, hhost]
    · rw [hv] at hhost
      exact hL.lends.only hhost hargs
  | _ => exact .halt hstep { h.reflects with }

theorem plain_module {name : String} {attrs : List (String × Value)}
    (h : ∀ e ∈ attrs, e.2.Plain) : (Value.module name attrs).Plain := by
  refine List.eq_nil_iff_forall_not_mem.mpr fun f hf => ?_
  obtain ⟨e, he, hmem⟩ := Value.mem_functionsIn.mp hf
  rw [h e he] at hmem
  cases hmem

/-- The function of a module is called. -/
theorem Loaded.loaded {key : String} {k : Nat} (hL : L.Suits W x) (hP : L.Follows x P n)
    (h : L.Loaded A s vs p st m) (hA : A.Runs) (hmodule : L.modules key = some f)
    (hconstant : L.constantAt A.body pos f p k) (hcall : A.body.Has (some pos) .call 0 0 k q) :
    m.Agrees x L.Shares n (fun v => L.Loaded A s (vs ++ [v]) q) ((P.load key).run st) := by
  have hf := hL.modules key f hmodule
  obtain ⟨-, -, _, R, -, rfl, -⟩ := id hf
  obtain ⟨i, -, hpool, hhas⟩ := hconstant
  obtain ⟨ws, rfl, hws, hstack⟩ := h.stack
  have hstep := h.advance (x := x) hA hhas (fun hj => nomatch hj)
  rw [execute_constant (by rw [hL.pool]; exact hpool)] at hstep
  refine .pushed hstep ?_
  -- The callee is no value of the program, so the machine is told by hand until it is called.
  let callee : Value := .function (L.ids (some key) 0) R.routine
  let m' : Machine := { m.fetched ⟨.constant, i, 0⟩ with stack := m.stack.push callee }
  have hm' : L.Loaded A s (ws.map Value.bare) k st
      { m' with stack := s ++ ws.toArray } := h.take hhas hws
  have hadvance : m'.advance x = .of ((execute x ⟨.call, 0, 0⟩).run (m'.fetched ⟨.call, 0, 0⟩)) :=
    advance_has hA hm'.frame hcall fun hj => nomatch hj
  have htop : (m'.fetched ⟨.call, 0, 0⟩).stack = (s ++ ws.toArray).push callee ++ #[] := by
    simp [m', fetched, hstack]
  rw [execute_call (a := 0) htop rfl] at hadvance
  have hreflects : L.Reflects st (m'.fetched ⟨.call, 0, 0⟩) := { h.reflects with }
  have hload := hP.load hf hpool hreflects (by simpa using htop) hadvance
  exact hload.mono fun v st' m'' hm'' => hm'.returned hws hcall hm''

/-- A module is imported. -/
theorem Loaded.imported {name : String} (hL : L.Suits W x) (hP : L.Follows x P n)
    (h : L.Loaded A s vs p st m) (hA : A.Runs) (hat : L.importAt A.body pos name p q) :
    m.Agrees x L.Shares n (fun v => L.Loaded A s (vs ++ [v]) q)
      ((W.load P A.body.unit name).run st) := by
  unfold importAt at hat
  unfold World.load
  rw [hL.imports, hL.attrs, hL.directory]
  match hentry : L.options.registry[name]? with
  | some (.attrs entries) =>
    rw [hentry] at hat
    exact h.constant hL hA (plain_module (hL.data name)) hat
  | some (.script text) =>
    rw [hentry] at hat
    obtain ⟨f, k, hmodule, hconstant, hcall⟩ := hat
    exact h.loaded hL hP hA hmodule hconstant hcall
  | none =>
    rw [hentry] at hat
    obtain ⟨hfiles, key, f, k, hpath, hmodule, hconstant, hcall⟩ := hat
    simp only [hfiles, if_true, hpath]
    exact h.loaded hL hP hA hmodule hconstant hcall

end Image

end ScriptEngine
