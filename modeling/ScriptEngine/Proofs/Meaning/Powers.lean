import ScriptEngine.Proofs.Meaning.Statements
/-! Calls and imports: the callee's code runs in a frame of its own and leaves its value. -/
namespace ScriptEngine.Image

open Machine Exec

variable {L : Image} {W : World} {P : Powers} {x : Setting} {m m₁ : Machine} {n : Nat} {st : Store}

/-- The activation that a call starts. -/
def entering (R : Body) (captured : List (String × Value)) (free : List Value) (s : Array Value)
    (callee : Value) (m : Machine) (st : Store) : Activation where
  body := R
  captured := captured
  frame := ⟨R.routine, free, 0, s.size + 1⟩
  callers := m.callers.push m.frame
  below := s.push callee
  start := st

section Calls

variable {R : Body} {captured : List (String × Value)} {free zs : List Value} {s : Array Value}
  {callee : Value} {locals : Locals} {Γ : Names} {body : List Stmt} {k : Nat}

/-- The run is at the start of a body that has been entered. -/
theorem entered_reached (hreadable : R.Readable) (hcaptured : Captures R.captured captured free)
    (hfree : ∀ v ∈ free, v.Only (L.Known st)) (hzs : ∀ z ∈ zs, z.Only (L.Known st))
    (hm : L.Reflects st m) (hstack : m.stack = s.push callee ++ zs.toArray)
    (hparams : R.params = zs.length) (hsmall : R.Small)
    (hvars : locals.map Prod.fst = Γ.vars)
    (hvalues : locals.reverse.map Prod.snd = zs.map Value.bare)
    (haround : ∀ e ∈ captured, e.1 ∈ (Γ.around?.getD []).flatten) :
    let A := entering R captured free s callee m st
    A.Runs ∧ L.Reached A Γ 0 locals st { m with
      stack := m.stack ++ Array.replicate (R.routine.locals - zs.length) .undefined
      frame := A.frame
      callers := A.callers } := by
  intro A
  have harguments := hsmall.arguments
  refine ⟨⟨rfl, hreadable, by simp [A, entering], hcaptured⟩, ⟨hvars, haround, fun _ => by
    simp [A, entering]⟩, _, ⟨zs ++ List.replicate (R.locals - zs.length) .undefined, rfl, ?_, ?_⟩,
    rfl, rfl, ⟨[], rfl, by simp, ?_⟩, fun i v hi hv => ?_, hfree,
    ⟨⟨hm.globals, hm.cells, hm.made⟩, hm.budget⟩, fun v hv => hv⟩
  · simp only [List.length_append, List.length_replicate, A, entering]
    omega
  · rw [List.map_append, hvalues]
    exact List.prefix_append ..
  · refine Array.toList_inj.mp ?_
    simp [hstack, A, entering, Body.routine, Code.toRoutine]
  · rw [Array.getElem?_append_right (by simpa [A, entering] using hi)] at hv
    have hmem := Array.mem_of_getElem? hv
    rcases List.mem_append.mp (List.mem_toArray.mp hmem) with hz | hz
    · exact hzs v hz
    · rw [(List.mem_replicate.mp hz).2]
      exact Value.only_undefined

/-- The machine follows a body that it enters. -/
theorem entered_follows (hL : L.Suits W x) (hP : L.Follows x P n) (hreadable : R.Readable)
    (hcaptured : Captures R.captured captured free) (hfree : ∀ v ∈ free, v.Only (L.Known st))
    (hzs : ∀ z ∈ zs, z.Only (L.Known st)) (hm : L.Reflects st m)
    (hstack : m.stack = s.push callee ++ zs.toArray) (hparams : R.params = zs.length)
    (hsmall : R.Small) (hvars : locals.map Prod.fst = Γ.vars)
    (hvalues : locals.reverse.map Prod.snd = zs.map Value.bare)
    (haround : ∀ e ∈ captured, e.1 ∈ (Γ.around?.getD []).flatten)
    (hparsed : Stmt.AllEvery Expr.Distinct Stmt.Plain body)
    (hbody : L.stmtsAt R none Γ body 0 k)
    (hend : k = R.code.size ∨ ∃ pos, R.Has pos .ret 0 0 k R.code.size)
    (hstep : m₁.advance x = .of (m.entered s.size zs.length R.routine free)) :
    m₁.Agrees x L.Shares (n + 1) (L.Returned s m.frame m.callers st)
      ((do return (← Stmt.execAll W P ⟨R.unit, captured, locals⟩ Γ body).1.value :
        Eval Value).run st) := by
  obtain ⟨hA, hreached⟩ := entered_reached hreadable hcaptured hfree hzs hm hstack hparams hsmall
    hvars hvalues haround
  have hover {A : Activation} {v : Value} {st' : Store} {m' : Machine}
      (hA : A = entering R captured free s callee m st) (h : L.Over A v st' m') :
      L.Returned s m.frame m.callers st v st' m' := by
    subst hA
    simpa [entering] using h.2
  unfold Machine.entered at hstep
  split at hstep
  · rename_i hne
    exact absurd hparams hne
  · split at hstep
    · exact .overflow hstep
    · split at hstep
      · exact .overflow hstep
      · -- Entering is a step, so what the call may take is one level and one step more.
        refine .step_succ hstep ?_
        refine (Stmt.followsAll hL hP hA body hparsed hbody hreached).bind
          fun ⟨c, inner⟩ st' m' h' => ?_
        rcases h'.of_no_loop with ⟨rfl, s', hholds, hm'⟩ | ⟨v, rfl, hthere⟩
        · have hs : (entering R captured free s callee m st).Site _ inner s' :=
            ⟨hA, h'.knows rfl, hholds⟩
          have hcalled : (entering R captured free s callee m st).callers ≠ #[] := by
            simp [entering]
          rcases hend with rfl | ⟨pos, hhas⟩
          · exact (hm'.retEnd hs hcalled rfl).next fun m'' hm'' => .here (hover rfl hm'')
          · exact (hm'.retUndefined hs hcalled hhas).next fun m'' hm'' => .here (hover rfl hm'')
        · exact .here (hover rfl hthere)

end Calls

/-- How a body may end. -/
theorem end_of_body {R : Body} {k : Nat} {pos : Option Pos} {c : Prop} [Decidable c]
    (h : if c then k = R.code.size else R.Has pos .ret 0 0 k R.code.size) :
    k = R.code.size ∨ ∃ pos, R.Has pos .ret 0 0 k R.code.size := by
  split at h
  · exact .inl h
  · exact .inr ⟨pos, h⟩

/-- The machine follows calls and imports one level deeper. -/
theorem call_follows (hL : L.Suits W x) (hP : L.Follows x (W.powers n) n) {l : Lambda} {r : Routine}
    {free zs : List Value} {s : Array Value} {callee : Value} (hl : l.Compiled L r free)
    (hfree : ∀ v ∈ free, v.Only (L.Known st)) (hzs : ∀ z ∈ zs, z.Only (L.Known st))
    (hm : L.Reflects st m) (hstack : m.stack = s.push callee ++ zs.toArray)
    (hstep : m₁.advance x = .of (m.entered s.size zs.length r free)) :
    m₁.Agrees x L.Shares (n + 1) (L.Returned s m.frame m.callers st)
      (((W.powers (n + 1)).call l (zs.map Value.bare)).run st) := by
  obtain ⟨R, rfl, hlaid, hcaptured⟩ := hl
  simp only [World.powers, List.length_map]
  by_cases hargs : l.params.length = zs.length
  · rw [if_pos hargs]
    obtain ⟨Γ, hnames, hknown⟩ := hlaid.names
    obtain ⟨pos, hcode⟩ := hlaid.code
    have hparsed := hlaid.parsed
    have hvars : (l.params.zip (zs.map Value.bare)).reverse.map Prod.fst = l.params.reverse := by
      rw [List.map_reverse, List.map_fst_zip (by simp [hargs])]
    have hvalues : (l.params.zip (zs.map Value.bare)).reverse.reverse.map Prod.snd =
        zs.map Value.bare := by
      rw [List.reverse_reverse, List.map_snd_zip (by simp [hargs])]
    rw [hnames] at hcode ⊢
    cases hbody : l.body with
    | mk blockPos stmts =>
      rw [hbody] at hcode hparsed
      obtain ⟨k, hstmts, hend⟩ := hcode
      rw [← hlaid.unit]
      exact entered_follows hL hP hlaid.readable hcaptured hfree hzs hm hstack
        (hlaid.params.trans hargs) hlaid.small hvars hvalues hknown hparsed hstmts
        (end_of_body hend) hstep
  · rw [if_neg hargs]
    have hparams : R.routine.params = l.params.length := hlaid.params
    rw [Machine.entered, hparams, if_pos hargs] at hstep
    exact .halt hstep hm.toShares

theorem load_follows (hL : L.Suits W x) (hP : L.Follows x (W.powers n) n) {key : String}
    {id : FunctionId} {r : Routine} {k : Nat} {s : Array Value} {callee : Value}
    (hmodule : L.ModuleAt key (.function id r)) (hpool : L.pool[k]? = some (.function id r))
    (hm : L.Reflects st m) (hstack : m.stack = s.push callee)
    (hstep : m₁.advance x = .of (m.entered s.size 0 r [])) :
    m₁.Agrees x L.Shares (n + 1) (L.Returned s m.frame m.callers st)
      (((W.powers (n + 1)).load key).run st) := by
  obtain ⟨-, -, body, R, hparse, hf, -, hunit, hparams, hcaptured, hsmall, hbody⟩ := hmodule
  obtain ⟨rfl, rfl⟩ := Value.function.inj hf
  have hreadable := hL.readable R _ k hpool ⟨hsmall, .inr ⟨body, hbody⟩⟩
  obtain ⟨k, hstmts, hend⟩ := hbody
  have hnone : Captures R.captured [] [] := by
    rw [hcaptured]
    exact .nil
  have hstack' : m.stack = s.push callee ++ ([] : List Value).toArray := by simpa using hstack
  have hvars : ([] : Locals).map Prod.fst = Names.forModule.vars := rfl
  simp only [World.powers, hL.source, hparse]
  rw [← hunit]
  exact entered_follows hL hP hreadable hnone (by simp) (by simp) hm hstack' hparams hsmall hvars
    rfl (by simp) (parse_parsed hparse) hstmts (end_of_body hend) hstep

/-- The machine follows all calls and imports. -/
theorem powers_follow (hL : L.Suits W x) (fuel : Nat) : L.Follows x (W.powers fuel) fuel := by
  induction fuel with
  | zero => exact ⟨fun _ _ _ _ _ _ => .inr rfl, fun _ _ _ _ _ => .inr rfl, Nat.le_refl 0⟩
  | succ fuel ih =>
    exact ⟨fun hl hfree hzs hm hstack hstep => call_follows hL ih hl hfree hzs hm hstack hstep,
      fun hmodule hpool hm hstack hstep => load_follows hL ih hmodule hpool hm hstack hstep,
      Nat.le_refl _⟩

end ScriptEngine.Image
