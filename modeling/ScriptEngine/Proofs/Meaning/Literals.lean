import ScriptEngine.Proofs.Meaning.Access
/-! The code of function literals. -/
namespace ScriptEngine.Image

open Machine Exec

variable {L : Image} {W : World} {x : Setting} {A : Activation} {Γ : Names} {locals : Locals}
  {s : Array Value} {m : Machine} {vs : List Value} {p q n : Nat} {st st' : Store} {pos : Pos}
  {v w : Value} {r : Routine} {l : Lambda}

/-- More functions are known. -/
theorem Loaded.grow (h : L.Loaded A s vs p st m) (hgrows : L.Grows st st')
    (hglobals : st'.globals = st.globals) :
    L.Loaded A s vs p st' { m with made := st'.made } where
  frame := h.frame
  callers := h.callers
  stack := by
    obtain ⟨ws, hvs, honly, hstack⟩ := h.stack
    exact ⟨ws, hvs, fun w hw => (honly w hw).mono hgrows, hstack⟩
  slots k v hk hv := (h.slots k v hk hv).mono hgrows
  free v hv := (h.free v hv).mono hgrows
  reflects := {
    globals := h.reflects.globals.trans hglobals.symm
    cells := fun i v hv => (h.reflects.cells i v hv).mono hgrows
    made := rfl
    budget := h.reflects.budget }
  grown v hv := hgrows v (h.grown v hv)

/-- A literal without captured values is the same object whenever it is reached. -/
theorem known_function (hL : L.Suits W x) (st : Store) {u : Option String} {k : Nat}
    (hroutine : L.routines u k = some r) (hl : l.Compiled L r []) :
    let st' := { st with functions := Function.update st.functions (L.ids u k) (some l) }
    L.Known st' (.function (L.ids u k) r) ∧ L.Grows st st' := by
  refine ⟨⟨⟨u, k, rfl, hroutine⟩, l, Function.update_self .., hl⟩, fun v hv => ?_⟩
  cases v with
  | function id r' =>
    obtain ⟨⟨u', k', rfl, hr'⟩, l', hl', hcompiled⟩ := hv
    refine ⟨⟨u', k', rfl, hr'⟩, ?_⟩
    -- The object of another literal is another one, so its function stays.
    by_cases hid : L.ids u' k' = L.ids u k
    · obtain ⟨rfl, rfl⟩ := hL.distinct _ _ _ _ (by rw [hr']; rfl) (by rw [hroutine]; rfl) hid
      obtain rfl : r = r' := Option.some.inj (hroutine.symm.trans hr')
      exact ⟨l, Function.update_self .., hl⟩
    · exact ⟨l', (Function.update_of_ne hid ..).trans hl', hcompiled⟩
  | closure id r' free => exact hv
  | _ => trivial

/-- A literal with captured values is a new object. -/
theorem known_closure {id : FunctionId} {free : List Value} (hid : id.serial = st.made)
    (hl : l.Compiled L r free) :
    let st' := { st with
      made := st.made + 1, closures := Function.update st.closures id (some l) }
    L.Known st' (.closure id r free) ∧ L.Grows st st' := by
  refine ⟨⟨hid ▸ Nat.lt_succ_self _, l, Function.update_self .., hl⟩, fun v hv => ?_⟩
  cases v with
  | closure id' r' free' =>
    obtain ⟨hlt, l', hl', hcompiled⟩ := hv
    have hne : id' ≠ id := fun he => Nat.lt_irrefl _ (hid ▸ he ▸ hlt)
    exact ⟨Nat.lt_succ_of_lt hlt, l', (Function.update_of_ne hne ..).trans hl', hcompiled⟩
  | function id' r' => exact hv
  | _ => trivial

/-- A name that is a variable is loaded as one. -/
theorem storage_of_variable {y : String} {storage : Storage} {captured : List String} {i : Nat}
    (hy : Γ.IsVariable y) (hres : Γ.resolve captured y = some (storage, i)) :
    storage = .frame ∨ storage = .free := by
  cases storage with
  | frame => exact .inl rfl
  | free => exact .inr rfl
  | global => exact absurd hy (Layout.outer_of_resolve hres (.inl rfl)).1
  | builtin => exact absurd hy (Layout.outer_of_resolve hres (.inr rfl)).1

/-- The values of variables that code loads. -/
theorem loadsAt.values {names : List String} (hs : A.Site Γ locals s)
    (hvariables : ∀ y ∈ names, Γ.IsVariable y) (hloads : L.loadsAt A.body Γ pos names p q) :
    ∃ us : List Value,
      List.Forall₂ (fun y u => (locals ++ A.captured).lookup y = some u) names us := by
  induction names generalizing p with
  | nil => exact ⟨[], .nil⟩
  | cons y rest ih =>
    obtain ⟨k, ⟨storage, i, hres, -, -⟩, hrest⟩ := hloads
    obtain ⟨w, hlookup, -⟩ :=
      hs.lookup hres (storage_of_variable (hvariables y List.mem_cons_self) hres)
    obtain ⟨us, hus⟩ := ih (fun z hz => hvariables z (List.mem_cons_of_mem _ hz)) hrest
    exact ⟨w.bare :: us, .cons hlookup hus⟩

/-- Captured variables are loaded one after the other. -/
theorem Loaded.loads {names : List String} {us : List Value} (h : L.Loaded A s vs p st m)
    (hs : A.Site Γ locals s) (hvariables : ∀ y ∈ names, Γ.IsVariable y)
    (hloads : L.loadsAt A.body Γ pos names p q)
    (hus : List.Forall₂ (fun y u => (locals ++ A.captured).lookup y = some u) names us) :
    m.Agrees x L.Shares n (fun us => L.Loaded A s (vs ++ us) q) (.ok us st) := by
  induction hus generalizing vs p m with
  | nil =>
    obtain rfl : p = q := hloads
    exact .here (by rwa [List.append_nil])
  | @cons y u rest us hy _ ih =>
    obtain ⟨k, ⟨storage, i, hres, -, hhas⟩, hrest⟩ := hloads
    have hstorage := storage_of_variable (hvariables y List.mem_cons_self) hres
    obtain ⟨w, hlookup, hw, hexec⟩ := h.loadVariable (x := x) hs hres hstorage
    obtain rfl : w.bare = u := Option.some.inj (hlookup.symm.trans hy)
    have hjump : storage.load.isJump = false := by rcases hstorage with rfl | rfl <;> rfl
    refine (h.pushed hs.toRuns hhas hjump hexec hw).next fun m' hm' => ?_
    refine (ih hm' (fun z hz => hvariables z (List.mem_cons_of_mem _ hz)) hrest).next
      fun m'' hm'' => .here ?_
    rwa [List.append_assoc] at hm''

theorem closed_free {maker : Nat} {free : List Value} (h : m.budget = none) :
    m.closed maker r free =
      { m with made := m.made + 1 }.pushed (.closure ⟨maker, m.made⟩ r free) := by
  simp only [closed, h]

/-- A closure is made over the topmost values. -/
theorem Loaded.close {us : List Value} {k count : Nat} {id : FunctionId} (hL : L.Suits W x)
    (h : L.Loaded A s (vs ++ us) p st m) (hA : A.Runs) (hpool : L.pool[k]? = some (.function id r))
    (hcount : us.length = count) (hhas : A.body.Has (some pos) .closure k count p q)
    (hl : ∀ free : List Value, free.map Value.bare = us → l.Compiled L r free) :
    m.Agrees x L.Shares n (fun v => L.Loaded A s (vs ++ [v]) q)
      (.ok (.closure ⟨W.maker, st.made⟩ default []) { st with
        made := st.made + 1
        closures := Function.update st.closures ⟨W.maker, st.made⟩ (some l) }) := by
  obtain ⟨ws, zs, rfl, rfl, hstack, hws, honly⟩ := h.split
  have hstep := h.advance (x := x) hA hhas (fun hj => nomatch hj)
  rw [execute_closure (by rw [hL.pool]; exact hpool)
    (show (m.fetched ⟨.closure, k, count⟩).stack = _ from hstack)
    (by simpa using hcount)] at hstep
  have hbudget : ({ m.fetched ⟨.closure, k, count⟩ with stack := s ++ ws.toArray }).budget =
    none := h.reflects.budget
  have hmade : ({ m.fetched ⟨.closure, k, count⟩ with stack := s ++ ws.toArray }).made = st.made :=
    h.reflects.made
  rw [closed_free hbudget, hmade, hL.maker] at hstep
  have hserial : (FunctionId.mk W.maker st.made).serial = st.made := rfl
  obtain ⟨hnew, hold⟩ := known_closure hserial (hl zs rfl)
  refine .pushed hstep (.here ?_)
  exact ((h.take hhas hws).grow hold rfl).push (w := .closure ⟨W.maker, st.made⟩ r zs)
    (Value.only_closure.mpr ⟨hnew, fun z hz => (honly z hz).mono hold⟩)

/-- A literal makes a closure if its body looks up variables of the functions around it. -/
theorem closes_iff {params : List String} {body : Block} {captured : List String}
    (h : ∀ y, y ∈ captured ↔ Γ.Captures params body y) :
    Γ.closes params body = true ↔ captured ≠ [] := by
  rw [Names.closes, List.any_eq_true]
  constructor
  · rintro ⟨y, -, hy⟩
    exact List.ne_nil_of_mem ((h y).mpr (of_decide_eq_true hy))
  · intro hne
    obtain ⟨y, hy⟩ := List.exists_mem_of_ne_nil _ hne
    exact ⟨y, ((h y).mp hy).1, decide_eq_true ((h y).mp hy)⟩

/-- The value of a function literal is made. -/
theorem Loaded.function {params : List String} {body : Block} (hL : L.Suits W x)
    (h : L.Loaded A s vs p st m) (hs : A.Site Γ locals s) (hparsed : body.Parsed)
    (hat : L.exprAt A.body Γ (.func pos params body) p q) :
    m.Agrees x L.Shares n (fun v => L.Loaded A s (vs ++ [v]) q)
      (((A.scope locals).function W Γ params body).run st) := by
  simp only [exprAt] at hat
  obtain ⟨k, R, -, hpool, hroutine, hunit, hparams, hsmall, hcaptured, hbody, hfunction⟩ := hat
  have hreadable := hL.readable R _ k hpool ⟨hsmall, .inl ⟨_, _, _, hbody⟩⟩
  have hlaid (captured : List (String × Value))
      (hknown : ∀ e ∈ captured, e.1 ∈ Γ.functions.flatten) :
      (Lambda.mk A.body.unit (Γ.function params) params body captured).LaidOut L R :=
    ⟨hunit, hparams, ⟨pos, hbody⟩, ⟨Γ, rfl, hknown⟩, hparsed, hsmall, hreadable⟩
  unfold Scope.function
  have hcloses := closes_iff hcaptured
  cases hnames : R.captured with
  | nil =>
    -- The constant in the pool is the value; nothing is made but the function is known from now on.
    rw [hnames] at hcloses hfunction
    have hcompiled : (Lambda.mk A.body.unit (Γ.function params) params body []).Compiled L
        R.routine [] := ⟨R, rfl, hlaid [] (by simp), by rw [hnames]; exact .nil⟩
    obtain ⟨hnew, hold⟩ := known_function hL st hroutine hcompiled
    rw [if_neg (by simpa using hcloses)]
    simp only [functionAt] at hfunction
    have hgrown := h.grow hold rfl
    rw [show ({ m with made := st.made } : Machine) = m by rw [← h.reflects.made]] at hgrown
    rw [← hL.ids] at hgrown hnew hpool
    exact hgrown.pushed (w := .function (W.ids A.body.unit Γ.literal) R.routine) hs.toRuns hfunction
      rfl (execute_constant (by rw [hL.pool]; exact hpool)) (Value.only_function.mpr hnew)
  | cons y rest =>
    rw [hnames] at hcloses hfunction
    rw [if_pos (hcloses.mpr (List.cons_ne_nil _ _))]
    obtain ⟨mid, hloads, hclose⟩ := hfunction
    have hvariables (z : String) (hz : z ∈ y :: rest) : Γ.IsVariable z :=
      ((hcaptured z).mp (hnames ▸ hz)).1
    obtain ⟨us, hus⟩ := loadsAt.values hs hvariables hloads
    refine (h.loads hs hvariables hloads hus).next fun m' hm' => ?_
    refine hm'.close hL hs.toRuns hpool hus.length_eq.symm hclose fun free hfree => ?_
    refine ⟨R, rfl, hlaid (locals ++ A.captured) fun e he => hs.mem_flatten he, ?_⟩
    rw [← hfree, List.forall₂_map_right_iff] at hus
    rw [hnames]
    exact hus

end ScriptEngine.Image
