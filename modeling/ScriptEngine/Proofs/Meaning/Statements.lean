import ScriptEngine.Proofs.Meaning.Stores
/-!
The code of a statement ends as the statement does. An open loop says where the run goes on after
`break` and `continue`.
-/
namespace ScriptEngine

theorem Block.after_around? (body : Block) (Γ : Names) : (body.after Γ).around? = Γ.around? := by
  cases body
  rfl

/-- What follows an `else` leaves no names behind. -/
theorem Stmt.after_orElse {Γ : Names} : (s : Stmt) → s.Parsed →
    (∀ pos cond body, (Stmt.branch pos cond body (some s)).Plain) →
    (s.after Γ).vars = Γ.vars ∧ (s.after Γ).around? = Γ.around?
  | .block body, _, _ => ⟨Block.after_vars body Γ, Block.after_around? body Γ⟩
  | .branch _ cond body none, _, _ =>
    ⟨Block.after_vars body (Γ.skip _), Block.after_around? body (Γ.skip _)⟩
  | .branch _ cond body (some orElse), hparsed, _ => by
    have hrest := after_orElse (Γ := body.after (Γ.skip cond.literals)) orElse hparsed.2.2.2
      fun _ _ _ => by
        have hplain := hparsed.1
        cases orElse <;> exact hplain
    rw [Block.after_vars, Block.after_around?] at hrest
    exact hrest
  | .expr _, _, hplain | .define .., _, hplain | .assign .., _, hplain | .loop .., _, hplain
  | .breakLoop _, _, hplain | .continueLoop _, _, hplain | .returnValue .., _, hplain
  | .exportValue .., _, hplain => (hplain default (.lit default .undefined) (.mk default [])).elim

namespace Image

open Machine Exec

/-- The run is where a statement leads that ends as told. -/
structure Ended (L : Image) (A : Activation) (J : Option (Nat × Nat)) (q : Nat) (outer : Locals)
    (r : Completion × Locals) (st : Store) (m : Machine) : Prop where
  /-- The variables from before the statement are still there. -/
  keeps : outer.map Prod.fst <:+ r.2.map Prod.fst
  there : match r.1 with
    | .next => L.Rests A r.2 q st m
    | .broke => ∃ ends, J = some ends ∧ L.Rests A r.2 ends.1 st m
    | .continued => ∃ ends, J = some ends ∧ L.Rests A r.2 ends.2 st m
    | .returned v => L.Over A v st m

/-- Then also the names behind a statement are those of the variables that there are. -/
structure Past (L : Image) (A : Activation) (J : Option (Nat × Nat)) (Γ : Names) (q : Nat)
    (outer : Locals) (r : Completion × Locals) (st : Store) (m : Machine) : Prop extends
    L.Ended A J q outer r st m where
  knows : r.1 = .next → A.Knows Γ r.2

variable {L : Image} {W : World} {P : Powers} {x : Setting} {A : Activation} {Γ Γ' : Names}
  {outer locals : Locals} {s : Array Value} {m : Machine} {vs : List Value} {p q n : Nat}
  {st : Store} {pos : Option Pos} {v : Value} {J : Option (Nat × Nat)} {r : Completion × Locals}

theorem Rests.suffix {locals' : Locals} (h : L.Rests A locals p st m)
    (hsuffix : locals' <:+ locals) : L.Rests A locals' p st m := by
  obtain ⟨s, hs, hm⟩ := h
  exact ⟨s, hs.suffix hsuffix, hm⟩

/-- The variables of a block are gone behind it. -/
theorem Ended.leave (h : L.Ended A J q outer r st m) :
    L.Ended A J q outer (r.1, outer.leave r.2) st m := by
  obtain ⟨c, inner⟩ := r
  have hleft := Locals.leave_suffix outer inner
  refine ⟨(Locals.map_leave h.keeps).symm ▸ List.suffix_refl _, ?_⟩
  have hthere := h.there
  cases c with
  | next => exact hthere.suffix hleft
  | broke | continued => exact hthere.imp fun ends h => ⟨h.1, h.2.suffix hleft⟩
  | returned v => exact hthere

theorem Ended.around {before : Locals} (h : L.Ended A J q outer r st m)
    (hbefore : before.map Prod.fst <:+ outer.map Prod.fst) : L.Ended A J q before r st m :=
  ⟨hbefore.trans h.keeps, h.there⟩

/-- What comes behind a statement does not matter when it does not go on there. -/
theorem Ended.elsewhere (h : L.Ended A J p outer r st m) (hr : r.1 ≠ .next) :
    L.Ended A J q outer r st m := by
  obtain ⟨c, inner⟩ := r
  cases c with
  | next => exact absurd rfl hr
  | broke | continued | returned v => exact ⟨h.keeps, h.there⟩

/-- Outside of loops a statement goes on behind it or ends the call. -/
theorem Ended.of_no_loop (h : L.Ended A none q outer r st m) :
    (r.1 = .next ∧ L.Rests A r.2 q st m) ∨ ∃ v, r.1 = .returned v ∧ L.Over A v st m := by
  obtain ⟨c, inner⟩ := r
  have hthere := h.there
  cases c with
  | next => exact .inl ⟨rfl, hthere⟩
  | broke | continued =>
    obtain ⟨ends, hends, -⟩ := hthere
    cases hends
  | returned v => exact .inr ⟨v, rfl, hthere⟩

/-- A jump follows a statement. -/
theorem Ended.jumped {t : Nat} (h : L.Ended A J p outer r st m) (hA : A.Runs)
    (hhas : A.body.Has pos .jump t 0 p q) :
    m.Agrees x L.Shares n (fun r' st m => r' = r ∧ L.Ended A J t outer r st m) (.ok r st) := by
  obtain ⟨c, inner⟩ := r
  cases c with
  | next =>
    obtain ⟨s, hholds, hm⟩ := h.there
    obtain ⟨m', hstep, hm'⟩ := hm.jump (x := x) hA hhas
    exact .step hstep (.here ⟨rfl, h.keeps, s, hholds, hm'⟩)
  | broke | continued | returned v => exact .here ⟨rfl, h.elsewhere nofun⟩

/-- The names in force do not matter when a statement does not end at its end. -/
theorem Ended.past (h : L.Ended A J q outer r st m) (hr : r.1 ≠ .next) :
    L.Past A J Γ q outer r st m := ⟨h, fun he => absurd he hr⟩

/-- A statement that just goes on. -/
theorem Reached.past (h : L.Reached A Γ q locals st m)
    (hkeeps : outer.map Prod.fst <:+ locals.map Prod.fst) :
    L.Past A J Γ q outer (.next, locals) st m :=
  ⟨⟨hkeeps, h.rests⟩, fun _ => h.knows⟩

theorem Past.reached (h : L.Past A J Γ q outer (.next, locals) st m) :
    L.Reached A Γ q locals st m := ⟨h.knows rfl, h.there⟩

theorem Reached.congr (h : L.Reached A Γ q locals st m) (haround : Γ'.around? = Γ.around?)
    (hvars : Γ'.vars = Γ.vars) : L.Reached A Γ' q locals st m :=
  ⟨h.knows.congr haround (h.knows.vars.trans hvars.symm), h.rests⟩

theorem vars_define_suffix (Γ : Names) (y : String) : Γ.vars <:+ (Γ.define y).vars := by
  cases hf : Γ.functions with
  | nil => simp [Names.define_outside hf, Names.vars, hf]
  | cons vars around => simp [Names.define_inside hf, Names.vars, hf]

/-- The value of a definition is stored as the new name. -/
theorem Loaded.defined {pos : Pos} {y : String} {k : Nat} (h : L.Loaded A s [v] p st m)
    (hs : A.Site Γ locals s) (hfill : L.fillAt A.body (Γ.define y) pos y p q) :
    m.Agrees x L.Shares n (L.Past A J ((Γ.define y).skip k) q locals)
      ((do return (.next, ← (A.scope locals).define Γ y v) : Eval (Completion × Locals)).run st) := by
  refine (h.define hs hfill).bind fun locals' st' m' hm' => .here ?_
  refine Reached.past (hm'.congr rfl rfl) ?_
  rw [hs.vars, hm'.knows.vars]
  exact vars_define_suffix Γ y

/-- Behind the body of a loop comes what is done after each round, and then the next round. -/
theorem post_follows {behind : Names} {i k l count : Nat} {inner : Locals}
    {post rest : Locals → Eval (Completion × Locals)} (hA : A.Runs) (hcount : count ≤ n)
    (hbehind : behind.vars = Γ.vars ∧ behind.around? = Γ.around?)
    (hpost : ∀ {locals : Locals} {st : Store} {m : Machine}, L.Reached A behind k locals st m →
      m.Agrees x L.Shares n (L.Ended A J l locals) ((post locals).run st))
    (hjump : A.body.Has pos .jump i 0 l q)
    (hrest : ∀ {locals : Locals} {st : Store} {m : Machine}, L.Reached A Γ i locals st m →
      m.Agrees x L.Shares (count - 1) (L.Ended A J q locals) ((rest locals).run st))
    (hknows : A.Knows Γ locals) (hnames : inner.map Prod.fst = locals.map Prod.fst)
    (hrests : L.Rests A inner k st m) :
    m.Agrees x L.Shares count (L.Ended A J q locals) ((do
      let (c, last) ← post inner
      match c with
      | .next => rest (locals.leave last)
      | other => pure (other, last)).run st) := by
  have hat : L.Reached A behind k inner st m :=
    ⟨hknows.congr hbehind.2 (hnames.trans (hknows.vars.trans hbehind.1.symm)), hrests⟩
  refine ((hpost hat).fewer hcount).bind fun ⟨c, last⟩ st' m' h' => ?_
  have hended : L.Ended A J l locals (c, last) st' m' :=
    h'.around (hnames.symm ▸ List.suffix_refl (locals.map Prod.fst))
  cases c with
  | next =>
    obtain ⟨s, hholds, hm'⟩ := hended.leave.there
    obtain ⟨m'', hstep, hm''⟩ := hm'.jump (x := x) hA hjump
    have hvars := (Locals.map_leave hended.keeps).trans hknows.vars
    -- The jump back is a step, so the rounds that are left need one step fewer.
    have hagain := hrest ⟨hknows.congr rfl hvars, s, hholds, hm''⟩
    refine ((Agrees.step_succ hstep hagain).fewer (by omega)).mono fun r st'' m₂ hr => ?_
    exact hr.around (Locals.map_leave hended.keeps ▸ List.suffix_refl _)
  | broke | continued | returned v => exact .here (hended.elsewhere nofun)

section Statements

variable (hL : L.Suits W x) (hP : L.Follows x P n) (hA : A.Runs)
include hL hP hA

/-- The machine follows a definition. -/
theorem define_follows {pos : Pos} {y : String} {e : Expr} (he : e.Parsed)
    (hat : L.stmtAt A.body J Γ (.define pos y e) p q) (h : L.Reached A Γ p locals st m) :
    m.Agrees x L.Shares n (L.Past A J (Stmt.after (.define pos y e) Γ) q locals)
      ((Stmt.exec W P (A.scope locals) Γ (.define pos y e)).run st) := by
  obtain ⟨hknows, s, hholds, hm⟩ := h
  have hs : A.Site Γ locals s := ⟨hA, hknows, hholds⟩
  simp only [stmtAt] at hat
  simp only [Stmt.exec, Stmt.after]
  split at hat
  · rename_i hfunc
    rw [if_pos hfunc]
    obtain ⟨i, j, hbefore, hvalue, hfill⟩ := hat
    cases hf : Γ.functions with
    | nil =>
      rw [hf] at hbefore
      obtain rfl : p = i := hbefore
      have hs' : A.Site (Γ.define y) locals s := by
        refine ⟨hA, hknows.congr (Names.around?_define ..) ?_, hholds⟩
        rw [hknows.vars, Names.define_outside hf]
        rfl
      rw [Scope.announce_outside hf]
      exact (Expr.follows hL hP e he hs' hvalue hm).bind fun v st' m' hm' =>
        hm'.defined hs hfill
    | cons vars around =>
      rw [hf] at hbefore
      obtain ⟨k, hundefined, hfirst⟩ := hbefore
      have hinside : Γ.functions ≠ [] := by simp [hf]
      -- The slot of the name is filled before its value is made, since the function may use it.
      refine (hm.pushed (w := .undefined) hA hundefined rfl execute_undefined
        Value.only_undefined).next fun m₁ hm₁ => ?_
      have hnamed := Loaded.define (v := .undefined) (x := x) (n := n) hm₁ hs hfirst
      rw [Scope.define_inside hinside] at hnamed
      refine hnamed.next fun m₂ hm₂ => ?_
      obtain ⟨hknows₂, s₂, hholds₂, hm₂⟩ := hm₂
      rw [Scope.announce_inside hinside]
      refine (Expr.follows hL hP e he ⟨hA, hknows₂, hholds₂⟩ hvalue hm₂).bind fun v st' m' hm' => ?_
      exact hm'.defined ⟨hA, hknows, hholds₂.suffix (List.suffix_cons ..)⟩ hfill
  · rename_i hfunc
    rw [if_neg hfunc]
    obtain ⟨k, hvalue, hfill⟩ := hat
    exact (Expr.follows hL hP e he hs hvalue hm).bind fun v st' m' hm' =>
      hm'.defined hs hfill

/-- The machine follows an assignment. -/
theorem assign_follows {pos : Pos} {op : Option ArithOp} {place e : Expr} (hplace : place.Parsed)
    (he : e.Parsed) (hat : L.stmtAt A.body J Γ (.assign pos op place e) p q)
    (h : L.Reached A Γ p locals st m) :
    m.Agrees x L.Shares n (L.Past A J (Stmt.after (.assign pos op place e) Γ) q locals)
      ((Stmt.exec W P (A.scope locals) Γ (.assign pos op place e)).run st) := by
  obtain ⟨hknows, s, hholds, hm⟩ := h
  have hs : A.Site Γ locals s := ⟨hA, hknows, hholds⟩
  have hstored {k : Nat} {locals' : Locals} {st' : Store} {m' : Machine}
      (hm' : L.Reached A Γ q locals' st' m') :
      L.Past A J (Γ.skip k) q locals (.next, locals') st' m' := by
    have hnames : locals'.map Prod.fst = locals.map Prod.fst :=
      hm'.knows.vars.trans hknows.vars.symm
    exact Reached.past (hm'.congr rfl rfl) (hnames ▸ List.suffix_refl _)
  cases op with
  | none =>
    simp only [stmtAt] at hat
    simp only [Stmt.exec, Stmt.after]
    refine (storeAt.follows hL hP (fun hs hV h => ?_) place hplace hs hat hm).bind
      fun locals' st' m' hm' => .here (hstored hm')
    exact Expr.follows hL hP e he hs hV h
  | some op =>
    simp only [stmtAt] at hat
    simp only [Stmt.exec, Stmt.after]
    refine (storeAt.follows hL hP (fun hs hV h => ?_) place hplace hs hat hm).bind
      fun locals' st' m' hm' => .here (hstored hm')
    obtain ⟨i, j, hold, hvalue, hhas⟩ := hV
    refine (Expr.follows hL hP place hplace hs hold h).bind fun v st₁ m₁ h₁ => ?_
    refine (Expr.follows hL hP e he (hs.skip _) hvalue h₁).bind fun w st₂ m₂ h₂ => ?_
    rw [List.append_assoc] at h₂
    exact h₂.arith hA hhas

/-- The machine follows a return of a value. -/
theorem return_follows {e : Expr} {k : Nat} (he : e.Parsed) (hinside : Γ.functions ≠ [])
    (hvalue : L.exprAt A.body Γ e p k) (hhas : A.body.Has pos .ret 1 0 k q)
    (h : L.Reached A Γ p locals st m) :
    m.Agrees x L.Shares n (L.Past A J Γ' q locals)
      ((do return (.returned (← e.eval W P (A.scope locals) Γ), locals) :
        Eval (Completion × Locals)).run st) := by
  obtain ⟨hknows, s, hholds, hm⟩ := h
  have hs : A.Site Γ locals s := ⟨hA, hknows, hholds⟩
  refine (Expr.follows hL hP e he hs hvalue hm).bind fun v st' m' hm' => ?_
  refine (hm'.ret hs (called_of_inside hknows hinside) hhas).next fun m'' hm'' => .here ?_
  exact Ended.past ⟨List.suffix_refl _, hm''⟩ nofun

/-- The machine goes on where a condition leads. -/
theorem cond_follows {e : Expr} {k t : Nat} (he : e.Parsed) (hvalue : L.exprAt A.body Γ e p k)
    (hhas : A.body.Has pos .jumpFalsy t 0 k q) (h : L.Reached A Γ p locals st m) :
    m.Agrees x L.Shares n
      (fun v => L.Reached A (Γ.skip e.literals) (if v.isTruthy then q else t) locals)
      ((e.eval W P (A.scope locals) Γ).run st) := by
  obtain ⟨hknows, s, hholds, hm⟩ := h
  refine (Expr.follows hL hP e he ⟨hA, hknows, hholds⟩ hvalue hm).onward fun v st' m' hm' => ?_
  have hcond : L.Loaded A s ([] ++ [v]) k st' m' := hm'
  obtain ⟨m'', hstep, hm''⟩ := hcond.jumpFalsy (x := x) hA hhas
  exact .step hstep (.here ⟨hknows.congr rfl hknows.vars, s, hholds, hm''⟩)

/-- The machine follows the condition of a loop. -/
theorem test_follows {cond : Option Expr} {place : Pos} {t : Nat}
    (hparsed : Expr.PartEvery Expr.Distinct Stmt.Plain cond)
    (hat : L.testAt A.body Γ place t cond p q) (h : L.Reached A Γ p locals st m) :
    m.Agrees x L.Shares n (fun b => L.Rests A locals (if b then q else t))
      ((Expr.test W P (A.scope locals) Γ cond).run st) := by
  cases cond with
  | none =>
    obtain rfl : p = q := hat
    exact .here h.rests
  | some e =>
    obtain ⟨k, hvalue, hhas⟩ := hat
    exact (cond_follows hL hP hA hparsed hvalue hhas h).bind fun v st' m' h' => .here h'.rests

/-- The machine goes round a loop as often as the evaluation, and takes a step at least each time. -/
theorem iterate_follows {tested behind : Names} {place : Pos} {cond : Option Expr} {i j k l : Nat}
    {body post : Locals → Eval (Completion × Locals)}
    (hcond : Expr.PartEvery Expr.Distinct Stmt.Plain cond)
    (htest : L.testAt A.body Γ place q cond i j)
    (htested : tested.vars = Γ.vars ∧ tested.around? = Γ.around?)
    (hbehind : behind.vars = Γ.vars ∧ behind.around? = Γ.around?)
    (hbody : ∀ {locals : Locals} {st : Store} {m : Machine}, L.Reached A tested j locals st m →
      m.Agrees x L.Shares n (fun r st m => L.Ended A (some (q, k)) k locals r st m ∧
        r.2.map Prod.fst = locals.map Prod.fst) ((body locals).run st))
    (hpost : ∀ {locals : Locals} {st : Store} {m : Machine}, L.Reached A behind k locals st m →
      m.Agrees x L.Shares n (L.Ended A J l locals) ((post locals).run st))
    (hjump : A.body.Has pos .jump i 0 l q) (rounds : Nat) {count : Nat} (hcount : count ≤ rounds)
    (hn : count ≤ n) {locals : Locals} {st : Store} {m : Machine}
    (h : L.Reached A Γ i locals st m) :
    m.Agrees x L.Shares count (L.Ended A J q locals)
      ((iterate (fun locals => Expr.test W P (A.scope locals) Γ cond) body post rounds
        locals).run st) := by
  induction rounds generalizing count locals st m with
  | zero =>
    obtain rfl := Nat.le_zero.mp hcount
    exact .inr rfl
  | succ rounds ih =>
    simp only [iterate]
    refine ((test_follows hL hP hA hcond htest h).fewer hn).bind fun b st₁ m₁ h₁ => ?_
    cases b with
    | false => exact .here ⟨List.suffix_refl _, h₁⟩
    | true =>
      have hat : L.Reached A tested j locals st₁ m₁ :=
        ⟨h.knows.congr htested.2 (h.knows.vars.trans htested.1.symm), h₁⟩
      refine ((hbody hat).fewer hn).bind fun ⟨c, inner⟩ st₂ m₂ ⟨h₂, hnames⟩ => ?_
      have hless : count - 1 ≤ rounds := by omega
      have hrest {locals : Locals} {st : Store} {m : Machine} (h : L.Reached A Γ i locals st m) :=
        ih hless (by omega) h
      cases c with
      | next => exact post_follows hA hn hbehind hpost hjump hrest h.knows hnames h₂.there
      -- Inside of the body `continue` leads to where its end does.
      | continued =>
        obtain ⟨ends, hends, hrests⟩ := h₂.there
        cases hends
        exact post_follows hA hn hbehind hpost hjump hrest h.knows hnames hrests
      | broke =>
        obtain ⟨ends, hends, hrests⟩ := h₂.there
        cases hends
        exact .here ⟨h₂.keeps, hrests⟩
      | returned v => exact .here ⟨h₂.keeps, h₂.there⟩

end Statements

mutual

/-- The machine follows a statement. -/
theorem Stmt.follows (hL : L.Suits W x) (hP : L.Follows x P n) (hA : A.Runs)
    {J : Option (Nat × Nat)} {Γ : Names} {locals : Locals} {p q : Nat} {st : Store}
    {m : Machine} : (t : Stmt) → t.Parsed → L.stmtAt A.body J Γ t p q →
      L.Reached A Γ p locals st m →
      m.Agrees x L.Shares n (L.Past A J (t.after Γ) q locals)
        ((t.exec W P (A.scope locals) Γ).run st)
  | .expr e, hparsed, ⟨k, hvalue, hhas⟩, ⟨hknows, s, hholds, hm⟩ => by
    simp only [Stmt.exec]
    refine (Expr.follows hL hP e hparsed.2 ⟨hA, hknows, hholds⟩ hvalue hm).bind
      fun v st' m' hm' => ?_
    obtain ⟨m'', hstep, hm''⟩ := Loaded.pop (x := x) hm' hA hhas
    have hreached : L.Reached A (Γ.skip e.literals) q locals st' m'' :=
      ⟨hknows.congr rfl hknows.vars, s, hholds, hm''⟩
    exact .step hstep (.here (hreached.past (List.suffix_refl _)))
  | .define pos y e, hparsed, hat, h => define_follows hL hP hA hparsed.2 hat h
  | .assign pos op place e, hparsed, hat, h =>
    assign_follows hL hP hA hparsed.2.1 hparsed.2.2 hat h
  | .branch _ cond body none, hparsed, ⟨_, i, j, hcond, hhas, hbody⟩, h => by
    simp only [Stmt.exec]
    refine (cond_follows hL hP hA hparsed.2.1 hcond hhas h).bind fun v st' m' h' => ?_
    cases hv : v.isTruthy with
    | true =>
      rw [hv] at h'
      simp only [if_true]
      exact (Block.follows hL hP hA body hparsed.2.2.1 hbody h').mono
        fun r st'' m'' ⟨hended, hnames⟩ =>
        ⟨hended, fun _ => h'.knows.congr (Block.after_around? ..)
          (hnames.trans (h'.knows.vars.trans (Block.after_vars ..).symm))⟩
    | false =>
      rw [hv] at h'
      simp only [Bool.false_eq_true, if_false, Stmt.execPart]
      exact .here (Reached.past (h'.congr (Block.after_around? ..) (Block.after_vars ..))
        (List.suffix_refl _))
  | .branch _ cond body (some orElse), hparsed,
      ⟨_, i, j, k, l, hcond, hhas, hbody, hjump, helse⟩, h => by
    simp only [Stmt.exec]
    refine (cond_follows hL hP hA hparsed.2.1 hcond hhas h).bind fun v st' m' h' => ?_
    cases hv : v.isTruthy with
    | true =>
      rw [hv] at h'
      simp only [if_true]
      refine (Block.follows hL hP hA body hparsed.2.2.1 hbody h').onward
        fun r st'' m'' ⟨hended, hnames⟩ => ?_
      obtain ⟨hvars, haround⟩ := Stmt.after_orElse (Γ := body.after (Γ.skip cond.literals)) orElse
        hparsed.2.2.2 fun _ _ _ => by
          have hplain := hparsed.1
          cases orElse <;> exact hplain
      refine (hended.jumped hA hjump).mono fun r' st₃ m₃ ⟨hr, h₃⟩ => ?_
      subst hr
      refine ⟨h₃, fun _ => h'.knows.congr (haround.trans (Block.after_around? ..)) ?_⟩
      exact hnames.trans (h'.knows.vars.trans (hvars.trans (Block.after_vars ..)).symm)
    | false =>
      rw [hv] at h'
      simp only [Bool.false_eq_true, if_false, Stmt.execPart]
      exact Stmt.follows hL hP hA orElse hparsed.2.2.2 helse
        (h'.congr (Block.after_around? ..) (Block.after_vars ..))
  | .loop pos init cond post body, hparsed, ⟨_, i, j, k, l, hinit, htest, hbody, hpost, hjump⟩,
      h => by
    simp only [Stmt.exec]
    refine (Stmt.followsPart hL hP hA init hparsed.2.1 hinit h).bind fun ⟨c, inner⟩ st' m' h' => ?_
    have hleft {r : Completion × Locals} {st'' : Store} {m'' : Machine}
        (hr : L.Ended A J q locals r st'' m'') : L.Past A J
          (Stmt.after (.loop pos init cond post body) Γ) q locals
          (r.1, locals.leave r.2) st'' m'' :=
      ⟨hr.leave, fun _ => h.knows.congr rfl ((Locals.map_leave hr.keeps).trans h.knows.vars)⟩
    cases c with
    | next =>
      let tested := (Stmt.afterPart init Γ).skip (Expr.partLiterals cond)
      have htested : tested.vars = (Stmt.afterPart init Γ).vars ∧
          tested.around? = (Stmt.afterPart init Γ).around? := ⟨rfl, rfl⟩
      have hbehind : (body.after tested).vars = (Stmt.afterPart init Γ).vars ∧
          (body.after tested).around? = (Stmt.afterPart init Γ).around? :=
        ⟨Block.after_vars .., Block.after_around? ..⟩
      refine (iterate_follows hL hP hA hparsed.2.2.1 htest htested hbehind
        (fun h => Block.follows hL hP hA body hparsed.2.2.2.2 hbody h)
        (fun h => (Stmt.followsPart hL hP hA post hparsed.2.2.2.1 hpost h).mono
          fun _ _ _ hr => hr.toEnded)
        hjump P.rounds hP.rounds (Nat.le_refl n) h'.reached).bind
        fun r st'' m'' hr => .here (hleft (hr.around h'.keeps))
    | broke | continued | returned v => exact .here (hleft (h'.elsewhere nofun))
  | .breakLoop _, _, ⟨e, l, hJ, hhas⟩, ⟨hknows, s, hholds, hm⟩
  | .continueLoop _, _, ⟨e, l, hJ, hhas⟩, ⟨hknows, s, hholds, hm⟩ => by
    simp only [Stmt.exec]
    obtain ⟨m', hstep, hm'⟩ := hm.jump (x := x) hA hhas
    exact .step hstep (.here (Ended.past ⟨List.suffix_refl _, (e, l), hJ, s, hholds, hm'⟩ nofun))
  | .returnValue _ none, _, ⟨hinside, hhas⟩, ⟨hknows, s, hholds, hm⟩ => by
    simp only [Stmt.exec]
    exact (hm.retUndefined ⟨hA, hknows, hholds⟩ (called_of_inside hknows hinside) hhas).next
      fun m' hm' => .here (Ended.past ⟨List.suffix_refl _, hm'⟩ nofun)
  | .returnValue _ (some e), hparsed, ⟨hinside, k, hvalue, hhas⟩, h => by
    simp only [Stmt.exec]
    exact return_follows hL hP hA hparsed.2 hinside hvalue hhas h
  | .exportValue _ e, hparsed, ⟨hinside, k, hvalue, hhas⟩, h => by
    simp only [Stmt.exec]
    exact return_follows hL hP hA hparsed.2 hinside hvalue hhas h
  | .block body, hparsed, hat, h => by
    simp only [Stmt.exec]
    refine (Block.follows hL hP hA body hparsed.2 hat h).mono fun r st' m' ⟨hended, hnames⟩ => ?_
    refine ⟨hended, fun _ => h.knows.congr (Block.after_around? body Γ) ?_⟩
    exact hnames.trans (h.knows.vars.trans (Block.after_vars body Γ).symm)

theorem Stmt.followsPart (hL : L.Suits W x) (hP : L.Follows x P n) (hA : A.Runs)
    {J : Option (Nat × Nat)} {Γ : Names} {locals : Locals} {p q : Nat} {st : Store}
    {m : Machine} : (part : Option Stmt) →
      Stmt.PartEvery Expr.Distinct Stmt.Plain part → L.partAt A.body J Γ part p q →
      L.Reached A Γ p locals st m →
      m.Agrees x L.Shares n (L.Past A J (Stmt.afterPart part Γ) q locals)
        ((Stmt.execPart W P (A.scope locals) Γ part).run st)
  | none, _, hat, h => by
    simp only [Stmt.execPart]
    obtain rfl : p = q := hat
    exact .here (h.past (List.suffix_refl _))
  | some t, hparsed, hat, h => by
    simp only [Stmt.execPart]
    exact Stmt.follows hL hP hA t hparsed hat h

/-- The machine follows a block, which leaves the variables as they were named before it. -/
theorem Block.follows (hL : L.Suits W x) (hP : L.Follows x P n) (hA : A.Runs)
    {J : Option (Nat × Nat)} {Γ : Names} {locals : Locals} {p q : Nat} {st : Store}
    {m : Machine} : (body : Block) → body.Parsed → L.blockAt A.body J Γ body p q →
      L.Reached A Γ p locals st m →
      m.Agrees x L.Shares n (fun r st m => L.Ended A J q locals r st m ∧
          r.2.map Prod.fst = locals.map Prod.fst)
        ((body.exec W P (A.scope locals) Γ).run st)
  | .mk _ stmts, hparsed, hat, h => by
    simp only [Block.exec]
    exact (Stmt.followsAll hL hP hA stmts hparsed hat h).bind fun r st' m' hm' =>
      .here ⟨hm'.toEnded.leave, Locals.map_leave hm'.keeps⟩

theorem Stmt.followsAll (hL : L.Suits W x) (hP : L.Follows x P n) (hA : A.Runs)
    {J : Option (Nat × Nat)} {Γ : Names} {locals : Locals} {p q : Nat} {st : Store}
    {m : Machine} : (stmts : List Stmt) →
      Stmt.AllEvery Expr.Distinct Stmt.Plain stmts → L.stmtsAt A.body J Γ stmts p q →
      L.Reached A Γ p locals st m →
      m.Agrees x L.Shares n (L.Past A J (Stmt.afterAll stmts Γ) q locals)
        ((Stmt.execAll W P (A.scope locals) Γ stmts).run st)
  | [], _, hat, h => by
    simp only [Stmt.execAll]
    obtain rfl : p = q := hat
    exact .here (h.past (List.suffix_refl _))
  | t :: rest, hparsed, ⟨k, hfirst, hrest⟩, h => by
    simp only [Stmt.execAll]
    refine (Stmt.follows hL hP hA t hparsed.1 hfirst h).bind fun ⟨c, inner⟩ st' m' hm' => ?_
    cases c with
    | next =>
      refine (Stmt.followsAll hL hP hA rest hparsed.2 hrest hm'.reached).mono
        fun r st'' m'' hm'' => ?_
      exact ⟨hm''.toEnded.around hm'.keeps, hm''.knows⟩
    | broke | continued | returned v => exact .here ((hm'.elsewhere nofun).past nofun)

end

end Image

end ScriptEngine
