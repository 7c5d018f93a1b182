import ScriptEngine.Proofs.Meaning.Calls
/-! The code of an expression leaves the value that the expression evaluates to. -/
namespace ScriptEngine.Image

open Machine Exec

variable {L : Image} {W : World} {P : Powers} {x : Setting} {A : Activation} {Γ : Names}
  {locals : Locals} {s : Array Value} {m : Machine} {vs us : List Value} {p q n : Nat} {st : Store}
  {pos : Option Pos} {u v w : Value}

section Operators

theorem Loaded.negate (h : L.Loaded A s (vs ++ [v]) p st m) (hA : A.Runs)
    (hhas : A.body.Has pos .negate 0 0 p q) :
    m.Agrees x L.Shares n (fun v => L.Loaded A s (vs ++ [v]) q) ((Eval.lift v.negate).run st) :=
  h.unary hA hhas rfl
    (fun _ _ _ hbudget hstack => (execute_negate hstack).trans (yielded_free hbudget _))
    Value.disguises_bare.negate_eq fun _ => Value.negate_computes

theorem Loaded.not (h : L.Loaded A s (vs ++ [v]) p st m) (hA : A.Runs)
    (hhas : A.body.Has pos .not 0 0 p q) :
    m.Agrees x L.Shares n (fun v => L.Loaded A s (vs ++ [v]) q) (.ok (.bool !v.isTruthy) st) :=
  h.unary (f := fun v => .ok (.bool !v.isTruthy)) hA hhas rfl
    (fun _ _ _ _ hstack => execute_not hstack)
    (fun z => by rw [Value.disguises_bare.isTruthy_eq]; rfl) fun _ => .ok (Value.only_bool _)

theorem Loaded.unaryOp {op : UnaryOp} (h : L.Loaded A s (vs ++ [v]) p st m) (hA : A.Runs)
    (hhas : A.body.Has pos op.opcode 0 0 p q) :
    m.Agrees x L.Shares n (fun v => L.Loaded A s (vs ++ [v]) q) ((op.eval v).run st) := by
  cases op with
  | neg => exact h.negate hA hhas
  | not => exact h.not hA hhas

theorem Loaded.arith {op : ArithOp} (h : L.Loaded A s (vs ++ [v, w]) p st m) (hA : A.Runs)
    (hhas : A.body.Has pos (.arith op) 0 0 p q) :
    m.Agrees x L.Shares n (fun v => L.Loaded A s (vs ++ [v]) q)
      ((Eval.lift (op.apply v w)).run st) :=
  h.binary hA hhas rfl
    (fun _ _ _ _ hbudget hstack => (execute_arith hstack).trans (yielded_free hbudget _))
    (Value.disguises_bare.arith op) fun _ _ hy hz => op.computes hy hz

theorem Loaded.index (h : L.Loaded A s (vs ++ [v, w]) p st m) (hA : A.Runs)
    (hhas : A.body.Has pos .index 0 0 p q) :
    m.Agrees x L.Shares n (fun v => L.Loaded A s (vs ++ [v]) q)
      ((Eval.lift (v.element w)).run st) :=
  h.binary hA hhas rfl (fun _ _ _ _ _ hstack => execute_index hstack) Value.disguises_bare.element_eq
    fun _ _ hy _ => Value.element_computes hy

theorem Loaded.setIndex (h : L.Loaded A s (vs ++ [u, v, w]) p st m) (hA : A.Runs)
    (hhas : A.body.Has pos .setIndex 0 0 p q) :
    m.Agrees x L.Shares n (fun v => L.Loaded A s (vs ++ [v]) q)
      ((Eval.lift (u.replaceElement v w)).run st) :=
  h.ternary hA hhas rfl
    (fun _ _ _ _ _ hbudget hstack => (execute_setIndex hstack).trans (yielded_free hbudget _))
    Value.disguises_bare.replaceElement_eq fun _ _ _ ha hc => Value.replaceElement_computes ha hc

/-- An operator that needs both its operands. -/
theorem Loaded.binaryOp {op : BinaryOp} (h : L.Loaded A s (vs ++ [v, w]) p st m) (hA : A.Runs)
    (hop : op.shortCircuits = false) (hhas : A.body.Has pos op.opcode 0 0 p q) :
    m.Agrees x L.Shares n (fun v => L.Loaded A s (vs ++ [v]) q)
      ((op.eval v (pure w)).run st) := by
  have hsame (y z : Value) : y.bare.same z.bare = y.same z := Value.disguises_bare.same_eq y z
  cases op with
  | or | and => cases hop
  | equal =>
    exact h.binary (f := fun y z => .ok (.bool (y.same z))) hA hhas rfl
      (fun _ _ _ _ _ hstack => execute_equal hstack) (fun y z => by rw [hsame]; rfl)
      fun _ _ _ _ => .ok (Value.only_bool _)
  | notEqual =>
    exact h.binary (f := fun y z => .ok (.bool !y.same z)) hA hhas rfl
      (fun _ _ _ _ _ hstack => execute_notEqual hstack) (fun y z => by rw [hsame]; rfl)
      fun _ _ _ _ => .ok (Value.only_bool _)
  | order c =>
    exact h.binary hA hhas rfl
      (fun _ _ _ _ hbudget hstack => (execute_order hstack).trans (yielded_free hbudget _))
      (Value.disguises_bare.order c) fun _ _ _ _ => c.computes
  | arith op => exact h.arith hA hhas

/-- Such an operator evaluates the second operand in any case. -/
theorem eval_eq_bind {op : BinaryOp} (hop : op.shortCircuits = false) (right : Eval Value) :
    op.eval v right = right >>= fun w => op.eval v (pure w) := by
  cases op with
  | or | and => cases hop
  | _ => simp [BinaryOp.eval]

/-- The value before `and` or `or` is the result, or the one behind is. -/
theorem Loaded.logical {op : BinaryOp} {right : Eval Value} {t : Nat}
    (h : L.Loaded A s (vs ++ [v]) p st m) (hA : A.Runs) (hop : op.shortCircuits = true)
    (hhas : A.body.Has pos op.opcode t 0 p q)
    (hright : ∀ {m' : Machine}, L.Loaded A s vs q st m' →
      m'.Agrees x L.Shares n (fun v => L.Loaded A s (vs ++ [v]) t) (right.run st)) :
    m.Agrees x L.Shares n (fun v => L.Loaded A s (vs ++ [v]) t) ((op.eval v right).run st) := by
  have hstays {stay : Bool} (hstay : op.opcode = .andJump ∧ stay = !v.isTruthy ∨
      op.opcode = .orJump ∧ stay = v.isTruthy)
      (heval : op.eval v right = if stay then pure v else right) :
      m.Agrees x L.Shares n (fun v => L.Loaded A s (vs ++ [v]) t) ((op.eval v right).run st) := by
    obtain ⟨m', hstep, hm'⟩ := h.shortCircuit (x := x) hA hhas hstay
    rw [heval]
    refine .step hstep ?_
    cases stay with
    | true => exact .here hm'
    | false => exact hright hm'
  cases op with
  | or => exact hstays (.inr ⟨rfl, rfl⟩) rfl
  | and => exact hstays (.inl ⟨rfl, rfl⟩) (by cases hv : v.isTruthy <;> simp [BinaryOp.eval, hv])
  | equal | notEqual | order _ | arith _ => cases hop

theorem Loaded.array (h : L.Loaded A s (vs ++ us) p st m) (hA : A.Runs)
    (hhas : A.body.Has pos .array us.length 0 p q) :
    m.Agrees x L.Shares n (fun v => L.Loaded A s (vs ++ [v]) q) (.ok (.array us) st) := by
  refine h.looked (e := .ok (.array us)) hA hhas rfl fun s' zs hzs honly hstack =>
    ⟨.ok (.array zs), ?_, ?_, .ok (Value.only_array.mpr honly)⟩
  · rw [execute_array hstack (by simp [← hzs])]
    exact paid_free h.reflects.budget
  · rw [← hzs]
    exact congrArg Except.ok (Value.disguises_bare.eq (.array zs))

/-- The keys and values of a map's entries as they are pushed. -/
def pushedEntries (entries : List (String × Value)) : List Value :=
  entries.flatMap fun e => [.string e.1, e.2]

theorem mapOf_pushedEntries (entries found : List (String × Value)) :
    Value.mapOf (pushedEntries entries) found =
      .ok (.map (entries.foldl (fun found e => Entries.insert e.1 e.2 found) found)) := by
  induction entries generalizing found with
  | nil => rfl
  | cons e rest ih => exact ih _

theorem length_pushedEntries (entries : List (String × Value)) :
    (pushedEntries entries).length = 2 * entries.length := by
  simp [pushedEntries, List.length_flatMap, Nat.mul_comm]

theorem Loaded.map {entries : List (String × Value)}
    (h : L.Loaded A s (vs ++ pushedEntries entries) p st m) (hA : A.Runs)
    (hhas : A.body.Has pos .map entries.length 0 p q) :
    m.Agrees x L.Shares n (fun v => L.Loaded A s (vs ++ [v]) q)
      (.ok (.map (Entries.ofList entries)) st) := by
  refine h.looked (e := .ok (.map (Entries.ofList entries))) hA hhas rfl
    fun s' zs hzs honly hstack => ⟨Value.mapOf zs [], ?_, ?_, Value.mapOf_computes honly (by simp)⟩
  · have hsize : zs.toArray.size = 2 * entries.length := by
      rw [← length_pushedEntries, ← hzs]
      simp
    have hbudget : (m.fetched ⟨.map, entries.length, 0⟩).budget = none := h.reflects.budget
    rw [execute_map hstack hsize]
    exact yielded_free hbudget _
  · have hbare : Value.mapOf (zs.map Value.bare) [] = (Value.mapOf zs []).map Value.bare :=
      Value.disguises_bare.mapOf_eq zs []
    exact hbare.symm.trans ((congrArg (Value.mapOf · []) hzs).trans (mapOf_pushedEntries entries []))

end Operators

mutual

/-- The machine follows the evaluation of an expression. -/
theorem Expr.follows (hL : L.Suits W x) (hP : L.Follows x P n) {Γ : Names} {vs : List Value}
    {p q : Nat} {st : Store} {m : Machine} :
    (e : Expr) → e.Parsed → A.Site Γ locals s → L.exprAt A.body Γ e p q → L.Loaded A s vs p st m →
      m.Agrees x L.Shares n (fun v => L.Loaded A s (vs ++ [v]) q)
        ((e.eval W P (A.scope locals) Γ).run st)
  | .lit _ l, _, hs, hat, h => by
    simp only [exprAt] at hat
    simp only [Expr.eval]
    exact h.literal hL hs.toRuns hat
  | .name _ y, _, hs, hat, h => by
    simp only [exprAt] at hat
    simp only [Expr.eval]
    exact h.load hs hat
  | .array _ items, hparsed, hs, hat, h => by
    simp only [exprAt] at hat
    simp only [Expr.eval]
    obtain ⟨-, k, hitems, hhas⟩ := hat
    refine (Expr.followsAll hL hP items hparsed.2 hs hitems h).bind
      fun us st' m' ⟨hlength, hm'⟩ => ?_
    rw [← hlength] at hhas
    exact hm'.array hs.toRuns hhas
  | .map _ entries, hparsed, hs, hat, h => by
    simp only [exprAt] at hat
    simp only [Expr.eval]
    obtain ⟨-, k, hentries, hhas⟩ := hat
    refine (Expr.followsEntries hL hP entries hparsed.2 hs hentries h).bind
      fun us st' m' ⟨hlength, hm'⟩ => ?_
    rw [← hlength] at hhas
    exact hm'.map hs.toRuns hhas
  | .unary _ op e, hparsed, hs, hat, h => by
    simp only [exprAt] at hat
    simp only [Expr.eval]
    obtain ⟨k, he, hhas⟩ := hat
    exact (Expr.follows hL hP e hparsed.2 hs he h).bind fun v st' m' hm' =>
      hm'.unaryOp hs.toRuns hhas
  | .binary _ op left right, hparsed, hs, hat, h => by
    simp only [exprAt] at hat
    simp only [Expr.eval]
    split at hat
    · rename_i hop
      obtain ⟨-, k, j, hleft, hhas, hright⟩ := hat
      refine (Expr.follows hL hP left hparsed.2.1 hs hleft h).bind fun v st' m' hm' => ?_
      exact hm'.logical hs.toRuns hop hhas fun hm'' =>
        Expr.follows hL hP right hparsed.2.2 (hs.skip _) hright hm''
    · rename_i hop
      obtain ⟨k, j, hleft, hright, hhas⟩ := hat
      refine (Expr.follows hL hP left hparsed.2.1 hs hleft h).bind fun v st' m' hm' => ?_
      rw [eval_eq_bind (by simpa using hop)]
      refine (Expr.follows hL hP right hparsed.2.2 (hs.skip _) hright hm').bind
        fun w st'' m'' hm'' => ?_
      rw [List.append_assoc] at hm''
      exact hm''.binaryOp hs.toRuns (by simpa using hop) hhas
  | .call _ callee args, hparsed, hs, hat, h => by
    simp only [exprAt] at hat
    simp only [Expr.eval]
    obtain ⟨-, k, j, hcallee, hargs, hhas⟩ := hat
    refine (Expr.follows hL hP callee hparsed.2.1 hs hcallee h).bind fun f st' m' hm' => ?_
    refine (Expr.followsAll hL hP args hparsed.2.2 (hs.skip _) hargs hm').bind
      fun us st'' m'' ⟨hlength, hm''⟩ => ?_
    rw [List.append_assoc] at hm''
    rw [← hlength] at hhas
    exact hm''.call hL hP hs.toRuns hhas
  | .index _ container place, hparsed, hs, hat, h => by
    simp only [exprAt] at hat
    simp only [Expr.eval]
    obtain ⟨k, j, hcontainer, hplace, hhas⟩ := hat
    refine (Expr.follows hL hP container hparsed.2.1 hs hcontainer h).bind fun v st' m' hm' => ?_
    refine (Expr.follows hL hP place hparsed.2.2 (hs.skip _) hplace hm').bind
      fun w st'' m'' hm'' => ?_
    rw [List.append_assoc] at hm''
    exact hm''.index hs.toRuns hhas
  | .field _ container y, hparsed, hs, hat, h => by
    simp only [exprAt] at hat
    simp only [Expr.eval]
    obtain ⟨k, j, hcontainer, hconstant, hhas⟩ := hat
    refine (Expr.follows hL hP container hparsed.2 hs hcontainer h).bind fun v st' m' hm' => ?_
    refine (hm'.constant (v := .string y) hL hs.toRuns rfl hconstant).next fun m'' hm'' => ?_
    rw [List.append_assoc] at hm''
    exact hm''.index hs.toRuns hhas
  | .func _ params body, hparsed, hs, hat, h => by
    simp only [Expr.eval]
    exact h.function hL hs hparsed.2 hat
  | .load _ key, _, hs, hat, h => by
    simp only [exprAt] at hat
    simp only [Expr.eval]
    exact h.imported hL hP hs.toRuns hat

theorem Expr.followsAll (hL : L.Suits W x) (hP : L.Follows x P n) {Γ : Names} {vs : List Value}
    {p q : Nat} {st : Store} {m : Machine} :
    (items : List Expr) → Expr.AllEvery Expr.Distinct Stmt.Plain items → A.Site Γ locals s →
      L.exprsAt A.body Γ items p q → L.Loaded A s vs p st m →
      m.Agrees x L.Shares n
        (fun us st m => us.length = items.length ∧ L.Loaded A s (vs ++ us) q st m)
        ((Expr.evalAll W P (A.scope locals) Γ items).run st)
  | [], _, hs, hat, h => by
    simp only [exprsAt] at hat
    simp only [Expr.evalAll]
    subst hat
    exact .here ⟨rfl, by rwa [List.append_nil]⟩
  | e :: rest, hparsed, hs, hat, h => by
    simp only [exprsAt] at hat
    simp only [Expr.evalAll]
    obtain ⟨k, he, hrest⟩ := hat
    refine (Expr.follows hL hP e hparsed.1 hs he h).bind fun v st' m' hm' => ?_
    refine (Expr.followsAll hL hP rest hparsed.2 (hs.skip _) hrest hm').bind
      fun us st'' m'' ⟨hlength, hm''⟩ => .here ⟨congrArg (· + 1) hlength, ?_⟩
    rwa [List.append_assoc] at hm''

theorem Expr.followsEntries (hL : L.Suits W x) (hP : L.Follows x P n) {Γ : Names} {pos : Pos}
    {vs : List Value} {p q : Nat} {st : Store} {m : Machine} : (entries : List (String × Expr)) →
      Expr.EntriesEvery Expr.Distinct Stmt.Plain entries → A.Site Γ locals s →
      L.entriesAt A.body Γ pos entries p q → L.Loaded A s vs p st m →
      m.Agrees x L.Shares n (fun us st m => us.length = entries.length ∧
          L.Loaded A s (vs ++ pushedEntries us) q st m)
        ((Expr.evalEntries W P (A.scope locals) Γ entries).run st)
  | [], _, hs, hat, h => by
    simp only [entriesAt] at hat
    simp only [Expr.evalEntries]
    subst hat
    exact .here ⟨rfl, by simpa [pushedEntries] using h⟩
  | (key, e) :: rest, hparsed, hs, hat, h => by
    simp only [entriesAt] at hat
    simp only [Expr.evalEntries]
    obtain ⟨k, j, hkey, he, hrest⟩ := hat
    refine (h.constant (v := .string key) hL hs.toRuns rfl hkey).next fun m₁ hm₁ => ?_
    refine (Expr.follows hL hP e hparsed.1 hs he hm₁).bind fun v st' m' hm' => ?_
    refine (Expr.followsEntries hL hP rest hparsed.2 (hs.skip _) hrest hm').bind
      fun us st'' m'' ⟨hlength, hm''⟩ => .here ⟨congrArg (· + 1) hlength, ?_⟩
    simpa [pushedEntries] using hm''

end

end ScriptEngine.Image
