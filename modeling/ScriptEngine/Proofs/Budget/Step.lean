import ScriptEngine.Proofs.Machine.Steady
/-!
What an instruction takes off the budget. Apart from the instruction that allocates, no part of an
instruction looks at the budget; so a smaller budget can stop an instruction, but cannot make it do
something else.
-/
namespace ScriptEngine

namespace Machine

/-- The machine with another budget. -/
def allowed (m : Machine) (budget : Option Nat) : Machine := { m with budget }

variable {m : Machine} {b b' : Option Nat}

@[simp] theorem allowed_budget : (m.allowed b).budget = b := rfl

@[simp] theorem allowed_allowed : (m.allowed b).allowed b' = m.allowed b' := rfl

@[simp] theorem allowed_globals : (m.allowed b).globals = m.globals := rfl

theorem allowed_of_eq (h : m.budget = b) : m.allowed b = m := by
  subst h
  rfl

end Machine

namespace Exec

open Machine

variable {α β : Type} {x : Setting} {c : Exec α} {f : α → Exec β} {m : Machine} {d e j k : Nat}

/-- An outcome with another budget in the state that it leaves. -/
def leaving (budget : Option Nat) : EStateM.Result Halt Machine α → EStateM.Result Halt Machine α
  | .ok y m => .ok y (m.allowed budget)
  | .error h m => .error h (m.allowed budget)

/-- From the given state part of an instruction takes `d` allocations: where that many are left it
comes to what it comes to without a limit, and where fewer are left it fails for lack of them. -/
structure Takes (d : Nat) (c : Exec α) (m : Machine) : Prop where
  /-- Without a limit nothing fails for lack of an allocation. -/
  solvent : ∀ m', c.run (m.allowed none) ≠ .error (.trap .allocationLimit) m'
  unlimited : (EndState (c.run (m.allowed none))).budget = none
  enough : ∀ n, d ≤ n → c.run (m.allowed (some n)) = leaving (some (n - d)) (c.run (m.allowed none))
  short : ∀ n, n < d → ∃ m',
    c.run (m.allowed (some n)) = .error (.trap .allocationLimit) m' ∧ m'.budget = some 0

/-- Part of an instruction that takes at most so many allocations, whatever the state. -/
def Draws (k : Nat) (c : Exec α) : Prop := ∀ m, ∃ d, d ≤ k ∧ Takes d c m

/-- What fails before it is bound to something takes what it took. -/
theorem Takes.bind_error {h : Halt} {m' : Machine} (hc : Takes d c m)
    (hrun : c.run (m.allowed none) = .error h m') : Takes d (c >>= f) m := by
  have hbind : (c >>= f).run (m.allowed none) = .error h m' := by rw [run_bind, hrun]
  constructor
  · intro m'' heq
    rw [hbind] at heq
    cases heq
    exact hc.solvent _ hrun
  · have hnone := hc.unlimited
    rw [hrun] at hnone
    rw [hbind]
    exact hnone
  · intro n hn
    rw [hbind, run_bind, hc.enough n hn, hrun]
    rfl
  · intro n hn
    obtain ⟨m'', hshort, hzero⟩ := hc.short n hn
    exact ⟨m'', by rw [run_bind, hshort], hzero⟩

/-- Two parts take what each of them takes. -/
theorem Takes.bind {y : α} {m' : Machine} (hc : Takes d c m)
    (hrun : c.run (m.allowed none) = .ok y m') (hf : Takes e (f y) m') :
    Takes (d + e) (c >>= f) m := by
  have hnone := hc.unlimited
  rw [hrun] at hnone
  have hfirst : m'.allowed none = m' := allowed_of_eq hnone
  have hbind : (c >>= f).run (m.allowed none) = (f y).run (m'.allowed none) := by
    rw [run_bind, hrun, hfirst]
  -- With enough for the first part, the second goes on with what is left.
  have hrest : ∀ n, d ≤ n →
      (c >>= f).run (m.allowed (some n)) = (f y).run (m'.allowed (some (n - d))) := by
    intro n hn
    rw [run_bind, hc.enough n hn, hrun]
    rfl
  constructor
  · rw [hbind]
    exact hf.solvent
  · rw [hbind]
    exact hf.unlimited
  · intro n hn
    rw [hbind, hrest n (by omega), hf.enough (n - d) (by omega)]
    congr 2
    omega
  · intro n hn
    by_cases hd : n < d
    · obtain ⟨m'', hshort, hzero⟩ := hc.short n hd
      exact ⟨m'', by rw [run_bind, hshort], hzero⟩
    · rw [hrest n (by omega)]
      exact hf.short (n - d) (by omega)

/-- A part that fails or not regardless of the budget takes nothing. -/
theorem Takes.free (hrun : ∀ b, c.run (m.allowed b) = leaving b (c.run (m.allowed none)))
    (hsolvent : ∀ m', c.run (m.allowed none) ≠ .error (.trap .allocationLimit) m') :
    Takes 0 c m := by
  refine ⟨hsolvent, ?_, fun n _ => hrun (some n), fun n hn => absurd hn (Nat.not_lt_zero n)⟩
  rw [hrun none]
  cases c.run (m.allowed none) <;> rfl

namespace Draws

theorem mono (h : Draws j c) (hjk : j ≤ k) : Draws k c := fun m =>
  let ⟨d, hd, htakes⟩ := h m
  ⟨d, Nat.le_trans hd hjk, htakes⟩

theorem bind (hc : Draws j c) (hf : ∀ y, Draws k (f y)) : Draws (j + k) (c >>= f) := by
  intro m
  obtain ⟨d, hd, htakes⟩ := hc m
  cases hrun : c.run (m.allowed none) with
  | error h m' => exact ⟨d, by omega, htakes.bind_error hrun⟩
  | ok y m' =>
    obtain ⟨e, he, hrest⟩ := hf y m'
    exact ⟨d + e, by omega, htakes.bind hrun hrest⟩

/-- What takes nothing may come first. -/
theorem after (hc : Draws 0 c) (hf : ∀ y, Draws k (f y)) : Draws k (c >>= f) :=
  (hc.bind hf).mono (Nat.le_of_eq (Nat.zero_add k))

/-- What takes nothing may come last. -/
theorem before (hc : Draws k c) (hf : ∀ y, Draws 0 (f y)) : Draws k (c >>= f) :=
  hc.bind hf

theorem pure (y : α) : Draws k (pure y : Exec α) :=
  fun _ => ⟨0, Nat.zero_le k, .free (fun _ => rfl) fun _ => nofun⟩

theorem throw {h : Halt} (hne : h ≠ .trap .allocationLimit) : Draws k (throw h : Exec α) := by
  refine fun m => ⟨0, Nat.zero_le k, .free (fun _ => rfl) fun m' heq => ?_⟩
  cases heq
  exact hne rfl

/-- The rest of a part may look at the state, but not at the budget. -/
theorem get {g : Machine → Exec α} (h : ∀ m, Draws k (g m))
    (hblind : ∀ m b, g (m.allowed b) = g m) : Draws k (get >>= g) := by
  intro m
  have hrun : ∀ b, ((MonadState.get : Exec Machine) >>= g).run (m.allowed b) = (g m).run (m.allowed b) := by
    intro b
    rw [← hblind m b]
    rfl
  obtain ⟨d, hd, htakes⟩ := h m m
  refine ⟨d, hd, ?_, ?_, ?_, ?_⟩
  · rw [hrun]
    exact htakes.solvent
  · rw [hrun]
    exact htakes.unlimited
  · intro n hn
    rw [hrun, hrun]
    exact htakes.enough n hn
  · intro n hn
    rw [hrun]
    exact htakes.short n hn

/-- A change of the state that leaves the budget alone. -/
theorem modifyGet {g : Machine → α × Machine}
    (h : ∀ m b, g (m.allowed b) = ((g m).1, (g m).2.allowed b)) :
    Draws k (modifyGet g : Exec α) := by
  refine fun m => ⟨0, Nat.zero_le k, .free (fun b => ?_) fun m' => ?_⟩
  · rw [run_modifyGet, run_modifyGet, h m b, h m none]
    rfl
  · rw [run_modifyGet]
    exact nofun

theorem modify {g : Machine → Machine} (h : ∀ m b, g (m.allowed b) = (g m).allowed b) :
    Draws k (modify g : Exec PUnit) :=
  modifyGet fun m b => congrArg _ (h m b)

end Draws

theorem invalid_draws : Draws k (invalid : Exec α) :=
  .get (fun _ => .throw (by simp)) fun _ _ => rfl

theorem push_draws (v : Value) : Draws k (push v) := by
  refine .get (fun m => ?_) fun _ _ => rfl
  split
  · exact .throw (by simp)
  · exact .modify fun _ _ => rfl

theorem peek_draws : Draws k peek := by
  refine .get (fun m => ?_) fun _ _ => rfl
  split
  · exact .pure _
  · exact invalid_draws

theorem pop_draws : Draws k pop :=
  peek_draws.after fun _ => .after (.modify fun _ _ => rfl) fun _ => .pure _

theorem popFrom_draws (place : Nat) : Draws k (popFrom place) := .modifyGet fun _ _ => rfl

theorem popMany_draws (n : Nat) : Draws k (popMany n) := by
  refine .get (fun m => ?_) fun _ _ => rfl
  dsimp only
  split
  · exact invalid_draws
  · exact popFrom_draws _

/-- The one part that looks at the budget. -/
theorem allocate_draws : Draws 1 allocate := by
  refine fun m => ⟨1, Nat.le_refl 1, ?_, ?_, ?_, ?_⟩
  · intro m'
    rw [run_allocate]
    exact nofun
  · rw [run_allocate]
    rfl
  · intro n hn
    obtain ⟨n, rfl⟩ := Nat.exists_eq_add_of_le' hn
    rw [run_allocate, run_allocate]
    rfl
  · intro n hn
    obtain rfl : n = 0 := by omega
    refine ⟨m.allowed (some 0), ?_, rfl⟩
    rw [run_allocate]
    rfl

theorem pushNew_draws (v : Value) : Draws 1 (pushNew v) :=
  allocate_draws.before fun _ => push_draws v

theorem jump_draws (target : Nat) : Draws k (jump target) := .modify fun _ _ => rfl

theorem localPlace_draws (slot : Nat) : Draws k (localPlace slot) := by
  refine .get (fun m => ?_) fun _ _ => rfl
  dsimp only
  split
  · exact .pure _
  · exact invalid_draws

theorem fetch_draws : Draws k fetch := by
  refine .get (fun m => ?_) fun _ _ => rfl
  dsimp only
  split
  · split
    · exact .after (.modify fun _ _ => rfl) fun _ => .pure _
    · exact .throw (by simp)
  · exact .pure _

theorem leave_draws (v : Value) : Draws k (leave v) := by
  refine .get (fun m => ?_) fun _ _ => rfl
  split
  · exact .pure _
  · exact .after (.modify fun _ _ => rfl) fun _ => (push_draws v).after fun _ => .pure _

theorem enter_draws (place args : Nat) (r : Routine) (free : List Value) :
    Draws k (enter place args r free) := by
  unfold enter
  split
  · exact .throw (by simp)
  · refine .get (fun m => ?_) fun _ _ => rfl
    split
    · exact .throw (by simp)
    · refine .get (fun m => ?_) fun _ _ => rfl
      split
      · exact .throw (by simp)
      · exact .modify fun _ _ => rfl

end Exec

/-- An operator that fails, if at all, for a reason other than the lack of an allocation. -/
def Solvent {α : Type} (e : Except Trap α) : Prop := ∀ t, e = .error t → t ≠ .allocationLimit

namespace Solvent

variable {α β : Type}

theorem ok (y : α) : Solvent (.ok y : Except Trap α) := nofun

theorem error {t : Trap} (h : t ≠ .allocationLimit) : Solvent (.error t : Except Trap α) := by
  intro u hu
  cases hu
  exact h

theorem bind {e : Except Trap α} {f : α → Except Trap β} (he : Solvent e)
    (hf : ∀ y, Solvent (f y)) : Solvent (e >>= f) := by
  cases e with
  | ok y => exact hf y
  | error t => exact .error (he t rfl)

end Solvent

theorem ArithOp.solvent (op : ArithOp) (l r : Value) : Solvent (op.apply l r) := by
  have hints (n k : Int64) : Solvent (op.onInts n k) := by
    cases op <;> simp only [onInts]
    case div | rem =>
      split
      · exact .error (by simp)
      · exact .ok _
    all_goals exact .ok _
  unfold apply
  split
  case h_1 => exact hints _ _
  all_goals
    try split
    all_goals first | exact .ok _ | exact .error (by simp)

theorem Comparison.solvent (c : Comparison) (l r : Value) : Solvent (c.apply l r) := by
  unfold apply
  split
  case h_7 => exact .error (by simp)
  all_goals exact .ok _

namespace Value

theorem negate_solvent (v : Value) : Solvent v.negate := by
  unfold negate
  split
  case h_3 => exact .error (by simp)
  all_goals exact .ok _

theorem position_solvent (container : String) (length : Nat) (v : Value) :
    Solvent (position container length v) := by
  unfold position
  split
  · split
    · exact .ok _
    · exact .error (by simp)
  · exact .error (by simp)

theorem element_solvent (container index : Value) : Solvent (container.element index) := by
  unfold element
  split
  · exact (position_solvent _ _ _).bind fun _ => .ok _
  · exact (position_solvent _ _ _).bind fun _ => .ok _
  · split
    · exact .ok _
    · exact .error (by simp)
  · split
    · exact .ok _
    · exact .error (by simp)
  · exact .ok _
  · exact .error (by simp)

theorem replaceElement_solvent (container index value : Value) :
    Solvent (container.replaceElement index value) := by
  unfold replaceElement
  split
  · exact (position_solvent _ _ _).bind fun _ => .ok _
  · split
    · exact .ok _
    · exact .error (by simp)
  · exact .error (by simp)

theorem mapOf_solvent (items : List Value) (entries : List (String × Value)) :
    Solvent (mapOf items entries) := by
  induction items, entries using mapOf.induct with
  | case1 key value rest entries ih => exact ih
  | case2 other value rest entries hother =>
    unfold mapOf
    split
    · rename_i heq
      simp only [List.cons.injEq] at heq
      exact absurd heq.1 (hother _)
    · exact .error (by simp)
    · exact .ok _
  | case3 items entries h₁ h₂ =>
    unfold mapOf
    split
    · exact absurd rfl (h₁ _ _ _)
    · exact absurd rfl (h₂ _ _ _)
    · exact .ok _

end Value

namespace Exec

variable {α : Type} {x : Setting} {a b k : Nat}

theorem lift_draws {e : Except Trap α} (h : Solvent e) : Draws k (lift e) := by
  cases e with
  | ok y => exact .pure y
  | error t => exact .throw fun heq => h t rfl (by cases heq; rfl)

/-- The value of an operator is paid for. -/
theorem yield_draws {e : Except Trap Value} (h : Solvent e) : Draws 1 (lift e >>= pushNew) :=
  (lift_draws h).after pushNew_draws

theorem answer_draws (place : Nat) (v : Value) : Draws 1 (answer place v) :=
  .after (.modify fun _ _ => rfl) fun _ => pushNew_draws v

/-- A call of a function takes nothing; the answer of a builtin or host function is paid for. -/
theorem call_draws (args : Nat) : Draws 1 (call x args) := by
  refine .get (fun m => ?_) fun _ _ => rfl
  dsimp only
  split
  · exact invalid_draws
  · refine .get (fun m => ?_) fun _ _ => rfl
    split
    · exact enter_draws _ _ _ _
    · exact enter_draws _ _ _ _
    · refine (popFrom_draws _).after fun vs => ?_
      split
      · exact answer_draws _ _
      · exact .throw (by simp)
    · refine (popFrom_draws _).after fun vs => ?_
      split
      · exact answer_draws _ _
      · exact .throw (by simp)
      · exact .throw (by simp)
      · exact .after (.modify fun _ _ => rfl) fun _ => answer_draws _ _
    · exact .throw (by simp)

/-- A closure is paid for before it is counted. -/
theorem close_draws (index captured : Nat) : Draws 1 (close x index captured) := by
  unfold close
  split
  · refine (popMany_draws captured).after fun free => allocate_draws.before fun _ => ?_
    exact .after (.modifyGet fun _ _ => rfl) fun _ => push_draws _
  · exact invalid_draws

theorem perform_draws (op : Opcode) : Draws 1 (perform x op a b) := by
  cases op with
  | constant =>
    simp only [perform]
    split
    · exact push_draws _
    · exact invalid_draws
  | undefined | pushTrue | pushFalse => exact push_draws _
  | pop => exact pop_draws.after fun _ => .pure _
  | arith op =>
    exact pop_draws.after fun r => pop_draws.after fun l => yield_draws (op.solvent l r)
  | order c =>
    exact pop_draws.after fun r => pop_draws.after fun l => yield_draws (c.solvent l r)
  | equal | notEqual => exact pop_draws.after fun _ => pop_draws.after fun _ => push_draws _
  | negate => exact pop_draws.after fun v => yield_draws v.negate_solvent
  | not => exact pop_draws.after fun _ => push_draws _
  | jump => exact jump_draws a
  | jumpFalsy =>
    refine pop_draws.after fun v => ?_
    split
    · exact .pure _
    · exact jump_draws a
  | andJump =>
    refine peek_draws.after fun v => ?_
    split
    · exact pop_draws.after fun _ => .pure _
    · exact jump_draws a
  | orJump =>
    refine peek_draws.after fun v => ?_
    split
    · exact jump_draws a
    · exact pop_draws.after fun _ => .pure _
  | getGlobal => exact .get (fun _ => push_draws _) fun _ _ => rfl
  | setGlobal => exact pop_draws.after fun _ => .modify fun _ _ => rfl
  | getLocal =>
    exact (localPlace_draws a).after fun _ => .get (fun _ => push_draws _) fun _ _ => rfl
  | setLocal =>
    exact pop_draws.after fun _ => (localPlace_draws a).after fun _ => .modify fun _ _ => rfl
  | getBuiltin =>
    simp only [perform]
    split
    · exact push_draws _
    · exact invalid_draws
  | getFree =>
    refine .get (fun m => ?_) fun _ _ => rfl
    split
    · exact push_draws _
    · exact invalid_draws
  | array => exact (popMany_draws a).after fun _ => pushNew_draws _
  | map => exact (popMany_draws (2 * a)).after fun vs => yield_draws (Value.mapOf_solvent vs [])
  | index =>
    exact pop_draws.after fun i => pop_draws.after fun c =>
      (lift_draws (c.element_solvent i)).after push_draws
  | setIndex =>
    exact pop_draws.after fun v => pop_draws.after fun i => pop_draws.after fun c =>
      yield_draws (c.replaceElement_solvent i v)
  | call => exact call_draws a
  | closure => exact close_draws a b
  | ret | suspend => exact .pure _

theorem execute_draws (i : Instruction) : Draws 1 (execute x i) := by
  obtain ⟨op, a, b⟩ := i
  cases op with
  | ret =>
    simp only [execute]
    split
    · exact pop_draws.after leave_draws
    · exact leave_draws _
  | suspend => exact .pure _
  | _ => exact (perform_draws _).before fun _ => .pure _

/-- An instruction takes at most one allocation. -/
theorem step_draws : Draws 1 (step x) := by
  refine fetch_draws.after fun i? => ?_
  cases i? with
  | some i => exact execute_draws i
  | none => exact leave_draws _

end Exec

end ScriptEngine
