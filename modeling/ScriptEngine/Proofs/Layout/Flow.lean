import ScriptEngine.Proofs.Layout.Outline
import ScriptEngine.Proofs.Layout.Program
/-!
The code of every expression leaves one more operand, and that of every statement as many as there
were; all its instructions are sound.
-/
namespace ScriptEngine.Image

variable {L : Image} {R : Body} {whole : List Stmt} {Γ : Names} {pos : Pos} {p q : Nat} {J : Option (Nat × Nat)}
  {ctx : Prop}

theorem constantAt.stretch {v : Value} (h : L.constantAt R pos v p q) (hv : L.Loadable v) :
    L.Stretch R whole 0 1 p q := by
  obtain ⟨k, hk, hpool, hhas⟩ := h
  exact Stretch.of_has hhas ⟨v, hpool, hv⟩ (fun _ => trivial) fun _ _ => ⟨hk, Nat.one_pos⟩

theorem literalAt.stretch {l : Literal} (h : L.literalAt R pos l p q) : L.Stretch R whole 0 1 p q := by
  have hplain {op : Opcode} (hhas : R.Has (some pos) op 0 0 p q)
      (hop : op = .undefined ∨ op = .pushTrue ∨ op = .pushFalse) : L.Stretch R whole 0 1 p q := by
    rcases hop with rfl | rfl | rfl <;>
      exact Stretch.of_has hhas trivial (fun _ => trivial) fun _ _ => ⟨Nat.one_pos, Nat.one_pos⟩
  cases l with
  | undefined => exact hplain h (Or.inl rfl)
  | bool b =>
    cases b with
    | false => exact hplain h (Or.inr (Or.inr rfl))
    | true => exact hplain h (Or.inr (Or.inl rfl))
  | int n => exact constantAt.stretch h trivial
  | float x => exact constantAt.stretch h trivial
  | char c => exact constantAt.stretch h trivial
  | string s => exact constantAt.stretch h trivial

/-- The frame of a routine fits one byte. -/
structure Narrow (R : Body) : Prop where
  locals : R.locals ≤ Compile.maxLocals
  captured : R.captured.length ≤ Compile.maxArgs

section Names

variable (hR : Narrow R)
include hR

theorem loadAt.stretch {x : String} (h : L.loadAt R Γ pos x p q) : L.Stretch R whole 0 1 p q := by
  obtain ⟨storage, i, _, hwithin, hhas⟩ := h
  have hlocals := hR.locals
  have hcaptured := hR.captured
  simp only [Compile.maxLocals, Compile.maxArgs] at hlocals hcaptured
  cases storage with
  | global =>
    refine Stretch.of_has hhas hwithin (fun _ => trivial) fun hcells _ => ⟨?_, Nat.one_pos⟩
    exact Nat.lt_of_lt_of_le hwithin (hcells rfl)
  | frame =>
    refine Stretch.of_has hhas hwithin (fun _ => trivial) fun _ _ => ⟨?_, Nat.one_pos⟩
    exact Nat.lt_of_lt_of_le hwithin hlocals
  | builtin =>
    refine Stretch.of_has hhas hwithin (fun _ => trivial) fun _ _ => ⟨?_, Nat.one_pos⟩
    exact Nat.lt_of_lt_of_le hwithin (show 8 ≤ 256 by decide)
  | free =>
    refine Stretch.of_has hhas hwithin (fun _ => trivial) fun _ _ => ⟨?_, Nat.one_pos⟩
    exact Nat.lt_of_lt_of_le hwithin (by show R.captured.length ≤ 256; omega)

theorem loadsAt.stretch {names : List String} (h : L.loadsAt R Γ pos names p q) :
    L.Stretch R whole 0 names.length p q := by
  induction names generalizing p with
  | nil =>
    obtain rfl : p = q := h
    exact Stretch.nil
  | cons x rest ih =>
    obtain ⟨m, hx, hrest⟩ := h
    exact (loadAt.stretch hR hx).seq (ih hrest) (by omega) (by omega)
      (by simp only [List.length_cons]; omega)

theorem fillAt.stretch {x : String} (h : L.fillAt R Γ pos x p q) : L.Stretch R whole 1 (-1) p q := by
  have hlocals := hR.locals
  obtain ⟨i, ⟨_, hlt, hhas⟩ | ⟨_, hlt, hhas⟩⟩ := h
  · exact Stretch.of_has hhas hlt (fun _ => trivial) fun _ _ =>
      ⟨Nat.lt_of_lt_of_le hlt hlocals, Nat.one_pos⟩
  · exact Stretch.of_has hhas hlt (fun _ => trivial) fun hcells _ =>
      ⟨Nat.lt_of_lt_of_le hlt (hcells rfl), Nat.one_pos⟩

theorem functionAt.stretch {R' : Body} {id : FunctionId} {k : Nat} (hk : k < Compile.maxConstants)
    (hpool : L.pool[k]? = some (.function id R'.routine)) (hdefines : L.Defines R')
    (h : L.functionAt R Γ pos k R'.captured p q) : L.Stretch R whole 0 1 p q := by
  have hlen := hdefines.1.captured
  simp only [Compile.maxArgs] at hlen
  have hcallable : L.Callable R'.routine R'.captured.length := ⟨R', rfl, rfl, hdefines⟩
  unfold functionAt at h
  split at h
  · rename_i hnone
    rw [hnone] at hcallable
    exact Stretch.of_has h ⟨_, hpool, hcallable⟩ (fun _ => trivial) fun _ _ => ⟨hk, Nat.one_pos⟩
  · obtain ⟨m, hloads, hhas⟩ := h
    refine (loadsAt.stretch hR hloads).seq (Stretch.of_has hhas ⟨_, _, hpool, hcallable⟩
      (fun _ => trivial) fun _ _ => ⟨hk, ?_⟩) (by omega) ?_ ?_
    · show R'.captured.length < 256
      omega
    · simp [Instruction.takes]
    · simp [Instruction.effect, Instruction.takes, Instruction.gives]

end Names

/-- Every module that there is compiles to its function. -/
abbrev HasModules (L : Image) : Prop := ∀ key f, L.modules key = some f → L.ModuleAt key f

theorem importAt.stretch (hmodules : L.HasModules) {name : String}
    (h : L.importAt R pos name p q) : L.Stretch R whole 0 1 p q := by
  have hcall {key : String} {f : Value} {m : Nat} (hf : L.modules key = some f)
      (hconstant : L.constantAt R pos f p m) (hhas : R.Has (some pos) .call 0 0 m q) :
      L.Stretch R whole 0 1 p q := by
    obtain ⟨_, _, body, R', _, rfl, _, _, _, hcaptured, hsmall, hbody⟩ := hmodules key f hf
    have hloadable : L.Loadable (.function (L.ids (some key) 0) R'.routine) :=
      ⟨R', rfl, by simp [hcaptured], hsmall, Or.inr ⟨body, hbody⟩⟩
    exact (hconstant.stretch hloadable).seq (Stretch.of_has hhas trivial (fun _ => trivial)
      fun _ _ => ⟨by decide, Nat.one_pos⟩) (Nat.le_refl _) (by decide) (by decide)
  unfold importAt at h
  split at h
  · exact constantAt.stretch h rfl
  · obtain ⟨f, m, hf, hconstant, hhas⟩ := h
    exact hcall hf hconstant hhas
  · obtain ⟨_, key, f, m, _, hf, hconstant, hhas⟩ := h
    exact hcall hf hconstant hhas

/-- A single instruction that takes some operands and leaves one. -/
theorem Stretch.operator {op : Opcode} {m : Nat} {n : Nat} {more : Int} (h : L.Stretch R whole 0 more p m)
    (hhas : R.Has (some pos) op n 0 m q)
    (hplain : op.isJump = false ∧ L.Refers R ⟨op, n, 0⟩ ∧ Instruction.Fits ⟨op, n, 0⟩)
    (htakes : Instruction.takes ⟨op, n, 0⟩ ≤ more)
    (heffect : more + Instruction.effect ⟨op, n, 0⟩ = 1) : L.Stretch R whole 0 1 p q :=
  h.seq (Stretch.of_has hhas hplain.2.1 (fun _ => by
    cases op <;> simp [Opcode.isJump] at hplain <;> trivial) fun _ _ => hplain.2.2)
    (Nat.le_refl _) (by omega) heffect.symm

/-- An instruction without operands of its own that takes two values and leaves one. -/
theorem Stretch.pair {op : Opcode} {m : Nat} (h : L.Stretch R whole 0 2 p m)
    (hhas : R.Has (some pos) op 0 0 m q)
    (hop : op.isPair = true) : L.Stretch R whole 0 1 p q := by
  cases op
  all_goals first
    | exact absurd hop Bool.false_ne_true
    | exact h.operator hhas ⟨rfl, trivial, Nat.one_pos, Nat.one_pos⟩ (Int.le_refl 2) rfl

/-- Two values, one after the other. -/
theorem Stretch.both {m : Nat} (h : L.Stretch R whole 0 1 p m) (h' : L.Stretch R whole 0 1 m q) :
    L.Stretch R whole 0 2 p q :=
  h.seq h' (by omega) (by omega) (by omega)

/-- A value and the instructions that store it. -/
theorem Stretch.stored {m : Nat} (h : L.Stretch R whole 0 1 p m)
    (h' : L.Stretch R whole 1 (-1) m q) : L.Stretch R whole 0 0 p q :=
  h.seq h' (by omega) (by omega) (by omega)

/-- What is made of a container, a place in it and the value to be stored there. -/
theorem Stretch.replaced {m n : Nat} (h : L.Stretch R whole 0 2 p m)
    (h' : L.Stretch R whole 0 1 m n) (hhas : R.Has (some pos) .setIndex 0 0 n q) :
    L.Stretch R whole 0 1 p q :=
  (h.seq h' (k := 0) (d := 3) (by omega) (by omega) (by omega)).operator hhas
    ⟨rfl, trivial, Nat.one_pos, Nat.one_pos⟩ (by decide) (by decide)

mutual

theorem exprAt.stretch (hmodules : L.HasModules) (hR : Narrow R) {Γ : Names} {p q : Nat} :
    (e : Expr) → L.exprAt R Γ e p q → L.Stretch R whole 0 1 p q
  | .lit pos l, h => literalAt.stretch h
  | .name pos x, h => loadAt.stretch hR h
  | .array pos items, ⟨hlen, m, hitems, hhas⟩ => by
    refine (exprsAt.stretch hmodules hR items hitems).operator hhas ⟨rfl, trivial, ?_, Nat.one_pos⟩
      (by simp [Instruction.takes]) (by simp [Instruction.effect, Instruction.takes,
        Instruction.gives])
    exact Nat.lt_succ_of_le hlen
  | .map pos entries, ⟨hlen, m, hentries, hhas⟩ => by
    refine (entriesAt.stretch hmodules hR entries hentries).operator hhas
      ⟨rfl, trivial, ?_, Nat.one_pos⟩
      (by simp [Instruction.takes]) (by simp [Instruction.effect, Instruction.takes,
        Instruction.gives])
    exact Nat.lt_succ_of_le hlen
  | .unary pos op e, ⟨m, he, hhas⟩ => by
    cases op <;>
      exact (exprAt.stretch hmodules hR e he).operator hhas ⟨rfl, trivial, Nat.one_pos, Nat.one_pos⟩
        (by decide) (by decide)
  | .binary pos op left right, h => by
    unfold exprAt at h
    split at h
    · rename_i hop
      obtain ⟨hq, m, n, hl, hhas, hr⟩ := h
      have haims : L.Aims R whole m q op.opcode := .operand hop hl hhas hr
      have hl := exprAt.stretch hmodules hR left hl
      have hr := exprAt.stretch hmodules hR right hr
      have hjump : L.Stretch R whole 1 (-1) m n := by
        have hbound := hr.bound hhas.bound
        have hrise := hr.rise hhas.bound
        have hlt := hhas.lt
        have hle := hr.le
        cases op <;> simp [BinaryOp.shortCircuits] at hop
        all_goals
          have hn := hhas.rise
          simp only [Instruction.effect, Instruction.gives, Instruction.takes, BinaryOp.opcode]
            at hn
          refine Stretch.of_has hhas trivial (fun _ => ⟨hbound, hq, ?_, haims, ?_⟩)
            (by simp [Opcode.isJump, BinaryOp.opcode])
          · omega
          · omega
      exact (hl.seq hjump (k := 0) (d := 0) (by omega) (by omega) (by omega)).seq hr
        (by omega) (by omega) (by omega)
    · rename_i hop
      obtain ⟨m, n, hl, hr, hhas⟩ := h
      have hboth := (exprAt.stretch hmodules hR left hl).both (exprAt.stretch hmodules hR right hr)
      cases op <;> simp [BinaryOp.shortCircuits] at hop
      case equal => exact hboth.pair hhas rfl
      case notEqual => exact hboth.pair hhas rfl
      case order c => cases c <;> exact hboth.pair hhas rfl
      case arith op => cases op <;> exact hboth.pair hhas rfl
  | .call pos callee args, ⟨hlen, m, n, hc, ha, hhas⟩ => by
    have hboth := (exprAt.stretch hmodules hR callee hc).seq (exprsAt.stretch hmodules hR args ha)
      (k := 0) (by omega) (by omega) rfl
    refine hboth.operator hhas ⟨rfl, trivial, ?_, Nat.one_pos⟩ ?_ ?_
    · exact Nat.lt_succ_of_le hlen
    · simp only [Instruction.takes]
      omega
    · simp only [Instruction.effect, Instruction.takes, Instruction.gives]
      omega
  | .index pos container index, ⟨m, n, hc, hi, hhas⟩ =>
    ((exprAt.stretch hmodules hR container hc).both (exprAt.stretch hmodules hR index hi)).pair
      hhas rfl
  | .field pos container name, ⟨m, n, hc, hkey, hhas⟩ =>
    ((exprAt.stretch hmodules hR container hc).both (hkey.stretch trivial)).pair hhas rfl
  | .func pos params body,
      ⟨k, R', hk, hpool, _, _, _, hsmall, _, hbody, hload⟩ =>
    functionAt.stretch hR hk hpool ⟨hsmall, Or.inl ⟨_, pos, body, hbody⟩⟩ hload
  | .load pos name, h => importAt.stretch hmodules h

theorem exprsAt.stretch (hmodules : L.HasModules) (hR : Narrow R) {Γ : Names} {p q : Nat} :
    (items : List Expr) → L.exprsAt R Γ items p q →
      L.Stretch R whole 0 items.length p q
  | [], h => (show p = q from h) ▸ Stretch.nil
  | e :: rest, ⟨m, he, hrest⟩ =>
    (exprAt.stretch hmodules hR e he).seq (exprsAt.stretch hmodules hR rest hrest) (by omega)
      (by omega) (by simp only [List.length_cons]; omega)

theorem entriesAt.stretch (hmodules : L.HasModules) (hR : Narrow R) {Γ : Names} {pos : Pos}
    {p q : Nat} : (entries : List (String × Expr)) → L.entriesAt R Γ pos entries p q →
      L.Stretch R whole 0 (2 * entries.length) p q
  | [], h => (show p = q from h) ▸ Stretch.nil
  | (key, e) :: rest, ⟨m, n, hkey, he, hrest⟩ =>
    ((hkey.stretch trivial).both (exprAt.stretch hmodules hR e he)).seq
      (entriesAt.stretch hmodules hR rest hrest) (by omega) (by omega)
      (by simp only [List.length_cons]; omega)

end

section Stores

variable (hmodules : L.HasModules) (hR : Narrow R)
include hmodules hR

theorem storeAt.stretch {pos : Pos} {V : Names → (p q : Nat) → Prop} {Γ : Names} {p q : Nat}
    (hV : ∀ Γ p q, V Γ p q → L.Stretch R whole 0 1 p q) : (place : Expr) →
    L.storeAt R pos V Γ place p q → L.Stretch R whole 0 0 p q
  | .name .., h => by
    obtain ⟨_, hv, hfill⟩ := h
    exact (hV _ _ _ hv).stored (fillAt.stretch hR hfill)
  | .index _ container index, h => by
    refine storeAt.stretch (fun _ _ _ hvalue => ?_) container h
    obtain ⟨_, _, _, hc, hi, hv, hhas⟩ := hvalue
    have hplace : L.Stretch R whole 0 2 _ _ :=
      (exprAt.stretch hmodules hR container hc).both (exprAt.stretch hmodules hR index hi)
    exact hplace.replaced (hV _ _ _ hv) hhas
  | .field _ container _, h => by
    refine storeAt.stretch (fun _ _ _ hvalue => ?_) container h
    obtain ⟨_, _, _, hc, hkey, hv, hhas⟩ := hvalue
    have hplace : L.Stretch R whole 0 2 _ _ :=
      (exprAt.stretch hmodules hR container hc).both (hkey.stretch trivial)
    exact hplace.replaced (hV _ _ _ hv) hhas
  | .lit .., h | .array .., h | .map .., h | .unary .., h | .binary .., h | .call .., h
  | .func .., h | .load .., h => h.elim

/-- An expression and an instruction that takes its value away. -/
theorem exprAt.consumed {Γ : Names} {e : Expr} {op : Opcode} {n m p q : Nat}
    (he : L.exprAt R Γ e p m) (hhas : R.Has (some pos) op n 0 m q)
    (hop : op = .pop ∧ n = 0 ∨ op = .ret ∧ n = 1) : L.Stretch R whole 0 0 p q := by
  rcases hop with ⟨rfl, rfl⟩ | ⟨rfl, rfl⟩
  · exact (exprAt.stretch hmodules hR e he).seq (Stretch.of_has hhas trivial (fun _ => trivial)
      fun _ _ => ⟨by decide, Nat.one_pos⟩) (by omega) (by decide) (by decide)
  · exact (exprAt.stretch hmodules hR e he).seq (Stretch.of_has hhas (Nat.le_refl _)
      (fun _ => trivial) fun _ _ => ⟨by decide, Nat.one_pos⟩) (by omega) (by decide) (by decide)

/-- A condition and the jump that is made if it fails. -/
theorem exprAt.tested {Γ : Names} {e : Expr} {t m p q : Nat} (he : L.exprAt R Γ e p m)
    (hhas : R.Has (some pos) .jumpFalsy t 0 m q) (ht : t ≤ Compile.maxCodeSize) (hqt : q ≤ t)
    (hbound : R.Bound q → R.Bound t) (hrise : R.Bound q → R.rise t = R.rise q)
    (haims : ctx → L.Aims R whole m t .jumpFalsy) : L.Level R whole ctx J p q where
  le := by
    have hcond : L.Stretch R whole 0 1 p m := exprAt.stretch hmodules hR e he
    exact Nat.le_trans hcond.le (Nat.le_of_lt hhas.lt)
  bound _ := hhas.bound
  rise hp := by
    have hcond : L.Stretch R whole 0 1 p m := exprAt.stretch hmodules hR e he
    rw [hhas.rise, hcond.rise hp]
    simp [Instruction.effect, Instruction.gives, Instruction.takes]
  tiled hp hzero _ hctx := by
    have hcond : L.Stretch R whole 0 1 p m := exprAt.stretch hmodules hR e he
    have hm := hcond.rise hp
    have hq := hhas.rise
    have hlt := hhas.lt
    have ht' := hrise hhas.bound
    simp only [Instruction.effect, Instruction.gives, Instruction.takes] at hq
    refine (hcond.tiled hp (by omega)).append (hhas.tiled ⟨?_, trivial, ?_, ?_⟩)
    · simp [Instruction.takes, hm, hzero]
    · exact ⟨hbound hhas.bound, ht, by omega, haims hctx, by omega⟩
    · simp [Opcode.isJump]

end Stores

/-- A jump between statements. -/
theorem Level.jump {t p q : Nat} (hhas : R.Has (some pos) .jump t 0 p q)
    (h : R.Bound p → R.rise p = 0 → R.Open J q → ctx → L.Leads R whole p ⟨.jump, t, 0⟩) :
    L.Level R whole ctx J p q where
  le := Nat.le_of_lt hhas.lt
  bound _ := hhas.bound
  rise _ := by
    rw [hhas.rise]
    simp [Instruction.effect, Instruction.gives, Instruction.takes]
  tiled hp hrise hJ hctx := hhas.tiled ⟨by simp [Instruction.takes, hrise], trivial,
    h hp hrise hJ hctx, by simp [Opcode.isJump]⟩

mutual

theorem stmtAt.level (hmodules : L.HasModules) (hR : Narrow R) {J : Option (Nat × Nat)} {Γ : Names}
    {p q : Nat} : (s : Stmt) → L.stmtAt R J Γ s p q →
    L.Level R whole (L.Stands R whole J Γ s p q) J p q
  | .expr e, ⟨m, he, hhas⟩ =>
    (exprAt.consumed hmodules hR he hhas (Or.inl ⟨rfl, rfl⟩)).level J
  | .define pos x e, h => by
    unfold stmtAt at h
    split at h
    · obtain ⟨m, n, hempty, he, hfill⟩ := h
      have hdefined : L.Stretch R whole 0 0 m q :=
        (exprAt.stretch hmodules hR e he).stored (fillAt.stretch hR hfill)
      cases hf : Γ.functions with
      | nil =>
        simp only [hf] at hempty
        exact hempty ▸ hdefined.level J
      | cons vars around =>
        simp only [hf] at hempty
        obtain ⟨k, hhas, hfill⟩ := hempty
        have hpush : L.Stretch R whole 0 1 p k := Stretch.of_has hhas trivial
          (fun _ => trivial) fun _ _ => ⟨Nat.one_pos, Nat.one_pos⟩
        have hundefined : L.Stretch R whole 0 0 p m :=
          hpush.stored (fillAt.stretch hR hfill)
        exact (hundefined.level J).seq (hdefined.level J)
    · obtain ⟨m, he, hfill⟩ := h
      exact ((exprAt.stretch hmodules hR e he).stored (fillAt.stretch hR hfill)).level J
  | .assign pos none place e, h =>
    (storeAt.stretch hmodules hR (fun _ _ _ h => exprAt.stretch hmodules hR e h) place h).level J
  | .assign pos (some op) place e, h =>
    (storeAt.stretch hmodules hR (fun _ _ _ ⟨m, n, hp, he, hhas⟩ =>
      ((exprAt.stretch hmodules hR place hp).both (exprAt.stretch hmodules hR e he)).pair
        hhas rfl) place h).level J
  | .branch pos cond (.mk place body) none, ⟨hq, m, n, hc, hhas, hb⟩ => by
    have hbody := stmtsAt.level hmodules hR body hb
    refine Level.seq (exprAt.tested hmodules hR hc hhas hq hbody.le hbody.bound hbody.rise
      fun h => .branch h hc hhas hb) (hbody.mono ?_)
    rintro ⟨rest, z, hrow, _⟩
    exact .branch hrow hc hhas hb
  | .branch pos cond (.mk place body) (some orElse), ⟨hq, m, n, k, l, hc, hhas, hb, hhas', ho⟩ => by
    have hbody := stmtsAt.level hmodules hR body hb
    have hother := stmtAt.level hmodules hR orElse ho
    have hjump : L.Level R whole
        (L.Stands R whole J Γ (.branch pos cond (.mk place body) (some orElse)) p q) J k l :=
      Level.jump hhas' fun _ hrise _ hctx => by
        have hl := hhas'.rise
        have hlt := hhas'.lt
        have hle := hother.le
        simp only [Instruction.effect, Instruction.gives, Instruction.takes] at hl
        exact ⟨hother.bound hhas'.bound, hq, by rw [hother.rise hhas'.bound]; omega,
          .behind hctx hhas' ho, Or.inl (by omega)⟩
    have hbody : L.Level R whole
        (L.Stands R whole J Γ (.branch pos cond (.mk place body) (some orElse)) p q) J n k :=
      hbody.mono fun ⟨_, _, hrow, _⟩ => .branch hrow hc hhas hb
    have hfirst := hbody.seq hjump
    refine (Level.seq (exprAt.tested hmodules hR hc hhas (Nat.le_trans hother.le hq) hfirst.le
      hfirst.bound hfirst.rise fun h => .orElse h hc hhas hb ho) hfirst).seq (hother.mono ?_)
    rintro ⟨rest, z, hrow, _⟩
    exact ⟨[], q, .orElse hrow hc hhas hb hhas' ho, ho⟩
  | .loop pos init cond post (.mk place body), h => by
    obtain ⟨hq, m, n, k, l, hi, hc, hb, hp, hhas⟩ := id h
    have hinit := partAt.level hmodules hR init hi
    have hbody := stmtsAt.level hmodules hR body hb
    have hpost := partAt.level hmodules hR post hp
    have hlq := hhas.lt
    have hback := hhas.rise
    simp only [Instruction.effect, Instruction.gives, Instruction.takes] at hback
    have hend (hn : R.Bound n) : R.rise q = R.rise n := by
      rw [hback, hpost.rise (hbody.bound hn), hbody.rise hn]
      omega
    have hkq : k ≤ q := by
      have := hpost.le
      omega
    have hnq : n ≤ q := Nat.le_trans hbody.le hkq
    have htest : L.Level R whole
        (L.Stands R whole J Γ (.loop pos init cond post (.mk place body)) p q) J m n := by
      cases cond with
      | none => exact (show m = n from hc) ▸ Level.nil
      | some e =>
        obtain ⟨x, he, hjump⟩ := hc
        exact exprAt.tested hmodules hR he hjump hq hnq (fun _ => hhas.bound) hend
          fun h => .exit h hi he hjump
    have hfirst : L.Level R whole
        (L.Stands R whole J Γ (.loop pos init cond post (.mk place body)) p q) J p m := by
      refine hinit.mono ?_
      rintro ⟨rest, z, hrow, _⟩ s rfl
      exact ⟨[], m, .init hrow hi, hi⟩
    have hhead := hfirst.seq htest
    refine ⟨Nat.le_trans hhead.le hnq, fun _ => hhas.bound, fun hbound => ?_,
      fun hbound hrise hopen hctx => ?_⟩
    · rw [hend (hhead.bound hbound), hhead.rise hbound]
    · have hn := hhead.bound hbound
      have hm := hfirst.bound hbound
      have hzero : R.rise n = 0 := (hhead.rise hbound).trans hrise
      have hzero' : R.rise k = 0 := (hbody.rise hn).trans hzero
      have hml := Nat.le_trans htest.le (Nat.le_trans hbody.le hpost.le)
      have hinner : R.Open (some (q, k)) k := by
        rintro loopEnd lastPart hJ
        obtain ⟨rfl, rfl⟩ : q = loopEnd ∧ k = lastPart := by simpa using hJ
        exact ⟨Nat.le_refl _, hkq, hq, hbody.bound hn, hhas.bound, hzero', (hend hn).trans hzero⟩
      have hloop : L.Sound R whole l ⟨.jump, m, 0⟩ := by
        refine ⟨?_, trivial, ⟨hm, by omega, ?_, .back hctx hi hhas, Or.inr ?_⟩,
          by simp [Opcode.isJump]⟩
        · simp [Instruction.takes, hpost.rise (hbody.bound hn), hzero']
        · rw [hpost.rise (hbody.bound hn), hzero', hfirst.rise hbound, hrise]
        · exact ⟨J, Γ, pos, init, cond, post, .mk place body, p, q, hctx, hi, hhas, hml⟩
      obtain ⟨rest, z, hrow, _⟩ := hctx
      have hlast (s : Stmt) (hs : post = some s) : L.Stands R whole J
          ((Block.mk place body).after ((Stmt.afterPart init Γ).skip (Expr.partLiterals cond)))
          s k l := by
        subst hs
        exact ⟨[], l, .post hrow hi hc hb hp hhas, hp⟩
      exact (((hhead.tiled hbound hrise (hopen.mono hnq) ⟨rest, z, hrow, h⟩).append
        (hbody.tiled hn hzero hinner (.body hrow hi hc hb hhas))).append
        (hpost.tiled (hbody.bound hn) hzero' (hopen.mono (Nat.le_of_lt hlq)) hlast)).append
        (hhas.tiled hloop)
  | .breakLoop pos, ⟨loopEnd, lastPart, hJ, hhas⟩ =>
    Level.jump hhas fun _ hrise hopen hctx => by
      obtain ⟨hq, hle, hmax, _, hbound, _, hend⟩ := hopen loopEnd lastPart hJ
      have hlt := hhas.lt
      subst hJ
      exact ⟨hbound, hmax, hend.trans hrise.symm, .breakLoop hctx, Or.inl (by omega)⟩
  | .continueLoop pos, ⟨loopEnd, lastPart, hJ, hhas⟩ =>
    Level.jump hhas fun _ hrise hopen hctx => by
      obtain ⟨hq, hle, hmax, hbound, _, hlast, _⟩ := hopen loopEnd lastPart hJ
      have hlt := hhas.lt
      subst hJ
      exact ⟨hbound, by omega, hlast.trans hrise.symm, .continueLoop hctx, Or.inl (by omega)⟩
  | .returnValue pos none, ⟨_, hhas⟩ =>
    have hreturn : L.Stretch R whole 0 0 p q := Stretch.of_has hhas (Nat.zero_le _)
      (fun _ => trivial) fun _ _ => ⟨by decide, Nat.one_pos⟩
    hreturn.level J
  | .returnValue pos (some e), ⟨_, m, he, hhas⟩ =>
    (exprAt.consumed hmodules hR he hhas (Or.inr ⟨rfl, rfl⟩)).level J
  | .exportValue pos e, ⟨_, m, he, hhas⟩ =>
    (exprAt.consumed hmodules hR he hhas (Or.inr ⟨rfl, rfl⟩)).level J
  | .block (.mk place body), h => (stmtsAt.level hmodules hR body h).mono fun ⟨_, _, hrow, _⟩ =>
    .block hrow h

theorem partAt.level (hmodules : L.HasModules) (hR : Narrow R) {J : Option (Nat × Nat)} {Γ : Names}
    {p q : Nat} : (part : Option Stmt) →
    L.partAt R J Γ part p q →
      L.Level R whole (∀ s, part = some s → L.Stands R whole J Γ s p q) J p q
  | none, h => (show p = q from h) ▸ Level.nil
  | some s, h => (stmtAt.level hmodules hR s h).mono fun hs => hs s rfl

theorem stmtsAt.level (hmodules : L.HasModules) (hR : Narrow R) {J : Option (Nat × Nat)} {Γ : Names}
    {p q : Nat} : (stmts : List Stmt) →
    L.stmtsAt R J Γ stmts p q → L.Level R whole (L.Rows R whole J Γ stmts p q) J p q
  | [], h => (show p = q from h) ▸ Level.nil
  | s :: rest, ⟨_, hs, hrest⟩ =>
    ((stmtAt.level hmodules hR s hs).mono fun hrow => ⟨rest, q, hrow, hs⟩).seq
      ((stmtsAt.level hmodules hR rest hrest).mono fun hrow => .next hrow hs hrest)

end

section Texts

variable (hmodules : L.HasModules) (hR : Narrow R)
include hmodules hR

/-- A loop's condition with its jump, if it has one. -/
theorem testAt.clear {Γ : Names} {cond : Option Expr} {t : Nat}
    (h : L.testAt R Γ pos t cond p q) (hp : R.Clear p) : R.Clear q := by
  cases cond with
  | none => exact (show p = q from h) ▸ hp
  | some e =>
    obtain ⟨m, he, hhas⟩ := h
    have hcond : L.Stretch R [] 0 1 p m := exprAt.stretch hmodules hR e he
    refine ⟨hhas.bound, ?_⟩
    rw [hhas.rise, hcond.rise hp.1, hp.2]
    simp [Instruction.effect, Instruction.gives, Instruction.takes]

/-- Statements of the text start and end without operands. -/
theorem Rows.clear {Γ : Names} {stmts : List Stmt} (h : L.Rows R whole J Γ stmts p q) :
    R.Clear p ∧ R.Clear q := by
  have hstmt {J : Option (Nat × Nat)} {Γ : Names} {s : Stmt} {p q : Nat}
      (h : L.stmtAt R J Γ s p q) (hp : R.Clear p) : R.Clear q :=
    have hlevel : L.Level R whole _ J p q := stmtAt.level hmodules hR s h
    hlevel.clear hp
  have hstmts {J : Option (Nat × Nat)} {Γ : Names} {stmts : List Stmt} {p q : Nat}
      (h : L.stmtsAt R J Γ stmts p q) (hp : R.Clear p) : R.Clear q :=
    have hlevel : L.Level R whole _ J p q := stmtsAt.level hmodules hR stmts h
    hlevel.clear hp
  have hpart {J : Option (Nat × Nat)} {Γ : Names} {part : Option Stmt} {p q : Nat}
      (h : L.partAt R J Γ part p q) (hp : R.Clear p) : R.Clear q :=
    have hlevel : L.Level R whole _ J p q := partAt.level hmodules hR part h
    hlevel.clear hp
  have htest {Γ : Names} {pos : Pos} {cond : Expr} {t p m n : Nat} (h : L.exprAt R Γ cond p m)
      (hj : R.Has (some pos) .jumpFalsy t 0 m n) (hp : R.Clear p) : R.Clear n :=
    have hcond : L.testAt R Γ pos t (some cond) p n := ⟨m, h, hj⟩
    testAt.clear hmodules hR hcond hp
  induction h with
  | root h =>
    have hzero : R.Clear 0 := ⟨Encoding.boundary_zero, R.rise_zero⟩
    exact ⟨hzero, hstmts h hzero⟩
  | next h hs hrest ih => exact ⟨hstmt hs ih.1, ih.2⟩
  | block h hb ih => exact ⟨ih.1, hstmts hb ih.1⟩
  | branch h hc hj hb ih =>
    have hn := htest hc hj ih.1
    exact ⟨hn, hstmts hb hn⟩
  | @orElse _ _ _ _ body _ _ _ _ _ _ _ _ _ h hc hj hb hk ho ih =>
    have hn := htest hc hj ih.1
    obtain ⟨place, stmts⟩ := body
    have hbody := hstmts hb hn
    have hl : R.Clear _ := ⟨hk.bound, by
      rw [hk.rise, hbody.2]
      simp [Instruction.effect, Instruction.gives, Instruction.takes]⟩
    exact ⟨hl, hstmt ho hl⟩
  | init h hi ih => exact ⟨ih.1, hstmt hi ih.1⟩
  | body h hi hc hb hk ih =>
    have hn := testAt.clear hmodules hR hc (hpart hi ih.1)
    exact ⟨hn, hstmts hb hn⟩
  | @post _ _ _ _ _ _ body _ _ _ _ _ _ _ _ h hi hc hb hp hk ih =>
    have hn := testAt.clear hmodules hR hc (hpart hi ih.1)
    obtain ⟨place, stmts⟩ := body
    have hlast := hstmts hb hn
    exact ⟨hlast, hstmt hp hlast⟩

/-- Statements from the start of the code on, and an instruction that ends the code or nothing. -/
theorem stmtsAt.tiled {Γ : Names} {m : Nat} {op : Opcode} {pos : Option Pos}
    (h : L.stmtsAt R none Γ whole 0 m) (hop : op = .ret ∨ op = .suspend)
    (hend : m = R.code.size ∨ R.Has pos op 0 0 m R.code.size) :
    R.Tiled (L.Sound R whole) 0 R.code.size := by
  have hlevel : L.Level R whole (L.Rows R whole none Γ whole 0 m) none 0 m :=
    stmtsAt.level hmodules hR whole h
  have hzero : R.rise 0 = 0 := R.rise_zero
  have hbody := hlevel.tiled Encoding.boundary_zero hzero (fun _ _ hJ => by simp at hJ) (.root h)
  rcases hend with hend | hend
  · exact hend ▸ hbody
  · have hm : R.rise m = 0 := (hlevel.rise Encoding.boundary_zero).trans hzero
    refine hbody.append (hend.tiled ?_)
    rcases hop with rfl | rfl
    · exact ⟨by simp [Instruction.takes, hm], Nat.zero_le _, trivial,
        fun _ _ => ⟨by decide, Nat.one_pos⟩⟩
    · exact ⟨by simp [Instruction.takes, hm], trivial, trivial,
        fun _ _ => ⟨Nat.one_pos, Nat.one_pos⟩⟩

end Texts

/-- The code of a function or a module is sound throughout. -/
theorem Defines.tiled (hmodules : L.HasModules) (h : L.Defines R) :
    ∃ whole, L.IsText R whole ∧ R.Tiled (L.Sound R whole) 0 R.code.size := by
  obtain ⟨hsmall, htext⟩ := h
  have hnarrow : Narrow R := ⟨hsmall.locals, hsmall.captured⟩
  obtain ⟨Γ, pos, ⟨place, stmts⟩, hbody⟩ | ⟨stmts, hbody⟩ := htext
  · obtain ⟨m, hstmts, hend⟩ := id hbody
    refine ⟨stmts, Or.inl ⟨Γ, pos, place, hbody⟩, ?_⟩
    split at hend
    · exact stmtsAt.tiled hmodules hnarrow hstmts (Or.inl rfl) (@Or.inl _ (R.Has none _ 0 0 m _) hend)
    · exact stmtsAt.tiled hmodules hnarrow hstmts (Or.inl rfl) (Or.inr hend)
  · obtain ⟨m, hstmts, hend⟩ := id hbody
    refine ⟨stmts, Or.inr hbody, ?_⟩
    split at hend
    · exact stmtsAt.tiled hmodules hnarrow hstmts (Or.inl rfl) (@Or.inl _ (R.Has none _ 0 0 m _) hend)
    · exact stmtsAt.tiled hmodules hnarrow hstmts (Or.inl rfl) (Or.inr hend)

/-- So is the code of the main program. -/
theorem Lays.tiled (hmodules : L.HasModules) {body : List Stmt} (h : L.Lays R Γ body) :
    R.Tiled (L.Sound R body) 0 R.code.size := by
  obtain ⟨m, hstmts, hend⟩ := h.code
  exact stmtsAt.tiled hmodules ⟨by simp [h.locals], by simp [h.captured]⟩ hstmts
    (Or.inr rfl) (Or.inr hend)

end ScriptEngine.Image
