import ScriptEngine.Proofs.Layout.Flow
/-!
What laid out code is made for. Every instruction has the position of a node of the tree that it is
laid out for, and what it loads is data, a function that the tree writes out, or a module. Only the
ends of modules and of the main program, which no construct asks for, have no position.
-/
namespace ScriptEngine

mutual

/-- An expression or a part of it stands at a position, bodies of functions included. -/
def Expr.HasNode (p : Pos) : Expr → Prop
  | .lit pos _ | .name pos _ | .load pos _ => p = pos
  | .array pos items => p = pos ∨ Expr.AnyNode p items
  | .map pos entries => p = pos ∨ Expr.EntryNode p entries
  | .unary pos _ e | .field pos e _ => p = pos ∨ e.HasNode p
  | .binary pos _ left right | .index pos left right => p = pos ∨ left.HasNode p ∨ right.HasNode p
  | .call pos callee args => p = pos ∨ callee.HasNode p ∨ Expr.AnyNode p args
  | .func pos _ body => p = pos ∨ body.HasNode p

def Expr.AnyNode (p : Pos) : List Expr → Prop
  | [] => False
  | e :: rest => e.HasNode p ∨ Expr.AnyNode p rest

def Expr.EntryNode (p : Pos) : List (String × Expr) → Prop
  | [] => False
  | (_, e) :: rest => e.HasNode p ∨ Expr.EntryNode p rest

def Expr.PartNode (p : Pos) : Option Expr → Prop
  | none => False
  | some e => e.HasNode p

/-- A statement or a part of it stands at a position. -/
def Stmt.HasNode (p : Pos) : Stmt → Prop
  | .expr e => e.HasNode p
  | .define pos _ e | .exportValue pos e => p = pos ∨ e.HasNode p
  | .assign pos _ place e => p = pos ∨ place.HasNode p ∨ e.HasNode p
  | .branch pos cond body orElse =>
    p = pos ∨ cond.HasNode p ∨ body.HasNode p ∨ Stmt.PartNode p orElse
  | .loop pos init cond post body => p = pos ∨ Stmt.PartNode p init ∨ Expr.PartNode p cond ∨
    Stmt.PartNode p post ∨ body.HasNode p
  | .breakLoop pos | .continueLoop pos => p = pos
  | .returnValue pos value => p = pos ∨ Expr.PartNode p value
  | .block body => body.HasNode p

def Stmt.PartNode (p : Pos) : Option Stmt → Prop
  | none => False
  | some s => s.HasNode p

def Block.HasNode (p : Pos) : Block → Prop
  | .mk pos body => p = pos ∨ Stmt.AnyNode p body

/-- Some statement of a text has a node at a position. -/
def Stmt.AnyNode (p : Pos) : List Stmt → Prop
  | [] => False
  | s :: rest => s.HasNode p ∨ Stmt.AnyNode p rest

end

theorem Expr.hasNode_pos (e : Expr) : e.HasNode e.pos := by
  cases e <;> simp [HasNode, pos]

theorem BinaryOp.loadsConstant_opcode (op : BinaryOp) : op.opcode.loadsConstant = false := by
  cases op <;> rfl

theorem UnaryOp.loadsConstant_opcode (op : UnaryOp) : op.opcode.loadsConstant = false := by
  cases op <;> rfl

theorem Storage.loadsConstant_load (storage : Storage) : storage.load.loadsConstant = false := by
  cases storage <;> rfl

namespace Image

variable (L : Image) (N : Pos → Prop)

/-- A routine is that of a function that is written out at such nodes of a unit's source. -/
def Written (unit : Option String) (r : Routine) : Prop :=
  ∃ R Γ pos body, Body.routine R = r ∧ R.unit = unit ∧ R.Small ∧ L.bodyAt R Γ pos body ∧ N pos ∧
    ∀ p, body.HasNode p → N p

/-- What code that is made for such nodes of a unit's source may load. -/
def Supplies (unit : Option String) (v : Value) : Prop :=
  (∃ key, L.modules key = some v) ∨
    match v with
    | .function _ r => L.Written N unit r
    | v => L.Constant v

/-- An instruction is made for such a node. -/
structure Made (R : Body) (x : Nat) (i : Instruction) : Prop where
  node : ∃ pos, N pos ∧ R.code.at? x = some (.plain i (some pos))
  loads : i.op.loadsConstant = true → ∀ v, L.pool[i.a]? = some v → L.Supplies N R.unit v

variable {L N} {R : Body} {Γ : Names} {pos : Pos} {op : Opcode} {a b m p q : Nat} {J : Option (Nat × Nat)}

theorem Made.of_has (h : R.Has (some pos) op a b p q) (hN : N pos)
    (hop : op.loadsConstant = false) : R.Tiled (L.Made N R) p q :=
  h.tiled ⟨⟨pos, hN, h.1⟩, fun hloads => absurd hloads (by simp [hop])⟩

/-- What is laid out, and an instruction behind it. -/
theorem Made.has (h : R.Tiled (L.Made N R) p m) (hhas : R.Has (some pos) op a b m q) (hN : N pos)
    (hop : op.loadsConstant = false) : R.Tiled (L.Made N R) p q :=
  h.append (Made.of_has hhas hN hop)

theorem constantAt.made {v : Value} (hN : N pos) (hv : L.Supplies N R.unit v)
    (h : L.constantAt R pos v p q) : R.Tiled (L.Made N R) p q := by
  obtain ⟨k, -, hpool, hhas⟩ := h
  refine hhas.tiled ⟨⟨pos, hN, hhas.1⟩, fun _ w hw => ?_⟩
  obtain rfl : v = w := Option.some.inj (hpool.symm.trans hw)
  exact hv

theorem literalAt.made {l : Literal} (hN : N pos) (h : L.literalAt R pos l p q) :
    R.Tiled (L.Made N R) p q := by
  cases l with
  | undefined => exact Made.of_has h hN rfl
  | bool b => cases b <;> exact Made.of_has h hN rfl
  | int | float | char | string => exact constantAt.made hN (Or.inr trivial) h

theorem loadAt.made {x : String} (hN : N pos) (h : L.loadAt R Γ pos x p q) :
    R.Tiled (L.Made N R) p q := by
  obtain ⟨storage, i, -, -, hhas⟩ := h
  exact Made.of_has hhas hN storage.loadsConstant_load

theorem loadsAt.made {names : List String} (hN : N pos) (h : L.loadsAt R Γ pos names p q) :
    R.Tiled (L.Made N R) p q := by
  induction names generalizing p with
  | nil =>
    obtain rfl : p = q := h
    exact .nil _
  | cons x rest ih =>
    obtain ⟨m, hx, hrest⟩ := h
    exact (hx.made hN).append (ih hrest)

theorem fillAt.made {x : String} (hN : N pos) (h : L.fillAt R Γ pos x p q) :
    R.Tiled (L.Made N R) p q := by
  obtain ⟨i, ⟨-, -, hhas⟩ | ⟨-, -, hhas⟩⟩ := h <;> exact Made.of_has hhas hN rfl

theorem functionAt.made {k : Nat} {captured : List String} {v : Value} (hN : N pos)
    (hpool : L.pool[k]? = some v) (hv : L.Supplies N R.unit v)
    (h : L.functionAt R Γ pos k captured p q) : R.Tiled (L.Made N R) p q := by
  have hloads : ∀ w, L.pool[k]? = some w → L.Supplies N R.unit w := fun w hw => by
    obtain rfl : v = w := Option.some.inj (hpool.symm.trans hw)
    exact hv
  cases captured with
  | nil =>
    have hhas : R.Has (some pos) .constant k 0 p q := h
    exact hhas.tiled ⟨⟨pos, hN, hhas.1⟩, fun _ => hloads⟩
  | cons x rest =>
    obtain ⟨m, hrow, hhas⟩ := h
    exact (hrow.made hN).append (hhas.tiled ⟨⟨pos, hN, hhas.1⟩, fun _ => hloads⟩)

theorem importAt.made {name : String} (hN : N pos) (h : L.importAt R pos name p q) :
    R.Tiled (L.Made N R) p q := by
  unfold importAt at h
  split at h
  · exact h.made hN (Or.inr rfl)
  · obtain ⟨f, m, hf, hconstant, hhas⟩ := h
    exact Made.has (hconstant.made hN (Or.inl ⟨_, hf⟩)) hhas hN rfl
  · obtain ⟨-, key, f, m, -, hf, hconstant, hhas⟩ := h
    exact Made.has (hconstant.made hN (Or.inl ⟨key, hf⟩)) hhas hN rfl

mutual

theorem exprAt.made {Γ : Names} {p q : Nat} : (e : Expr) → (∀ p, e.HasNode p → N p) →
    L.exprAt R Γ e p q → R.Tiled (L.Made N R) p q
  | .lit pos l, hN, h => literalAt.made (hN _ rfl) h
  | .name pos x, hN, h => loadAt.made (hN _ rfl) h
  | .array pos items, hN, ⟨_, _, hitems, hhas⟩ =>
    Made.has (exprsAt.made items (fun _ h => hN _ (.inr h)) hitems) hhas (hN _ (.inl rfl)) rfl
  | .map pos entries, hN, ⟨_, _, hentries, hhas⟩ =>
    Made.has (entriesAt.made entries (hN _ (.inl rfl)) (fun _ h => hN _ (.inr h)) hentries) hhas
      (hN _ (.inl rfl)) rfl
  | .unary pos op e, hN, ⟨_, he, hhas⟩ =>
    Made.has (exprAt.made e (fun _ h => hN _ (.inr h)) he) hhas (hN _ (.inl rfl))
      op.loadsConstant_opcode
  | .binary pos op left right, hN, h => by
    have hpos : N pos := hN _ (.inl rfl)
    have hleft : ∀ p, left.HasNode p → N p := fun _ h => hN _ (.inr (.inl h))
    have hright : ∀ p, right.HasNode p → N p := fun _ h => hN _ (.inr (.inr h))
    unfold exprAt at h
    split at h
    · obtain ⟨-, m, n, hl, hhas, hr⟩ := h
      exact (Made.has (exprAt.made left hleft hl) hhas hpos op.loadsConstant_opcode).append
        (exprAt.made right hright hr)
    · obtain ⟨m, n, hl, hr, hhas⟩ := h
      exact Made.has ((exprAt.made left hleft hl).append (exprAt.made right hright hr)) hhas hpos
        op.loadsConstant_opcode
  | .call pos callee args, hN, ⟨_, _, _, hc, ha, hhas⟩ =>
    Made.has ((exprAt.made callee (fun _ h => hN _ (.inr (.inl h))) hc).append
      (exprsAt.made args (fun _ h => hN _ (.inr (.inr h))) ha)) hhas (hN _ (.inl rfl)) rfl
  | .index pos container index, hN, ⟨_, _, hc, hi, hhas⟩ =>
    Made.has ((exprAt.made container (fun _ h => hN _ (.inr (.inl h))) hc).append
      (exprAt.made index (fun _ h => hN _ (.inr (.inr h))) hi)) hhas (hN _ (.inl rfl)) rfl
  | .field pos container name, hN, ⟨_, _, hc, hkey, hhas⟩ =>
    Made.has ((exprAt.made container (fun _ h => hN _ (.inr h)) hc).append
      (hkey.made (hN _ (.inl rfl)) (.inr trivial))) hhas (hN _ (.inl rfl)) rfl
  | .func pos params body, hN, ⟨k, R', _, hpool, _, hunit, _, hsmall, _, hbody, hload⟩ =>
    functionAt.made (hN _ (.inl rfl)) hpool (.inr ⟨R', _, pos, body, rfl, hunit, hsmall, hbody,
      hN _ (.inl rfl), fun _ h => hN _ (.inr h)⟩) hload
  | .load pos name, hN, h => importAt.made (hN _ rfl) h

theorem exprsAt.made {Γ : Names} {p q : Nat} : (items : List Expr) →
    (∀ p, Expr.AnyNode p items → N p) → L.exprsAt R Γ items p q → R.Tiled (L.Made N R) p q
  | [], _, h => by
    obtain rfl : p = q := h
    exact .nil _
  | e :: rest, hN, ⟨_, he, hrest⟩ => (exprAt.made e (fun _ h => hN _ (.inl h)) he).append
    (exprsAt.made rest (fun _ h => hN _ (.inr h)) hrest)

theorem entriesAt.made {Γ : Names} {pos : Pos} {p q : Nat} :
    (entries : List (String × Expr)) → N pos → (∀ p, Expr.EntryNode p entries → N p) →
    L.entriesAt R Γ pos entries p q → R.Tiled (L.Made N R) p q
  | [], _, _, h => by
    obtain rfl : p = q := h
    exact .nil _
  | (_, e) :: rest, hpos, hN, ⟨_, _, hkey, he, hrest⟩ =>
    ((hkey.made hpos (.inr trivial)).append (exprAt.made e (fun _ h => hN _ (.inl h)) he)).append
      (entriesAt.made rest hpos (fun _ h => hN _ (.inr h)) hrest)

end

theorem storeAt.made {pos : Pos} {V : Names → (p q : Nat) → Prop} {Γ : Names} {p q : Nat}
    (hpos : N pos) (hV : ∀ Γ p q, V Γ p q → R.Tiled (L.Made N R) p q) : (place : Expr) →
    (∀ p, place.HasNode p → N p) → L.storeAt R pos V Γ place p q → R.Tiled (L.Made N R) p q
  | .name .., _, ⟨_, hv, hfill⟩ => (hV _ _ _ hv).append (hfill.made hpos)
  | .index _ container index, hN, h => by
    refine storeAt.made hpos ?_ container (fun _ h => hN _ (.inr (.inl h))) h
    rintro _ _ _ ⟨_, _, _, hc, hi, hv, hhas⟩
    exact Made.has (((exprAt.made container (fun _ h => hN _ (.inr (.inl h))) hc).append
      (exprAt.made index (fun _ h => hN _ (.inr (.inr h))) hi)).append (hV _ _ _ hv)) hhas hpos rfl
  | .field _ container _, hN, h => by
    refine storeAt.made hpos ?_ container (fun _ h => hN _ (.inr h)) h
    rintro _ _ _ ⟨_, _, _, hc, hkey, hv, hhas⟩
    exact Made.has (((exprAt.made container (fun _ h => hN _ (.inr h)) hc).append
      (constantAt.made (hN _ (.inl rfl)) (.inr trivial) hkey)).append (hV _ _ _ hv)) hhas hpos rfl
  | .lit .., _, h | .array .., _, h | .map .., _, h | .unary .., _, h | .binary .., _, h
  | .call .., _, h | .func .., _, h | .load .., _, h => h.elim

theorem testAt.made {Γ : Names} {pos : Pos} {loopEnd p q : Nat} (hpos : N pos) :
    (cond : Option Expr) → (∀ p, Expr.PartNode p cond → N p) →
    L.testAt R Γ pos loopEnd cond p q → R.Tiled (L.Made N R) p q
  | none, _, h => by
    obtain rfl : p = q := h
    exact .nil _
  | some e, hN, ⟨_, he, hhas⟩ => Made.has (exprAt.made e hN he) hhas hpos rfl

mutual

theorem stmtAt.made {J : Option (Nat × Nat)} {Γ : Names} {p q : Nat} : (s : Stmt) →
    (∀ p, s.HasNode p → N p) → L.stmtAt R J Γ s p q → R.Tiled (L.Made N R) p q
  | .expr e, hN, ⟨_, he, hhas⟩ => Made.has (exprAt.made e hN he) hhas (hN _ e.hasNode_pos) rfl
  | .define pos x e, hN, h => by
    have hpos : N pos := hN _ (.inl rfl)
    have hvalue : ∀ p, e.HasNode p → N p := fun _ h => hN _ (.inr h)
    unfold stmtAt at h
    split at h
    · obtain ⟨m, n, hempty, he, hfill⟩ := h
      have hdefined := (exprAt.made e hvalue he).append (hfill.made hpos)
      cases hf : Γ.functions with
      | nil =>
        simp only [hf] at hempty
        exact hempty ▸ hdefined
      | cons vars around =>
        simp only [hf] at hempty
        obtain ⟨k, hhas, hfill⟩ := hempty
        exact ((Made.of_has hhas hpos rfl).append (hfill.made hpos)).append hdefined
    · obtain ⟨m, he, hfill⟩ := h
      exact (exprAt.made e hvalue he).append (hfill.made hpos)
  | .assign pos none place e, hN, h =>
    storeAt.made (hN _ (.inl rfl)) (fun _ _ _ h =>
      exprAt.made e (fun _ h => hN _ (.inr (.inr h))) h) place
      (fun _ h => hN _ (.inr (.inl h))) h
  | .assign pos (some op) place e, hN, h =>
    storeAt.made (hN _ (.inl rfl)) (fun _ _ _ ⟨_, _, hp, he, hhas⟩ =>
      Made.has ((exprAt.made place (fun _ h => hN _ (.inr (.inl h))) hp).append
        (exprAt.made e (fun _ h => hN _ (.inr (.inr h))) he)) hhas (hN _ (.inl rfl)) rfl) place
      (fun _ h => hN _ (.inr (.inl h))) h
  | .branch pos cond body none, hN, ⟨_, _, _, hc, hhas, hb⟩ =>
    (Made.has (exprAt.made cond (fun _ h => hN _ (.inr (.inl h))) hc) hhas (hN _ (.inl rfl))
      rfl).append (blockAt.made body (fun _ h => hN _ (.inr (.inr (.inl h)))) hb)
  | .branch pos cond body (some orElse), hN, ⟨_, _, _, _, _, hc, hhas, hb, hhas', ho⟩ =>
    (Made.has ((Made.has (exprAt.made cond (fun _ h => hN _ (.inr (.inl h))) hc) hhas
      (hN _ (.inl rfl)) rfl).append (blockAt.made body (fun _ h => hN _ (.inr (.inr (.inl h)))) hb))
      hhas' (hN _ (.inl rfl)) rfl).append
      (stmtAt.made orElse (fun _ h => hN _ (.inr (.inr (.inr h)))) ho)
  | .loop pos init cond post body, hN, ⟨_, _, _, _, _, hi, hc, hb, hp, hhas⟩ =>
    Made.has ((((partAt.made init (fun _ h => hN _ (.inr (.inl h))) hi).append
      (testAt.made (hN _ (.inl rfl)) cond (fun _ h => hN _ (.inr (.inr (.inl h)))) hc)).append
      (blockAt.made body (fun _ h => hN _ (.inr (.inr (.inr (.inr h))))) hb)).append
      (partAt.made post (fun _ h => hN _ (.inr (.inr (.inr (.inl h))))) hp)) hhas
      (hN _ (.inl rfl)) rfl
  | .breakLoop pos, hN, ⟨_, _, _, hhas⟩ => Made.of_has hhas (hN _ rfl) rfl
  | .continueLoop pos, hN, ⟨_, _, _, hhas⟩ => Made.of_has hhas (hN _ rfl) rfl
  | .returnValue pos none, hN, ⟨_, hhas⟩ => Made.of_has hhas (hN _ (.inl rfl)) rfl
  | .returnValue pos (some e), hN, ⟨_, _, he, hhas⟩ =>
    Made.has (exprAt.made e (fun _ h => hN _ (.inr h)) he) hhas (hN _ (.inl rfl)) rfl
  | .exportValue pos e, hN, ⟨_, _, he, hhas⟩ =>
    Made.has (exprAt.made e (fun _ h => hN _ (.inr h)) he) hhas (hN _ (.inl rfl)) rfl
  | .block body, hN, h => blockAt.made body hN h

theorem partAt.made {J : Option (Nat × Nat)} {Γ : Names} {p q : Nat} : (part : Option Stmt) →
    (∀ p, Stmt.PartNode p part → N p) → L.partAt R J Γ part p q → R.Tiled (L.Made N R) p q
  | none, _, h => by
    obtain rfl : p = q := h
    exact .nil _
  | some s, hN, h => stmtAt.made s hN h

theorem blockAt.made {J : Option (Nat × Nat)} {Γ : Names} {p q : Nat} : (body : Block) →
    (∀ p, body.HasNode p → N p) → L.blockAt R J Γ body p q → R.Tiled (L.Made N R) p q
  | .mk _ stmts, hN, h => stmtsAt.made stmts (fun _ h => hN _ (.inr h)) h

theorem stmtsAt.made {J : Option (Nat × Nat)} {Γ : Names} {p q : Nat} : (stmts : List Stmt) →
    (∀ p, Stmt.AnyNode p stmts → N p) → L.stmtsAt R J Γ stmts p q → R.Tiled (L.Made N R) p q
  | [], _, h => by
    obtain rfl : p = q := h
    exact .nil _
  | s :: rest, hN, ⟨_, hs, hrest⟩ => (stmtAt.made s (fun _ h => hN _ (.inl h)) hs).append
    (stmtsAt.made rest (fun _ h => hN _ (.inr h)) hrest)

end

end Image

namespace Body

/-- All instructions between two offsets have source positions. -/
def Told (R : Body) (p q : Nat) : Prop :=
  R.Tiled (fun x _ => ∃ i pos, R.code.at? x = some (.plain i (some pos))) p q

variable {R : Body} {op : Opcode} {m p q : Nat} {P P' : Nat → Instruction → Prop}

theorem Tiled.mono (h : R.Tiled P p q) (hP : ∀ x i, P x i → P' x i) : R.Tiled P' p q := by
  induction h with
  | nil => exact .nil _
  | cons hhas hi _ ih => exact .cons hhas (hP _ _ hi) ih

/-- An instruction that ends code and that no construct asks for. -/
def Ends (i : Instruction) : Prop := i = ⟨.ret, 0, 0⟩ ∨ i = ⟨.suspend, 0, 0⟩

/-- Every instruction has a source position or ends the code. -/
def Explains (R : Body) : Prop :=
  ∀ x i pos, R.code.at? x = some (.plain i pos) → (∃ p, pos = some p) ∨ Ends i

/-- In code of instructions of one kind up to an offset, which only one instruction may follow, every
instruction is of the kind or ends the code. -/
theorem Tiled.or_ends (pos : Option Pos) (h : R.Tiled P 0 m) (hop : Ends ⟨op, 0, 0⟩)
    (hend : m = R.code.size ∨ R.Has pos op 0 0 m R.code.size) {x : Nat} {i : Instruction}
    {place : Option Pos} (hx : R.code.at? x = some (.plain i place)) : P x i ∨ Ends i := by
  have htiled : R.Tiled (fun x i => P x i ∨ Ends i) 0 R.code.size := by
    have hfront : R.Tiled (fun x i => P x i ∨ Ends i) 0 m := h.mono fun _ _ => Or.inl
    rcases hend with rfl | hend
    · exact hfront
    · exact hfront.append (hend.tiled (Or.inr hop))
  have hlt : x < R.code.size := by
    have := Encoding.placed_lt_extent Item.size_pos hx
    have := (Item.plain i place).size_pos
    rw [R.code.size_eq]
    omega
  obtain ⟨j, _, heq, hj⟩ := htiled.at? hx (Nat.zero_le x) hlt
  cases heq
  exact hj

theorem Explains.of_told (pos : Option Pos) (h : R.Told 0 m)
    (hop : Ends ⟨op, 0, 0⟩) (hend : m = R.code.size ∨ R.Has pos op 0 0 m R.code.size) :
    R.Explains := by
  intro x i place hx
  rcases h.or_ends pos hop hend hx with ⟨j, p, hat⟩ | hends
  · rw [hx] at hat
    cases hat
    exact Or.inl ⟨p, rfl⟩
  · exact Or.inr hends

end Body

namespace Image

open Body

variable {L : Image} {R : Body} {Γ : Names} {p q : Nat}

theorem stmtsAt.told {J : Option (Nat × Nat)} (stmts : List Stmt)
    (h : L.stmtsAt R J Γ stmts p q) : R.Told p q :=
  (stmtsAt.made (N := fun _ => True) stmts (fun _ _ => trivial) h).mono fun _ i hmade =>
    have ⟨pos, _, hat⟩ := hmade.node
    ⟨i, pos, hat⟩

theorem Defines.explains (h : L.Defines R) : R.Explains := by
  have hret : Ends ⟨.ret, 0, 0⟩ := Or.inl rfl
  obtain ⟨-, ⟨Γ, pos, ⟨place, stmts⟩, hbody⟩ | ⟨stmts, hbody⟩⟩ := h
  · obtain ⟨m, hstmts, hend⟩ := hbody
    split at hend
    · exact .of_told none (stmtsAt.told stmts hstmts) hret (Or.inl hend)
    · exact .of_told _ (stmtsAt.told stmts hstmts) hret (Or.inr hend)
  · obtain ⟨m, hstmts, hend⟩ := hbody
    split at hend
    · exact .of_told none (stmtsAt.told stmts hstmts) hret (Or.inl hend)
    · exact .of_told _ (stmtsAt.told stmts hstmts) hret (Or.inr hend)

theorem Lays.explains {body : List Stmt} (h : L.Lays R Γ body) : R.Explains := by
  obtain ⟨m, hstmts, hend⟩ := h.code
  exact .of_told _ (stmtsAt.told body hstmts) (Or.inr rfl) (Or.inr hend)

end Image

end ScriptEngine
