import ScriptEngine.Proofs.Layout.Basic
/-!
The places at which a program reads or writes a name. Each comes with the names that the program has
defined by then, which may hide names from outside the program.

Every use of a name is an instruction of laid out code. Where it stands, all holds that holds at the
start and is passed on by the program's text: past definitions, blocks and into function literals.
-/
namespace ScriptEngine

/-- A name is read or written. -/
structure NameUse where
  name : String
  pos : Pos
  write : Bool
  /-- The use stands in a function literal. -/
  inFunction : Bool
  /-- Names that the program has defined and that are in force. -/
  defined : List String
  deriving DecidableEq, Repr

/-- The names in force behind a statement. -/
def Stmt.scope : Stmt → List String → List String
  | .define _ x _, defined => x :: defined
  | .branch _ _ _ (some orElse), defined => orElse.scope defined
  | _, defined => defined

def Stmt.partScope : Option Stmt → List String → List String
  | none, defined => defined
  | some s, defined => s.scope defined

mutual

/-- The uses of names in an expression. -/
def Expr.nameUses (inFunction : Bool) (defined : List String) : Expr → List NameUse
  | .lit .. | .load .. => []
  | .name pos x => [⟨x, pos, false, inFunction, defined⟩]
  | .array _ items => Expr.allNameUses inFunction defined items
  | .map _ entries => Expr.entriesNameUses inFunction defined entries
  | .unary _ _ e => e.nameUses inFunction defined
  | .binary _ _ left right => left.nameUses inFunction defined ++ right.nameUses inFunction defined
  | .call _ callee args =>
    callee.nameUses inFunction defined ++ Expr.allNameUses inFunction defined args
  | .index _ container index =>
    container.nameUses inFunction defined ++ index.nameUses inFunction defined
  | .field _ container _ => container.nameUses inFunction defined
  | .func _ params body => body.nameUses true (params ++ defined)

def Expr.allNameUses (inFunction : Bool) (defined : List String) : List Expr → List NameUse
  | [] => []
  | e :: rest => e.nameUses inFunction defined ++ Expr.allNameUses inFunction defined rest

def Expr.entriesNameUses (inFunction : Bool) (defined : List String) :
    List (String × Expr) → List NameUse
  | [] => []
  | (_, e) :: rest => e.nameUses inFunction defined ++ Expr.entriesNameUses inFunction defined rest

def Expr.partNameUses (inFunction : Bool) (defined : List String) : Option Expr → List NameUse
  | none => []
  | some e => e.nameUses inFunction defined

/-- The uses of names in storing a value in a target: a container is read and then stored. -/
def Expr.storeUses (inFunction : Bool) (defined : List String) (pos : Pos) : Expr → List NameUse
  | .name _ x => [⟨x, pos, true, inFunction, defined⟩]
  | .index _ container index =>
    container.nameUses inFunction defined ++ index.nameUses inFunction defined ++
      container.storeUses inFunction defined pos
  | .field _ container _ =>
    container.nameUses inFunction defined ++ container.storeUses inFunction defined pos
  | _ => []

/-- The uses of names in a statement. A function is known by its name in its own body. -/
def Stmt.nameUses (inFunction : Bool) (defined : List String) : Stmt → List NameUse
  | .expr e | .exportValue _ e => e.nameUses inFunction defined
  | .define _ x e => e.nameUses inFunction (if e.isFunc then x :: defined else defined)
  | .assign pos none target e =>
    e.nameUses inFunction defined ++ target.storeUses inFunction defined pos
  | .assign pos (some _) target e =>
    target.nameUses inFunction defined ++ e.nameUses inFunction defined ++
      target.storeUses inFunction defined pos
  | .branch _ cond body orElse =>
    cond.nameUses inFunction defined ++ body.nameUses inFunction defined ++
      Stmt.partNameUses inFunction defined orElse
  | .loop _ init cond post body =>
    let inner := Stmt.partScope init defined
    Stmt.partNameUses inFunction defined init ++ Expr.partNameUses inFunction inner cond ++
      body.nameUses inFunction inner ++ Stmt.partNameUses inFunction inner post
  | .breakLoop _ | .continueLoop _ => []
  | .returnValue _ value => Expr.partNameUses inFunction defined value
  | .block body => body.nameUses inFunction defined

def Stmt.partNameUses (inFunction : Bool) (defined : List String) : Option Stmt → List NameUse
  | none => []
  | some s => s.nameUses inFunction defined

def Block.nameUses (inFunction : Bool) (defined : List String) : Block → List NameUse
  | .mk _ body => Stmt.allNameUses inFunction defined body

/-- The uses of names in statements that follow one another. -/
def Stmt.allNameUses (inFunction : Bool) (defined : List String) : List Stmt → List NameUse
  | [] => []
  | s :: rest =>
    s.nameUses inFunction defined ++ Stmt.allNameUses inFunction (s.scope defined) rest

end

namespace Image

/-- The code of a function literal, and the body of the function. -/
structure FunctionLiteral (L : Image) (R : Body) (Γ : Names) (pos : Pos) (params : List String)
    (body : Block) (R' : Body) (p q : Nat) : Prop where
  code : ∃ k, k < Compile.maxConstants ∧
    L.pool[k]? = some (.function (L.ids R.unit Γ.literal) R'.routine) ∧
    L.functionAt R Γ pos k R'.captured p q
  small : R'.Small
  captures : ∀ x, x ∈ R'.captured ↔ Γ.Captures params body x
  body : L.bodyAt R' (Γ.function params) pos body

/-- What is passed on in the text of a program: something that may hold of a body, with the names in
force there and those among them that the text has defined. -/
structure Context (L : Image) (C : Body → Bool → Names → List String → Prop) : Prop where
  skip : ∀ {R inFunction Γ defined}, C R inFunction Γ defined →
    ∀ n, C R inFunction (Γ.skip n) defined
  define : ∀ {R inFunction Γ defined}, C R inFunction Γ defined →
    ∀ x, C R inFunction (Γ.define x) (x :: defined)
  leave : ∀ {R inFunction Γ defined}, C R inFunction Γ defined →
    ∀ Δ, C R inFunction (Γ.leave Δ) defined
  function : ∀ {R inFunction Γ defined pos params body R' p q}, C R inFunction Γ defined →
    L.FunctionLiteral R Γ pos params body R' p q →
      C R' true (Γ.function params) (params ++ defined)

/-- A use of a name is an instruction in a body of which something holds. -/
def Site (L : Image) (C : Body → Bool → Names → List String → Prop) (u : NameUse) : Prop :=
  ∃ R Γ p q, C R u.inFunction Γ u.defined ∧
    if u.write then L.fillAt R Γ u.pos u.name p q else L.loadAt R Γ u.pos u.name p q

/-- Uses of names are instructions in such bodies. -/
def Sites (L : Image) (C : Body → Bool → Names → List String → Prop) (us : List NameUse) : Prop :=
  ∀ u ∈ us, L.Site C u

variable {L : Image} {C : Body → Bool → Names → List String → Prop} {us us' : List NameUse}

theorem exprAt.literal {R : Body} {Γ : Names} {pos : Pos} {params : List String} {body : Block}
    {p q : Nat} (h : L.exprAt R Γ (.func pos params body) p q) :
    ∃ R', L.FunctionLiteral R Γ pos params body R' p q := by
  obtain ⟨k, R', hk, hpool, -, -, -, hsmall, hcaptures, hbody, hfunction⟩ := h
  exact ⟨R', ⟨k, hk, hpool, hfunction⟩, hsmall, hcaptures, hbody⟩

namespace Sites

theorem nil : L.Sites C [] := List.forall_mem_nil _

theorem append (h : L.Sites C us) (h' : L.Sites C us') : L.Sites C (us ++ us') :=
  List.forall_mem_append.mpr ⟨h, h'⟩

end Sites

theorem loadAt.site {R : Body} {inFunction : Bool} {Γ : Names} {defined : List String} {pos : Pos}
    {x : String} {p q : Nat} (h : C R inFunction Γ defined) (hat : L.loadAt R Γ pos x p q) :
    L.Sites C [⟨x, pos, false, inFunction, defined⟩] :=
  List.forall_mem_singleton.mpr ⟨R, Γ, p, q, h, hat⟩

theorem fillAt.site {R : Body} {inFunction : Bool} {Γ : Names} {defined : List String} {pos : Pos}
    {x : String} {p q : Nat} (h : C R inFunction Γ defined) (hat : L.fillAt R Γ pos x p q) :
    L.Sites C [⟨x, pos, true, inFunction, defined⟩] :=
  List.forall_mem_singleton.mpr ⟨R, Γ, p, q, h, hat⟩

namespace Context

variable {R : Body} {inFunction : Bool} {Γ : Names} {defined : List String} (hC : L.Context C)
include hC

theorem blockAfter (h : C R inFunction Γ defined) (body : Block) :
    C R inFunction (body.after Γ) defined := by
  obtain ⟨_, body⟩ := body
  exact hC.leave h (Stmt.afterAll body Γ)

/-- Behind a statement more names are defined. -/
theorem after {Γ : Names} (h : C R inFunction Γ defined) : (s : Stmt) →
    C R inFunction (s.after Γ) (s.scope defined)
  | .define _ x e => by
    rw [Stmt.after, Stmt.scope]
    exact hC.skip (hC.define h x) _
  | .branch _ cond body none => by
    rw [Stmt.after, Stmt.scope]
    · exact hC.blockAfter (hC.skip h cond.literals) body
    · nofun
    · nofun
  | .branch _ cond body (some orElse) => by
    rw [Stmt.after, Stmt.scope]
    exact after (hC.blockAfter (hC.skip h cond.literals) body) orElse
  | .loop .. => hC.leave h _
  | .block body => hC.blockAfter h body
  | .expr _ | .assign _ none .. | .assign _ (some _) .. | .returnValue _ (some _)
  | .exportValue .. => hC.skip h _
  | .breakLoop _ | .continueLoop _ | .returnValue _ none => h

theorem partAfter (h : C R inFunction Γ defined) (part : Option Stmt) :
    C R inFunction (Stmt.afterPart part Γ) (Stmt.partScope part defined) := by
  cases part with
  | none => exact h
  | some s => exact hC.after h s

end Context

mutual

/-- The uses of names in an expression are in its code. -/
theorem exprAt.sites (hC : L.Context C) {R : Body} {inFunction : Bool} {Γ : Names}
    {defined : List String} {p q : Nat} (h : C R inFunction Γ defined) : (e : Expr) →
    L.exprAt R Γ e p q → L.Sites C (e.nameUses inFunction defined)
  | .lit .., _ => .nil
  | .name pos x, hload => loadAt.site h hload
  | .array _ items, ⟨_, _, hitems, _⟩ => exprsAt.sites hC h items hitems
  | .map _ entries, ⟨_, _, hentries, _⟩ => entriesAt.sites hC h entries hentries
  | .unary _ _ e, ⟨_, he, _⟩ => exprAt.sites hC h e he
  | .binary _ op left right, hcode => by
    unfold exprAt at hcode
    split at hcode
    · obtain ⟨-, m, n, hl, -, hr⟩ := hcode
      exact (exprAt.sites hC h left hl).append (exprAt.sites hC (hC.skip h _) right hr)
    · obtain ⟨m, n, hl, hr, -⟩ := hcode
      exact (exprAt.sites hC h left hl).append (exprAt.sites hC (hC.skip h _) right hr)
  | .call _ callee args, ⟨_, _, _, hc, ha, _⟩ =>
    (exprAt.sites hC h callee hc).append (exprsAt.sites hC (hC.skip h _) args ha)
  | .index _ container index, ⟨_, _, hc, hi, _⟩ =>
    (exprAt.sites hC h container hc).append (exprAt.sites hC (hC.skip h _) index hi)
  | .field _ container _, ⟨_, _, hc, _, _⟩ => exprAt.sites hC h container hc
  | .func _ params body, ⟨_, _, hk, hfunction, _, _, _, hsmall, hcaptures, hbody, hcode⟩ =>
    bodyAt.sites hC (hC.function h ⟨⟨_, hk, hfunction, hcode⟩, hsmall, hcaptures, hbody⟩) body hbody
  | .load .., _ => .nil

theorem exprsAt.sites (hC : L.Context C) {R : Body} {inFunction : Bool} {Γ : Names}
    {defined : List String} {p q : Nat} (h : C R inFunction Γ defined) : (items : List Expr) →
    L.exprsAt R Γ items p q → L.Sites C (Expr.allNameUses inFunction defined items)
  | [], _ => .nil
  | e :: rest, ⟨_, he, hrest⟩ =>
    (exprAt.sites hC h e he).append (exprsAt.sites hC (hC.skip h _) rest hrest)

theorem entriesAt.sites (hC : L.Context C) {R : Body} {inFunction : Bool} {Γ : Names}
    {defined : List String} {pos : Pos} {p q : Nat} (h : C R inFunction Γ defined) :
    (entries : List (String × Expr)) → L.entriesAt R Γ pos entries p q →
    L.Sites C (Expr.entriesNameUses inFunction defined entries)
  | [], _ => .nil
  | (_, e) :: rest, ⟨_, _, _, he, hrest⟩ =>
    (exprAt.sites hC h e he).append (entriesAt.sites hC (hC.skip h _) rest hrest)

theorem bodyAt.sites (hC : L.Context C) {R : Body} {inFunction : Bool} {Γ : Names}
    {defined : List String} {pos : Pos} (h : C R inFunction Γ defined) : (body : Block) →
    L.bodyAt R Γ pos body → L.Sites C (body.nameUses inFunction defined)
  | .mk _ body, ⟨_, hbody, _⟩ => stmtsAt.sites hC h body hbody

/-- What is stored and where: the uses of names in both are in the code. -/
theorem storeAt.sites (hC : L.Context C) {R : Body} {inFunction : Bool} {Γ : Names}
    {defined : List String} {pos : Pos} {V : Names → (p q : Nat) → Prop} {us : List NameUse}
    {p q : Nat} (h : C R inFunction Γ defined)
    (hV : ∀ Γ p q, C R inFunction Γ defined → V Γ p q → L.Sites C us) :
    (place : Expr) → L.storeAt R pos V Γ place p q →
    L.Sites C us ∧ L.Sites C (place.storeUses inFunction defined pos)
  | .name _ x, ⟨_, hv, hfill⟩ => ⟨hV _ _ _ h hv, fillAt.site h hfill⟩
  | .index _ container index, hcode => by
    obtain ⟨hparts, hstore⟩ : L.Sites C (container.nameUses inFunction defined ++
        index.nameUses inFunction defined ++ us) ∧ _ :=
      storeAt.sites hC h (fun _ _ _ h ⟨_, _, _, hc, hi, hv, _⟩ =>
        ((exprAt.sites hC h container hc).append (exprAt.sites hC (hC.skip h _) index hi)).append
          (hV _ _ _ (hC.skip h _) hv)) container hcode
    obtain ⟨hplace, hvalue⟩ := List.forall_mem_append.mp hparts
    exact ⟨hvalue, Sites.append hplace hstore⟩
  | .field _ container _, hcode => by
    obtain ⟨hparts, hstore⟩ : L.Sites C (container.nameUses inFunction defined ++ us) ∧ _ :=
      storeAt.sites hC h (fun _ _ _ h ⟨_, _, _, hc, _, hv, _⟩ =>
        (exprAt.sites hC h container hc).append (hV _ _ _ (hC.skip h _) hv)) container hcode
    obtain ⟨hplace, hvalue⟩ := List.forall_mem_append.mp hparts
    exact ⟨hvalue, Sites.append hplace hstore⟩
  | .lit .., hcode | .array .., hcode | .map .., hcode | .unary .., hcode | .binary .., hcode
  | .call .., hcode | .func .., hcode | .load .., hcode => hcode.elim

theorem testAt.sites (hC : L.Context C) {R : Body} {inFunction : Bool} {Γ : Names}
    {defined : List String} {pos : Pos} {loopEnd p q : Nat} (h : C R inFunction Γ defined) :
    (cond : Option Expr) → L.testAt R Γ pos loopEnd cond p q →
    L.Sites C (Expr.partNameUses inFunction defined cond)
  | none, _ => .nil
  | some e, ⟨_, he, _⟩ => exprAt.sites hC h e he

theorem stmtAt.sites (hC : L.Context C) {R : Body} {inFunction : Bool} {J : Option (Nat × Nat)}
    {Γ : Names} {defined : List String} {p q : Nat} (h : C R inFunction Γ defined) :
    (s : Stmt) → L.stmtAt R J Γ s p q → L.Sites C (s.nameUses inFunction defined)
  | .expr e, ⟨_, he, _⟩ => exprAt.sites hC h e he
  | .define pos x e, hcode => by
    unfold stmtAt at hcode
    unfold Stmt.nameUses
    split at hcode
    · rename_i hfunc
      obtain ⟨m, n, -, he, -⟩ := hcode
      rw [if_pos hfunc]
      exact exprAt.sites hC (hC.define h x) e he
    · rename_i hfunc
      obtain ⟨m, he, -⟩ := hcode
      rw [if_neg hfunc]
      exact exprAt.sites hC h e he
  | .assign pos none place e, hcode => by
    obtain ⟨hvalue, hstore⟩ := storeAt.sites hC h
      (fun _ _ _ h he => exprAt.sites hC h e he) place hcode
    exact hvalue.append hstore
  | .assign pos (some op) place e, hcode => by
    obtain ⟨hvalue, hstore⟩ := storeAt.sites hC h
      (fun _ _ _ h ⟨_, _, hp, he, _⟩ =>
        (exprAt.sites hC h place hp).append (exprAt.sites hC (hC.skip h _) e he)) place hcode
    exact Sites.append hvalue hstore
  | .branch _ cond body none, ⟨_, _, _, hc, _, hb⟩ =>
    ((exprAt.sites hC h cond hc).append (blockAt.sites hC (hC.skip h _) body hb)).append .nil
  | .branch _ cond body (some orElse), ⟨_, _, _, _, _, hc, _, hb, _, ho⟩ =>
    ((exprAt.sites hC h cond hc).append (blockAt.sites hC (hC.skip h _) body hb)).append
      (stmtAt.sites hC (hC.blockAfter (hC.skip h _) body) orElse ho)
  | .loop _ init cond post body, ⟨_, _, _, _, _, hi, hc, hb, hp, _⟩ =>
    have hstart := hC.partAfter h init
    (((partAt.sites hC h init hi).append (testAt.sites hC hstart cond hc)).append
      (blockAt.sites hC (hC.skip hstart _) body hb)).append
      (partAt.sites hC (hC.blockAfter (hC.skip hstart _) body) post hp)
  | .breakLoop _, _ | .continueLoop _, _ | .returnValue _ none, _ => .nil
  | .returnValue _ (some e), ⟨_, _, he, _⟩ => exprAt.sites hC h e he
  | .exportValue _ e, ⟨_, _, he, _⟩ => exprAt.sites hC h e he
  | .block body, hcode => blockAt.sites hC h body hcode

theorem partAt.sites (hC : L.Context C) {R : Body} {inFunction : Bool} {J : Option (Nat × Nat)}
    {Γ : Names} {defined : List String} {p q : Nat} (h : C R inFunction Γ defined) :
    (part : Option Stmt) → L.partAt R J Γ part p q →
    L.Sites C (Stmt.partNameUses inFunction defined part)
  | none, _ => .nil
  | some s, hcode => stmtAt.sites hC h s hcode

theorem blockAt.sites (hC : L.Context C) {R : Body} {inFunction : Bool} {J : Option (Nat × Nat)}
    {Γ : Names} {defined : List String} {p q : Nat} (h : C R inFunction Γ defined) :
    (body : Block) → L.blockAt R J Γ body p q → L.Sites C (body.nameUses inFunction defined)
  | .mk _ body, hcode => stmtsAt.sites hC h body hcode

theorem stmtsAt.sites (hC : L.Context C) {R : Body} {inFunction : Bool} {J : Option (Nat × Nat)}
    {Γ : Names} {defined : List String} {p q : Nat} (h : C R inFunction Γ defined) :
    (body : List Stmt) → L.stmtsAt R J Γ body p q →
    L.Sites C (Stmt.allNameUses inFunction defined body)
  | [], _ => .nil
  | s :: rest, ⟨_, hs, hrest⟩ =>
    (stmtAt.sites hC h s hs).append (stmtsAt.sites hC (hC.after h s) rest hrest)

end

end Image

end ScriptEngine
