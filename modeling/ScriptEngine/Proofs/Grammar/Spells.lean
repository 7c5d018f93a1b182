import ScriptEngine.Proofs.Printing.Words
/-!
The rows of tokens that spell a program. A tree leaves open how many parentheses stand around an
expression, how many semicolons between two statements, whether a comma follows the last item of a
list, and whether a map key is a name or a string; all other tokens are fixed by it.
-/
namespace ScriptEngine

namespace Token

/-- A row with any number of parentheses around it. -/
inductive Grouped (bare : List Token → Prop) : List Token → Prop
  | bare {ts : List Token} (h : bare ts) : Grouped bare ts
  | group {ts : List Token} (h : Grouped bare ts) :
    Grouped bare (.mark .lparen :: (ts ++ [.mark .rparen]))

/-- Rows with commas between them and a closing mark. A comma may follow the last one. -/
inductive Listed (close : Mark) : List (List Token → Prop) → List Token → Prop
  | nil : Listed close [] [.mark close]
  | last {piece : List Token → Prop} {ts : List Token} (h : piece ts) :
    Listed close [piece] (ts ++ [.mark close])
  | cons {piece : List Token → Prop} {rest : List (List Token → Prop)} {ts us : List Token}
    (h : piece ts) (hrest : Listed close rest us) :
    Listed close (piece :: rest) (ts ++ .mark .comma :: us)

/-- A key, a colon and a value. -/
def Keyed (key : String) (value : List Token → Prop) (ts : List Token) : Prop :=
  ∃ us, value us ∧ (ts = .name key :: .mark .colon :: us ∨ ts = .string key :: .mark .colon :: us)

/-- Semicolons alone. -/
def Blank (ts : List Token) : Prop := ∀ t ∈ ts, t = .mark .semicolon

end Token

open Token (Grouped Listed Keyed Blank)

mutual

/-- The row spells the expression, with no parentheses around all of it. -/
def Expr.Bare : Expr → List Token → Prop
  | .lit _ value, ts => ts = [value.token]
  | .name _ x, ts => ts = [.name x]
  | .array _ items, ts => ∃ us, Listed .rbracket (Expr.pieces items) us ∧ ts = .mark .lbracket :: us
  | .map _ entries, ts => ∃ us, Listed .rbrace (Expr.entryPieces entries) us ∧
    ts = .mark .lbrace :: us
  | .unary _ op e, ts => ∃ us, Grouped e.Bare us ∧ ts = .mark op.mark :: us
  | .binary _ op left right, ts => ∃ us vs, Grouped left.Bare us ∧ Grouped right.Bare vs ∧
    ts = us ++ .mark op.mark :: vs
  | .call _ callee args, ts => ∃ us vs, Grouped callee.Bare us ∧
    Listed .rparen (Expr.pieces args) vs ∧ ts = us ++ .mark .lparen :: vs
  | .index _ target index, ts => ∃ us vs, Grouped target.Bare us ∧ Grouped index.Bare vs ∧
    ts = us ++ .mark .lbracket :: (vs ++ [.mark .rbracket])
  | .field _ target x, ts => ∃ us, Grouped target.Bare us ∧ ts = us ++ [.mark .dot, .name x]
  | .func _ params body, ts => ∃ us vs, Listed .rparen (params.map fun x ts => ts = [.name x]) us ∧
    body.Spells vs ∧ ts = .keyword .«func» :: .mark .lparen :: (us ++ vs)
  | .load _ module, ts =>
    ts = [.keyword .«import», .mark .lparen, .string module, .mark .rparen]

/-- What the items of a list are spelled by. -/
def Expr.pieces : List Expr → List (List Token → Prop)
  | [] => []
  | e :: rest => Grouped e.Bare :: Expr.pieces rest

def Expr.entryPieces : List (String × Expr) → List (List Token → Prop)
  | [] => []
  | (key, e) :: rest => Keyed key (Grouped e.Bare) :: Expr.entryPieces rest

def Expr.PartSpells : Option Expr → List Token → Prop
  | none, ts => ts = []
  | some e, ts => Grouped e.Bare ts

/-- The row spells the statement. -/
def Stmt.Spells : Stmt → List Token → Prop
  | .expr e, ts => Grouped e.Bare ts
  | .define _ x value, ts => ∃ us vs, Grouped (· = [.name x]) us ∧ Grouped value.Bare vs ∧
    ts = us ++ .mark .define :: vs
  | .assign _ op target value, ts => ∃ us vs, Grouped target.Bare us ∧ Grouped value.Bare vs ∧
    ts = us ++ .mark (assignmentMark op) :: vs
  | .branch _ cond body orElse, ts => ∃ us vs ws, Grouped cond.Bare us ∧ body.Spells vs ∧
    Stmt.ElseSpells orElse ws ∧ ts = .keyword .«if» :: (us ++ (vs ++ ws))
  | .loop _ init cond post body, ts => ∃ us vs,
    (init = none ∧ post = none ∧ Expr.PartSpells cond us ∨
      ∃ is cs ps, Stmt.PartSpells init is ∧ Expr.PartSpells cond cs ∧ Stmt.PartSpells post ps ∧
        us = is ++ .mark .semicolon :: (cs ++ .mark .semicolon :: ps)) ∧
    body.Spells vs ∧ ts = .keyword .«for» :: (us ++ vs)
  | .breakLoop _, ts => ts = [.keyword .«break»]
  | .continueLoop _, ts => ts = [.keyword .«continue»]
  | .returnValue _ value, ts => ∃ us, Expr.PartSpells value us ∧ ts = .keyword .«return» :: us
  | .exportValue _ value, ts => ∃ us, Grouped value.Bare us ∧ ts = .keyword .«export» :: us
  | .block body, ts => body.Spells ts

def Stmt.PartSpells : Option Stmt → List Token → Prop
  | none, ts => ts = []
  | some s, ts => s.Spells ts

def Stmt.ElseSpells : Option Stmt → List Token → Prop
  | none, ts => ts = []
  | some s, ts => ∃ us, s.Spells us ∧ ts = .keyword .«else» :: us

/-- The row spells the block. -/
def Block.Spells : Block → List Token → Prop
  | .mk _ body, ts => ∃ us, Stmt.AllSpells body us ∧
    ts = .mark .lbrace :: (us ++ [.mark .rbrace])

/-- The row spells the statements, with semicolons around them. -/
def Stmt.AllSpells : List Stmt → List Token → Prop
  | [], ts => Blank ts
  | s :: rest, ts => ∃ us vs ws, Blank us ∧ s.Spells vs ∧ Stmt.AllSpells rest ws ∧
    ts = us ++ (vs ++ ws)

end

/-- The row spells the expression. -/
def Expr.Spells (e : Expr) : List Token → Prop := Grouped e.Bare

theorem Expr.pieces_eq (items : List Expr) : Expr.pieces items = items.map Expr.Spells := by
  induction items with
  | nil => rfl
  | cons e rest ih => rw [Expr.pieces, ih]; rfl

theorem Expr.entryPieces_eq (entries : List (String × Expr)) :
    Expr.entryPieces entries = entries.map fun entry => Keyed entry.1 entry.2.Spells := by
  induction entries with
  | nil => rfl
  | cons entry rest ih => rw [Expr.entryPieces, ih]; rfl

section Rows

variable {ts us : List Token} {s : Stmt} {rest : List Stmt}

theorem Token.blank_nil : Blank [] := nofun

theorem Token.blank_semicolon : Blank [.mark .semicolon] := by simp [Blank]

theorem Token.blank_eaten {b : Bool} (h : ts = if b then [.mark .semicolon] else []) : Blank ts := by
  cases b with
  | true => exact h ▸ blank_semicolon
  | false => exact h ▸ blank_nil

theorem Token.Blank.append (hts : Blank ts) (hus : Blank us) : Blank (ts ++ us) :=
  List.forall_mem_append.mpr ⟨hts, hus⟩

/-- Semicolons before statements belong to them. -/
theorem Stmt.AllSpells.blank (hus : Blank us) : {body : List Stmt} → Stmt.AllSpells body ts →
    Stmt.AllSpells body (us ++ ts)
  | [], h => hus.append h
  | _ :: _, ⟨vs, ws, rest, hvs, hws, hrest, hts⟩ =>
    ⟨us ++ vs, ws, rest, hus.append hvs, hws, hrest, by rw [hts, List.append_assoc]⟩

theorem Stmt.AllSpells.cons (hs : s.Spells us) (hrest : Stmt.AllSpells rest ts) :
    Stmt.AllSpells (s :: rest) (us ++ ts) :=
  ⟨[], us, ts, Token.blank_nil, hs, hrest, rfl⟩

theorem Token.Grouped.ne_nil {bare : List Token → Prop} (h : Grouped bare ts) (hbare : ¬ bare []) :
    ts ≠ [] := by
  rintro rfl
  cases h
  exact hbare ‹_›

theorem Expr.bare_ne_nil (e : Expr) : ¬ e.Bare [] := by
  intro h
  cases e with
  | lit | name | load => cases h
  | array | map | unary =>
    obtain ⟨_, _, h⟩ := h
    cases h
  | field =>
    obtain ⟨_, _, h⟩ := h
    simp at h
  | binary | call | index =>
    obtain ⟨_, _, _, _, h⟩ := h
    simp at h
  | func =>
    obtain ⟨_, _, _, _, h⟩ := h
    cases h

/-- A statement takes tokens to spell. -/
theorem Stmt.Spells.ne_nil (h : s.Spells ts) : ts ≠ [] := by
  rintro rfl
  cases s with
  | expr e => exact h.ne_nil e.bare_ne_nil rfl
  | define | assign =>
    obtain ⟨_, _, _, _, h⟩ := h
    simp at h
  | branch =>
    obtain ⟨_, _, _, _, _, _, h⟩ := h
    cases h
  | loop =>
    obtain ⟨_, _, _, _, h⟩ := h
    cases h
  | breakLoop | continueLoop => cases h
  | returnValue | exportValue =>
    obtain ⟨_, _, h⟩ := h
    cases h
  | block body =>
    cases body
    obtain ⟨_, _, h⟩ := h
    cases h

end Rows

end ScriptEngine
