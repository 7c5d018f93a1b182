import ScriptEngine.Program.Basic
import ScriptEngine.Proofs.Printing.Scan
/-!
Programs as text. Each statement starts a line, and parentheses stand only where the grammar would
read the words as another tree.
-/
namespace ScriptEngine

/-- A mark on the line reached. -/
def Word.sign (m : Mark) : Word := ⟨.mark m, false⟩

def Literal.token : Literal → Token
  | undefined => .keyword .«undefined»
  | bool true => .keyword .«true»
  | bool false => .keyword .«false»
  | int n => .int n
  | float x => .float x
  | char c => .char c
  | string s => .string s

def UnaryOp.mark : UnaryOp → Mark
  | neg => .minus
  | not => .bang

def BinaryOp.mark : BinaryOp → Mark
  | or => .orOr
  | and => .andAnd
  | equal => .eqEq
  | notEqual => .notEq
  | order .less => .less
  | order .lessEq => .lessEq
  | order .greater => .greater
  | order .greaterEq => .greaterEq
  | arith .add => .plus
  | arith .sub => .minus
  | arith .mul => .star
  | arith .div => .slash
  | arith .rem => .percent

/-- The sign of an assignment that applies the operator first. -/
def assignmentMark : Option ArithOp → Mark
  | none => .assign
  | some .add => .plusAssign
  | some .sub => .minusAssign
  | some .mul => .starAssign
  | some .div => .slashAssign
  | some .rem => .percentAssign

namespace Expr

/-- How tightly an expression holds together: a binary operation as its operator, a unary one more
than that, and all others most. -/
def level : Expr → Nat
  | binary _ op _ _ => op.precedence
  | unary .. => 7
  | _ => 8

def isMap : Expr → Bool
  | map .. => true
  | _ => false

/-- Whether an expression needs parentheses where one of level `least` is asked for, or where, with
`lead`, no brace can come first. -/
def closed (e : Expr) (least : Nat) (lead : Bool) : Bool := e.level < least || lead && e.isMap

end Expr

namespace Word

/-- Words with parentheses around them if they are `closed`. -/
def enclose (closed lead fresh : Bool) (inner : Bool → Bool → List Word) : List Word :=
  if closed then ⟨.mark .lparen, fresh⟩ :: (inner false false ++ [sign .rparen])
  else inner lead fresh

/-- An entry of a map, its key as a string. -/
def keyed (key : String) (value : List Word) : List Word :=
  ⟨.string key, false⟩ :: sign .colon :: value

/-- Items with commas between them and a closing mark. -/
def commas (close : Mark) : List (List Word) → List Word
  | [] => [sign close]
  | item :: rest => item ++ match rest with
    | [] => [sign close]
    | _ :: _ => sign .comma :: commas close rest

variable {close : Mark} {pieces : List (List Word)} {piece : List Word}

theorem length_lt_commas (h : piece ∈ pieces) : piece.length < (commas close pieces).length := by
  induction pieces with
  | nil => cases h
  | cons first rest ih =>
    rcases List.mem_cons.mp h with rfl | h
    · cases rest <;> simp [commas]
    · have := ih h
      cases rest with
      | nil => cases h
      | cons => simp only [commas, List.length_append, List.length_cons] at this ⊢; omega

theorem length_le_commas (close : Mark) (pieces : List (List Word)) :
    pieces.length ≤ (commas close pieces).length ∧ 0 < (commas close pieces).length := by
  induction pieces with
  | nil => simp [commas]
  | cons first rest ih =>
    cases rest with
    | nil => simp [commas]
    | cons => simp only [commas, List.length_append, List.length_cons] at ih ⊢; omega

end Word

open Word (sign enclose keyed commas)

mutual

/-- The words of an expression, without parentheses around all of them. With `lead` no brace comes
first, and with `fresh` the first word starts a line. -/
@[simp] def Expr.bare : Expr → (lead fresh : Bool) → List Word
  | .lit _ value, _, fresh => [⟨value.token, fresh⟩]
  | .name _ x, _, fresh => [⟨.name x, fresh⟩]
  | .array _ items, _, fresh => ⟨.mark .lbracket, fresh⟩ :: commas .rbracket (Expr.allBare items)
  | .map _ entries, _, fresh => ⟨.mark .lbrace, fresh⟩ :: commas .rbrace (Expr.entriesBare entries)
  | .unary _ op e, _, fresh => ⟨.mark op.mark, fresh⟩ :: enclose (e.closed 7 false) false false e.bare
  | .binary _ op left right, lead, fresh =>
    enclose (left.closed op.precedence lead) lead fresh left.bare ++
      sign op.mark :: enclose (right.closed (op.precedence + 1) false) false false right.bare
  | .call _ callee args, lead, fresh =>
    enclose (callee.closed 8 lead) lead fresh callee.bare ++
      sign .lparen :: commas .rparen (Expr.allBare args)
  | .index _ target index, lead, fresh =>
    enclose (target.closed 8 lead) lead fresh target.bare ++
      sign .lbracket :: (index.bare false false ++ [sign .rbracket])
  | .field _ target x, lead, fresh =>
    enclose (target.closed 8 lead) lead fresh target.bare ++ [sign .dot, ⟨.name x, false⟩]
  | .func _ params body, _, fresh =>
    ⟨.keyword .«func», fresh⟩ :: sign .lparen ::
      (commas .rparen (params.map fun x => [⟨.name x, false⟩]) ++ body.words false)
  | .load _ module, _, fresh =>
    [⟨.keyword .«import», fresh⟩, sign .lparen, ⟨.string module, false⟩, sign .rparen]

@[simp] def Expr.allBare : List Expr → List (List Word)
  | [] => []
  | e :: rest => e.bare false false :: Expr.allBare rest

@[simp] def Expr.entriesBare : List (String × Expr) → List (List Word)
  | [] => []
  | (key, e) :: rest => keyed key (e.bare false false) :: Expr.entriesBare rest

@[simp] def Expr.partWords : Option Expr → (lead : Bool) → List Word
  | none, _ => []
  | some e, lead => enclose (e.closed 1 lead) lead false e.bare

/-- The words of a statement. -/
@[simp] def Stmt.words : Stmt → (fresh : Bool) → List Word
  | .expr e, fresh => enclose (e.closed 1 true) true fresh e.bare
  | .define _ x value, fresh => ⟨.name x, fresh⟩ :: sign .define :: value.bare false false
  | .assign _ op target value, fresh =>
    enclose (target.closed 1 true) true fresh target.bare ++
      sign (assignmentMark op) :: value.bare false false
  | .branch _ cond body orElse, fresh =>
    ⟨.keyword .«if», fresh⟩ :: (cond.bare false false ++ (body.words false ++ Stmt.elseWords orElse))
  | .loop _ init cond post body, fresh =>
    ⟨.keyword .«for», fresh⟩ ::
      ((if init.isNone && post.isNone then Expr.partWords cond true
        else Stmt.partWords init ++
          sign .semicolon :: (Expr.partWords cond false ++ sign .semicolon :: Stmt.partWords post)) ++
        body.words false)
  | .breakLoop _, fresh => [⟨.keyword .«break», fresh⟩]
  | .continueLoop _, fresh => [⟨.keyword .«continue», fresh⟩]
  | .returnValue _ value, fresh => ⟨.keyword .«return», fresh⟩ :: Expr.partWords value false
  | .exportValue _ value, fresh => ⟨.keyword .«export», fresh⟩ :: value.bare false false
  | .block body, fresh => body.words fresh

@[simp] def Stmt.partWords : Option Stmt → List Word
  | none => []
  | some s => s.words false

@[simp] def Stmt.elseWords : Option Stmt → List Word
  | none => []
  | some s => ⟨.keyword .«else», false⟩ :: s.words false

@[simp] def Block.words : Block → (fresh : Bool) → List Word
  | .mk _ body, fresh => ⟨.mark .lbrace, fresh⟩ :: (Stmt.allWords body ++ [⟨.mark .rbrace, true⟩])

/-- Statements, each on lines of its own. -/
@[simp] def Stmt.allWords : List Stmt → List Word
  | [] => []
  | s :: rest => s.words true ++ Stmt.allWords rest

end

/-- An expression with parentheses if it needs them. -/
abbrev Expr.words (e : Expr) (least : Nat) (lead fresh : Bool) : List Word :=
  enclose (e.closed least lead) lead fresh e.bare

section Equations

variable (pos : Pos) (op : BinaryOp) (e target : Expr) (items : List Expr) (lead fresh : Bool)

theorem Expr.bare_unary (op : UnaryOp) : (Expr.unary pos op e).bare lead fresh =
    ⟨.mark op.mark, fresh⟩ :: e.words 7 false false := rfl

theorem Expr.bare_binary (right : Expr) : (Expr.binary pos op e right).bare lead fresh =
    e.words op.precedence lead fresh ++
      sign op.mark :: right.words (op.precedence + 1) false false := rfl

theorem Expr.bare_call : (Expr.call pos target items).bare lead fresh =
    target.words 8 lead fresh ++ sign .lparen :: commas .rparen (Expr.allBare items) := rfl

theorem Expr.bare_index : (Expr.index pos target e).bare lead fresh =
    target.words 8 lead fresh ++ sign .lbracket :: (e.bare false false ++ [sign .rbracket]) := rfl

theorem Expr.bare_field (x : String) : (Expr.field pos target x).bare lead fresh =
    target.words 8 lead fresh ++ [sign .dot, ⟨.name x, false⟩] := rfl

theorem Expr.partWords_some : Expr.partWords (some e) lead = e.words 1 lead false := rfl

theorem Stmt.words_expr : (Stmt.expr e).words fresh = e.words 1 true fresh := rfl

theorem Stmt.words_assign (op : Option ArithOp) : (Stmt.assign pos op target e).words fresh =
    target.words 1 true fresh ++ sign (assignmentMark op) :: e.bare false false := rfl

end Equations

/-- The text of a program. How a float is written is a parameter. -/
def print (written : Float → List Char) (body : List Stmt) : String :=
  String.ofList (Word.render written (Stmt.allWords body))

mutual

/-- The expression without its places. -/
@[simp] def Expr.unplaced : Expr → Expr
  | .lit _ value => .lit .start value
  | .name _ x => .name .start x
  | .array _ items => .array .start (Expr.allUnplaced items)
  | .map _ entries => .map .start (Expr.entriesUnplaced entries)
  | .unary _ op e => .unary .start op e.unplaced
  | .binary _ op left right => .binary .start op left.unplaced right.unplaced
  | .call _ callee args => .call .start callee.unplaced (Expr.allUnplaced args)
  | .index _ target index => .index .start target.unplaced index.unplaced
  | .field _ target x => .field .start target.unplaced x
  | .func _ params body => .func .start params body.unplaced
  | .load _ module => .load .start module

@[simp] def Expr.allUnplaced : List Expr → List Expr
  | [] => []
  | e :: rest => e.unplaced :: Expr.allUnplaced rest

@[simp] def Expr.entriesUnplaced : List (String × Expr) → List (String × Expr)
  | [] => []
  | (key, e) :: rest => (key, e.unplaced) :: Expr.entriesUnplaced rest

@[simp] def Expr.partUnplaced : Option Expr → Option Expr
  | none => none
  | some e => some e.unplaced

/-- The statement without its places. -/
@[simp] def Stmt.unplaced : Stmt → Stmt
  | .expr e => .expr e.unplaced
  | .define _ x value => .define .start x value.unplaced
  | .assign _ op target value => .assign .start op target.unplaced value.unplaced
  | .branch _ cond body orElse =>
    .branch .start cond.unplaced body.unplaced (Stmt.partUnplaced orElse)
  | .loop _ init cond post body => .loop .start (Stmt.partUnplaced init) (Expr.partUnplaced cond)
    (Stmt.partUnplaced post) body.unplaced
  | .breakLoop _ => .breakLoop .start
  | .continueLoop _ => .continueLoop .start
  | .returnValue _ value => .returnValue .start (Expr.partUnplaced value)
  | .exportValue _ value => .exportValue .start value.unplaced
  | .block body => .block body.unplaced

@[simp] def Stmt.partUnplaced : Option Stmt → Option Stmt
  | none => none
  | some s => some s.unplaced

@[simp] def Block.unplaced : Block → Block
  | .mk _ body => .mk .start (Stmt.allUnplaced body)

@[simp] def Stmt.allUnplaced : List Stmt → List Stmt
  | [] => []
  | s :: rest => s.unplaced :: Stmt.allUnplaced rest

end

end ScriptEngine
