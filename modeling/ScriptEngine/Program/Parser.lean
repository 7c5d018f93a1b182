import ScriptEngine.Program.Basic
import ScriptEngine.Program.SyntaxError
import ScriptEngine.Text.Utf8
/-!
From lexemes to program trees. An expression goes on only on the line it has reached: an operator,
bracket or dot at the start of a line begins a new statement.
-/
namespace ScriptEngine.Parser

/-- A fault at a place, or at the end of the input. -/
structure Fault where
  pos : Option Pos
  cause : SyntaxCause

/-- A parser takes lexemes off the front of the input. -/
abbrev P := StateT (List Lexeme) (Except Fault)

variable {α : Type}

def refuseAt (pos : Pos) (cause : SyntaxCause) : P α := throw ⟨some pos, cause⟩

/-- The next lexeme is not what the grammar asks for. -/
def refuse (what : Expected) : P α := fun input =>
  match input with
  | [] => .error ⟨none, .expected what none⟩
  | next :: _ => .error ⟨some next.pos, .expected what (some next.token)⟩

def unfinished : P α := throw ⟨none, .unfinished⟩

/-- The next lexeme, which stays. -/
def peek? : P (Option Lexeme) := fun input => .ok (input.head?, input)

/-- The next lexeme if it stands on the line reached. -/
def sameLine? : P (Option Lexeme) := fun input =>
  .ok (input.head?.filter fun next => !next.newlineBefore, input)

/-- Passes one lexeme. It has been seen, so that there is one. -/
def skip : P Unit := fun input =>
  match input with
  | [] => .error ⟨none, .unfinished⟩
  | _ :: rest => .ok ((), rest)

/-- Whether the next lexeme is this mark. -/
def atMark (m : Mark) : P Bool := fun input =>
  match input with
  | ⟨.mark n, _, _, _⟩ :: _ => .ok (n = m, input)
  | _ => .ok (false, input)

/-- Passes the mark if it is next, and tells whether it was. -/
def eat (m : Mark) : P Bool := do
  if ← atMark m then
    skip
    pure true
  else pure false

/-- Passes the mark, which has to be next. -/
def expect (m : Mark) : P Unit := do
  if ← eat m then pure () else refuse (.mark m)

/-- Passes a name, which has to be next. -/
def nameFor (what : Expected) : P String := do
  match ← peek? with
  | some ⟨.name text, _, _, _⟩ =>
    skip
    pure text
  | _ => refuse what

/-- The end of a simple statement: a semicolon, which is passed, a line break, a closing brace or
the end of the input. -/
def endStatement : P Unit := do
  if ← eat .semicolon then pure ()
  else match ← peek? with
    | none => pure ()
    | some ⟨.mark .rbrace, _, _, _⟩ => pure ()
    | some next => if next.newlineBefore then pure () else refuse .statementEnd

/-- Items between commas up to the closing mark, which is passed too; a comma may follow the last
item. -/
def items (close : Mark) (item : P α) : Nat → List α → P (List α)
  | 0, _ => unfinished
  | fuel + 1, found => do
    if ← eat close then pure found.reverse
    else
      let x ← item
      if ← eat .comma then items close item fuel (x :: found)
      else
        expect close
        pure (x :: found).reverse

/-- The first name that occurs twice, at its second place. -/
def repeated? : List String → Option String
  | names => go [] names
where
  go (seen : List String) : List String → Option String
    | [] => none
    | name :: rest => if seen.contains name then some name else go (name :: seen) rest

/-- The binary operator on the line reached, if it binds at least as tightly as `least`. -/
def operator? (least : Nat) : P (Option (BinaryOp × Pos)) := do
  match ← sameLine? with
  | some ⟨.mark m, pos, _, _⟩ =>
    match m.binary? with
    | some op => pure (if least ≤ op.precedence then some (op, pos) else none)
    | none => pure none
  | _ => pure none

/-- The assignment sign on the line reached. -/
def assignment? : P (Option (Option ArithOp)) := do
  match ← sameLine? with
  | some ⟨.mark m, _, _, _⟩ => pure m.assignment?
  | _ => pure none

mutual

def expression : Nat → P Expr
  | 0 => unfinished
  | fuel + 1 => binary fuel 1

/-- Operands joined by operators of at least the given precedence. -/
def binary : Nat → (least : Nat) → P Expr
  | 0, _ => unfinished
  | fuel + 1, least => do
    let left ← unary fuel
    binaryRest fuel least left

/-- What follows a left operand. -/
def binaryRest : Nat → (least : Nat) → Expr → P Expr
  | 0, _, _ => unfinished
  | fuel + 1, least, left => do
    match ← operator? least with
    | some (op, pos) =>
      skip
      let right ← binary fuel (op.precedence + 1)
      binaryRest fuel least (.binary pos op left right)
    | none => pure left

def unary : Nat → P Expr
  | 0 => unfinished
  | fuel + 1 => do
    match ← peek? with
    | some ⟨.mark m, pos, _, _⟩ =>
      match m.unary? with
      | some op =>
        skip
        let operand ← unary fuel
        pure (.unary pos op operand)
      | none => postfixed fuel
    | _ => postfixed fuel

/-- An operand with the calls, indices and fields behind it. -/
def postfixed : Nat → P Expr
  | 0 => unfinished
  | fuel + 1 => do
    let target ← primary fuel
    postfixes fuel target

def postfixes : Nat → Expr → P Expr
  | 0, _ => unfinished
  | fuel + 1, target => do
    match ← sameLine? with
    | some ⟨.mark .lparen, pos, _, _⟩ =>
      skip
      let args ← items .rparen (expression fuel) fuel []
      postfixes fuel (.call pos target args)
    | some ⟨.mark .lbracket, pos, _, _⟩ =>
      skip
      let index ← expression fuel
      expect .rbracket
      postfixes fuel (.index pos target index)
    | some ⟨.mark .dot, pos, _, _⟩ =>
      skip
      let field ← nameFor .fieldName
      postfixes fuel (.field pos target field)
    | _ => pure target

def primary : Nat → P Expr
  | 0 => unfinished
  | fuel + 1 => do
    match ← peek? with
    | some ⟨.int n, pos, _, _⟩ =>
      skip
      pure (.lit pos (.int n))
    | some ⟨.float x, pos, _, _⟩ =>
      skip
      pure (.lit pos (.float x))
    | some ⟨.string s, pos, _, _⟩ =>
      skip
      pure (.lit pos (.string s))
    | some ⟨.char c, pos, _, _⟩ =>
      skip
      pure (.lit pos (.char c))
    | some ⟨.keyword .«true», pos, _, _⟩ =>
      skip
      pure (.lit pos (.bool true))
    | some ⟨.keyword .«false», pos, _, _⟩ =>
      skip
      pure (.lit pos (.bool false))
    | some ⟨.keyword .«undefined», pos, _, _⟩ =>
      skip
      pure (.lit pos .undefined)
    | some ⟨.name text, pos, _, _⟩ =>
      skip
      pure (.name pos text)
    | some ⟨.mark .lparen, _, _, _⟩ =>
      skip
      let inner ← expression fuel
      expect .rparen
      pure inner
    | some ⟨.mark .lbracket, pos, _, _⟩ =>
      skip
      let elements ← items .rbracket (expression fuel) fuel []
      pure (.array pos elements)
    | some ⟨.mark .lbrace, pos, _, _⟩ =>
      skip
      let entries ← items .rbrace (mapEntry fuel) fuel []
      pure (.map pos entries)
    | some ⟨.keyword .«func», pos, _, _⟩ =>
      skip
      expect .lparen
      let params ← items .rparen (nameFor .parameterName) fuel []
      match repeated? params with
      | some name => refuseAt pos (.repeatedParameter name)
      | none =>
        let body ← block fuel
        pure (.func pos params body)
    | some ⟨.keyword .«import», pos, _, _⟩ =>
      skip
      expect .lparen
      match ← peek? with
      | some ⟨.string module, _, _, _⟩ =>
        skip
        expect .rparen
        pure (.load pos module)
      | _ => refuse .moduleName
    | _ => refuse .expression

/-- A key, a colon and a value. -/
def mapEntry : Nat → P (String × Expr)
  | 0 => unfinished
  | fuel + 1 => do
    match ← peek? with
    | some ⟨.name key, _, _, _⟩ | some ⟨.string key, _, _, _⟩ =>
      skip
      expect .colon
      let value ← expression fuel
      pure (key, value)
    | _ => refuse .mapKey

def block : Nat → P Block
  | 0 => unfinished
  | fuel + 1 => do
    match ← peek? with
    | some ⟨.mark .lbrace, pos, _, _⟩ =>
      skip
      let stmts ← blockRest fuel []
      pure (.mk pos stmts)
    | _ => refuse (.mark .lbrace)

/-- Statements up to the closing brace, which is passed too; `found` holds those before, last
first. -/
def blockRest : Nat → List Stmt → P (List Stmt)
  | 0, _ => unfinished
  | fuel + 1, found => do
    match ← peek? with
    | none => refuse (.mark .rbrace)
    | some ⟨.mark .rbrace, _, _, _⟩ =>
      skip
      pure found.reverse
    | some ⟨.mark .semicolon, _, _, _⟩ =>
      skip
      blockRest fuel found
    | some _ =>
      let stmt ← statement fuel
      blockRest fuel (stmt :: found)

def statement : Nat → P Stmt
  | 0 => unfinished
  | fuel + 1 => do
    match ← peek? with
    | some ⟨.keyword .«if», pos, _, _⟩ =>
      skip
      let stmt ← branch fuel pos
      let _ ← eat .semicolon
      pure stmt
    | some ⟨.keyword .«for», pos, _, _⟩ =>
      skip
      let stmt ← loop fuel pos
      let _ ← eat .semicolon
      pure stmt
    | some ⟨.mark .lbrace, _, _, _⟩ =>
      let body ← block fuel
      let _ ← eat .semicolon
      pure (.block body)
    | some ⟨.keyword .«break», pos, _, _⟩ =>
      skip
      endStatement
      pure (.breakLoop pos)
    | some ⟨.keyword .«continue», pos, _, _⟩ =>
      skip
      endStatement
      pure (.continueLoop pos)
    | some ⟨.keyword .«return», pos, _, _⟩ =>
      skip
      match ← sameLine? with
      | none | some ⟨.mark .rbrace, _, _, _⟩ | some ⟨.mark .semicolon, _, _, _⟩ =>
        endStatement
        pure (.returnValue pos none)
      | some _ =>
        let value ← expression fuel
        endStatement
        pure (.returnValue pos (some value))
    | some ⟨.keyword .«export», pos, _, _⟩ =>
      skip
      let value ← expression fuel
      endStatement
      pure (.exportValue pos value)
    | _ =>
      let stmt ← simple fuel
      endStatement
      pure stmt

/-- An expression, a definition or an assignment. -/
def simple : Nat → P Stmt
  | 0 => unfinished
  | fuel + 1 => do
    let target ← expression fuel
    match ← sameLine? with
    | some ⟨.mark .define, pos, _, _⟩ =>
      skip
      match target with
      | .name start text =>
        let value ← expression fuel
        pure (.define start text value)
      | _ => refuseAt pos .defineTarget
    | _ =>
      match ← assignment? with
      | none => pure (.expr target)
      | some op =>
        skip
        if target.isTarget then
          let value ← expression fuel
          pure (.assign target.pos op target value)
        else refuseAt target.pos .assignTarget

/-- A branch whose keyword, at `pos`, has been passed. -/
def branch : Nat → Pos → P Stmt
  | 0, _ => unfinished
  | fuel + 1, pos => do
    let cond ← expression fuel
    let body ← block fuel
    match ← peek? with
    | some ⟨.keyword .«else», _, _, _⟩ =>
      skip
      match ← peek? with
      | some ⟨.keyword .«if», pos', _, _⟩ =>
        skip
        let rest ← branch fuel pos'
        pure (.branch pos cond body (some rest))
      | _ =>
        let rest ← block fuel
        pure (.branch pos cond body (some (.block rest)))
    | _ => pure (.branch pos cond body none)

/-- A loop whose keyword, at `pos`, has been passed: endless, with a condition, or with the three
parts of a counting loop. -/
def loop : Nat → Pos → P Stmt
  | 0, _ => unfinished
  | fuel + 1, pos => do
    if ← atMark .lbrace then
      let body ← block fuel
      pure (.loop pos none none none body)
    else if ← eat .semicolon then loopRest fuel pos none
    else
      let first ← simple fuel
      if ← eat .semicolon then loopRest fuel pos (some first)
      else match first with
        | .expr cond =>
          let body ← block fuel
          pure (.loop pos none (some cond) none body)
        | other => refuseAt other.pos .loopCondition

/-- A counting loop behind its first semicolon. -/
def loopRest : Nat → Pos → Option Stmt → P Stmt
  | 0, _, _ => unfinished
  | fuel + 1, pos, init => do
    let cond ← if ← atMark .semicolon then pure none else some <$> expression fuel
    expect .semicolon
    let post ← if ← atMark .lbrace then pure none else some <$> simple fuel
    let body ← block fuel
    pure (.loop pos init cond post body)

end

/-- The statements of a whole text; `found` holds those before, last first. -/
def statements : Nat → List Stmt → P (List Stmt)
  | 0, _ => unfinished
  | fuel + 1, found => do
    match ← peek? with
    | none => pure found.reverse
    | some ⟨.mark .semicolon, _, _, _⟩ =>
      skip
      statements fuel found
    | some _ =>
      let stmt ← statement fuel
      statements fuel (stmt :: found)

/-- Calls that nest between one token and the next are at most this many. -/
def depthPerToken : Nat := 16

/-- The statements that the lexemes spell, all of them. -/
def ofLexemes (input : List Lexeme) : Except Fault (List Stmt) :=
  (statements (depthPerToken * (input.length + 1)) []).run' input

end Parser

/-- The statements of a script, from its characters. -/
def parseText (file : String) (text : List Char) : Except SyntaxError (List Stmt) :=
  match Lexeme.scan text with
  | (_, some (pos, fault)) => .error ⟨file, pos, .lexical fault⟩
  | (lexemes, none) =>
    match Parser.ofLexemes lexemes with
    | .ok stmts => .ok stmts
    | .error fault => .error ⟨file, fault.pos.getD (Pos.start.after text), fault.cause⟩

/-- The statements of a script, from its bytes. -/
def parse (file : String) (source : ByteArray) : Except SyntaxError (List Stmt) :=
  match Utf8.decode source with
  | (text, true) => parseText file text
  | (text, false) => .error ⟨file, Pos.start.after text, .notUtf8⟩

end ScriptEngine
