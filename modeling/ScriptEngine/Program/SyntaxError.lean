import ScriptEngine.Token.Lexeme
/-! Why a text is no script. -/
namespace ScriptEngine

/-- What the grammar asks for at a place. -/
inductive Expected where
  | mark (m : Mark)
  | expression
  | statementEnd
  | fieldName
  | parameterName
  | moduleName
  | mapKey
  deriving DecidableEq, Repr

def Expected.describe : Expected → String
  | mark m => "'" ++ m.text ++ "'"
  | expression => "expression"
  | statementEnd => "';' or newline"
  | fieldName => "field name after '.'"
  | parameterName => "parameter name"
  | moduleName => "module name string"
  | mapKey => "map key"

inductive SyntaxCause where
  | notUtf8
  | lexical (fault : LexFault)
  | expected (what : Expected) (found : Option Token)
  /-- The left side of a definition is no name. -/
  | defineTarget
  | assignTarget
  /-- A statement stands where a loop has its condition. -/
  | loopCondition
  | repeatedParameter (name : String)
  /-- The parser gave up before the tokens ran out. -/
  | unfinished
  deriving Repr

def SyntaxCause.message : SyntaxCause → String
  | notUtf8 => "source is not valid UTF-8"
  | lexical fault => fault.message
  | expected what (some found) => "expected " ++ what.describe ++ ", found " ++ found.describe
  | expected what none => "expected " ++ what.describe ++ ", found end of input"
  | defineTarget => "non-name on left side of :="
  | assignTarget => "cannot assign to this expression"
  | loopCondition => "expected loop condition"
  | repeatedParameter name => "duplicate parameter '" ++ name ++ "'"
  | unfinished => "nesting too deep"

/-- The first fault of a source text. -/
structure SyntaxError where
  file : String
  pos : Pos
  cause : SyntaxCause
  deriving Repr

def SyntaxError.message (e : SyntaxError) : String :=
  e.file ++ ":" ++ e.pos.text ++ ": " ++ e.cause.message

end ScriptEngine
