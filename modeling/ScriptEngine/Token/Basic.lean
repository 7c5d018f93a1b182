import ScriptEngine.Decimal.Notation
import ScriptEngine.Operator
/-! The words and signs a script is written with. -/
namespace ScriptEngine

inductive Keyword where
  | «func» | «if» | «else» | «for» | «break» | «continue» | «return» | «export» | «import»
  | «true» | «false» | «undefined»
  deriving DecidableEq, Repr

namespace Keyword

def text : Keyword → String
  | «func» => "func"
  | «if» => "if"
  | «else» => "else"
  | «for» => "for"
  | «break» => "break"
  | «continue» => "continue"
  | «return» => "return"
  | «export» => "export"
  | «import» => "import"
  | «true» => "true"
  | «false» => "false"
  | «undefined» => "undefined"

def all : List Keyword :=
  [«func», «if», «else», «for», «break», «continue», «return», «export», «import», «true», «false»,
    «undefined»]

/-- The keyword a word spells. -/
def ofText? (word : String) : Option Keyword := all.find? (·.text = word)

end Keyword

/-- Brackets, separators and operator signs. -/
inductive Mark where
  | lparen | rparen | lbrace | rbrace | lbracket | rbracket
  | comma | colon | semicolon | dot
  | plus | minus | star | slash | percent | bang
  | eqEq | notEq | less | lessEq | greater | greaterEq | andAnd | orOr
  | assign | define | plusAssign | minusAssign | starAssign | slashAssign | percentAssign
  deriving DecidableEq, Repr

namespace Mark

def text : Mark → String
  | lparen => "("
  | rparen => ")"
  | lbrace => "\x7b"
  | rbrace => "\x7d"
  | lbracket => "["
  | rbracket => "]"
  | comma => ","
  | colon => ":"
  | semicolon => ";"
  | dot => "."
  | plus => "+"
  | minus => "-"
  | star => "*"
  | slash => "/"
  | percent => "%"
  | bang => "!"
  | eqEq => "=="
  | notEq => "!="
  | less => "<"
  | lessEq => "<="
  | greater => ">"
  | greaterEq => ">="
  | andAnd => "&&"
  | orOr => "||"
  | assign => "="
  | define => ":="
  | plusAssign => "+="
  | minusAssign => "-="
  | starAssign => "*="
  | slashAssign => "/="
  | percentAssign => "%="

/-- The longest mark at the front of the input. -/
def first? : List Char → Option Mark
  | '=' :: '=' :: _ => some eqEq
  | '!' :: '=' :: _ => some notEq
  | '<' :: '=' :: _ => some lessEq
  | '>' :: '=' :: _ => some greaterEq
  | '&' :: '&' :: _ => some andAnd
  | '|' :: '|' :: _ => some orOr
  | ':' :: '=' :: _ => some define
  | '+' :: '=' :: _ => some plusAssign
  | '-' :: '=' :: _ => some minusAssign
  | '*' :: '=' :: _ => some starAssign
  | '/' :: '=' :: _ => some slashAssign
  | '%' :: '=' :: _ => some percentAssign
  | '(' :: _ => some lparen
  | ')' :: _ => some rparen
  | '\x7b' :: _ => some lbrace
  | '\x7d' :: _ => some rbrace
  | '[' :: _ => some lbracket
  | ']' :: _ => some rbracket
  | ',' :: _ => some comma
  | ':' :: _ => some colon
  | ';' :: _ => some semicolon
  | '.' :: _ => some dot
  | '+' :: _ => some plus
  | '-' :: _ => some minus
  | '*' :: _ => some star
  | '/' :: _ => some slash
  | '%' :: _ => some percent
  | '!' :: _ => some bang
  | '<' :: _ => some less
  | '>' :: _ => some greater
  | '=' :: _ => some assign
  | _ => none

/-- The binary operator a sign stands for between two operands. -/
def binary? : Mark → Option BinaryOp
  | orOr => some .or
  | andAnd => some .and
  | eqEq => some .equal
  | notEq => some .notEqual
  | less => some (.order .less)
  | lessEq => some (.order .lessEq)
  | greater => some (.order .greater)
  | greaterEq => some (.order .greaterEq)
  | plus => some (.arith .add)
  | minus => some (.arith .sub)
  | star => some (.arith .mul)
  | slash => some (.arith .div)
  | percent => some (.arith .rem)
  | _ => none

/-- The operator sign for a unary operator. -/
def unary? : Mark → Option UnaryOp
  | minus => some .neg
  | bang => some .not
  | _ => none

/-- An assignment sign, with the operator it applies first. -/
def assignment? : Mark → Option (Option ArithOp)
  | assign => some none
  | plusAssign => some (some .add)
  | minusAssign => some (some .sub)
  | starAssign => some (some .mul)
  | slashAssign => some (some .div)
  | percentAssign => some (some .rem)
  | _ => none

end Mark

inductive Token where
  | keyword (word : Keyword)
  | mark (sign : Mark)
  | name (text : String)
  | int (n : Int64)
  | float (x : Float)
  | string (text : String)
  | char (c : Char)
  deriving Repr

/-- How messages name a token. -/
def Token.describe : Token → String
  | keyword word => "'" ++ word.text ++ "'"
  | mark sign => "'" ++ sign.text ++ "'"
  | name text => "identifier '" ++ text ++ "'"
  | int n => "integer " ++ toString n.toInt
  | float x => "float " ++ Decimal.floatText x
  | string _ => "string literal"
  | char _ => "char literal"

end ScriptEngine
