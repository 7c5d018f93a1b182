import ScriptEngine.Decimal.Reader
import ScriptEngine.Pos
import ScriptEngine.Token.Basic
/-!
Source text cut into tokens. At each point the longest token wins; blanks and comments only
separate, but a line break before a token is remembered.
-/
namespace ScriptEngine

/-- Why no token starts at a place. -/
inductive LexFault where
  | string
  | char
  | number (text : String)
  | unexpected (c : Char)
  deriving DecidableEq, Repr

def LexFault.message : LexFault → String
  | string => "invalid string literal"
  | char => "invalid char literal"
  | number text => "invalid number literal '" ++ text ++ "'"
  | unexpected c => "unexpected character '" ++ c.toString ++ "'"

/-- A token in its place. -/
structure Lexeme where
  token : Token
  pos : Pos
  /-- Bytes up to the token's end. -/
  stop : Nat
  /-- A line break, or nothing but blanks, stands between this token and the one before. -/
  newlineBefore : Bool
  deriving Repr

namespace Token

/-- Blanks between tokens. -/
def isSpace (c : Char) : Bool :=
  c = ' ' || c = '\t' || c = '\r' || c = '\n' || c = '\x0c'

def isWordStart (c : Char) : Bool := c.isAlpha || c = '_'

def isWordChar (c : Char) : Bool := c.isAlphanum || c = '_'

/-- The character an escape stands for, by the character behind the backslash. -/
def unescapeChar? : Char → Option Char
  | 'n' => some '\n'
  | 't' => some '\t'
  | 'r' => some '\r'
  | '0' => some '\x00'
  | '\\' => some '\\'
  | '"' => some '"'
  | '\'' => some '\''
  | _ => none

/-- Replaces each escape by what it stands for; `read` holds the characters so far, last first. -/
def unescapeFrom : List Char → List Char → Option (List Char)
  | [], read => some read.reverse
  | '\\' :: c :: rest, read =>
    match unescapeChar? c with
    | some d => unescapeFrom rest (d :: read)
    | none => none
  | c :: rest, read => if c = '\\' then none else unescapeFrom rest (c :: read)

def unescape (raw : List Char) : Option (List Char) := unescapeFrom raw []

/-- The raw text up to the closing quote, on one line; `read` holds it so far, last first. -/
def quotedFrom (quote : Char) : List Char → List Char → Option (List Char)
  | [], _ => none
  | c :: rest, read =>
    if c = quote then some read.reverse
    else if c = '\n' then none
    else if c = '\\' then
      match rest with
      | [] => none
      | d :: rest => if d = '\n' then none else quotedFrom quote rest (d :: c :: read)
    else quotedFrom quote rest (c :: read)

/-- The exponent at the front of the input, or nothing if there is no complete one. -/
def exponentFront : List Char → List Char
  | [] => []
  | e :: rest =>
    let sign := (rest.take 1).filter fun c => c = '+' || c = '-'
    let digits := (rest.drop sign.length).takeWhile Char.isDigit
    if (e = 'e' || e = 'E') && !digits.isEmpty then e :: (sign ++ digits) else []

/-- A number at the front of the input: a float if a point stands between two digits. -/
def firstNumber (cs : List Char) : Except LexFault (List Char × Token) :=
  let whole := cs.takeWhile Char.isDigit
  let places := match cs.dropWhile Char.isDigit with
    | '.' :: rest => rest.takeWhile Char.isDigit
    | _ => []
  if places.isEmpty then
    match Decimal.readInt? whole with
    | some n => .ok (whole, .int n)
    | none => .error (.number (String.ofList whole))
  else
    let mantissa := whole ++ '.' :: places
    let text := mantissa ++ exponentFront (cs.drop mantissa.length)
    match Decimal.readDecimal? text with
    | some x => .ok (text, .float x)
    | none => .error (.number (String.ofList text))

/-- A string at the front of the input, its opening quote left out. -/
def firstString (cs : List Char) : Except LexFault (List Char × Token) :=
  match quotedFrom '"' cs [] with
  | none => .error .string
  | some raw =>
    match unescape raw with
    | some text => .ok ('"' :: (raw ++ ['"']), .string (String.ofList text))
    | none => .error .string

/-- A character literal at the front of the input, its opening quote left out. -/
def firstChar (cs : List Char) : Except LexFault (List Char × Token) :=
  match quotedFrom '\'' cs [] with
  | none => .error .char
  | some raw =>
    match unescape raw with
    | some [c] => .ok ('\'' :: (raw ++ ['\'']), .char c)
    | _ => .error .char

/-- A keyword or name at the front of the input. -/
def firstWord (cs : List Char) : List Char × Token :=
  let word := cs.takeWhile isWordChar
  match Keyword.ofText? (String.ofList word) with
  | some k => (word, .keyword k)
  | none => (word, .name (String.ofList word))

/-- The longest token at the front of `c :: rest`, with the text it is written with. -/
def first (c : Char) (rest : List Char) : Except LexFault (List Char × Token) :=
  if isWordStart c then .ok (firstWord (c :: rest))
  else if c.isDigit then firstNumber (c :: rest)
  else if c = '"' then firstString rest
  else if c = '\'' then firstChar rest
  else match Mark.first? (c :: rest) with
    | some m => .ok (m.text.toList, .mark m)
    | none => .error (.unexpected c)

end Token

namespace Lexeme

/-- Bytes of a text. -/
def byteLength (cs : List Char) : Nat := cs.foldl (fun n c => n + c.utf8Size) 0

/-- Cuts the input into lexemes. `skip` characters are still to pass without a look, `pos` is the
place of the next one, and `newline` tells whether a line break, or nothing but blanks, has been
seen since the last lexeme. Stops where no token starts. -/
def scanFrom : List Char → (skip : Nat) → Pos → (newline : Bool) → List Lexeme →
    List Lexeme × Option (Pos × LexFault)
  | [], _, _, _, found => (found.reverse, none)
  | c :: rest, skip + 1, pos, newline, found => scanFrom rest skip (pos.advance c) newline found
  | c :: rest, 0, pos, newline, found =>
    if Token.isSpace c then scanFrom rest 0 (pos.advance c) (newline || c = '\n') found
    else if c = '/' && rest.head? = some '/' then
      scanFrom rest (rest.takeWhile (· ≠ '\n')).length (pos.advance c) newline found
    else match Token.first c rest with
      | .ok (text, token) =>
        let lexeme := ⟨token, pos, pos.offset + byteLength text, newline⟩
        scanFrom rest (text.length - 1) (pos.advance c) false (lexeme :: found)
      | .error fault => (found.reverse, some (pos, fault))

/-- The lexemes of a text, and the place and reason of the first fault if there is one. -/
def scan (cs : List Char) : List Lexeme × Option (Pos × LexFault) :=
  scanFrom cs 0 .start true []

end Lexeme

end ScriptEngine
