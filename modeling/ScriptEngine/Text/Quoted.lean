import ScriptEngine.Text.Digits
import ScriptEngine.Text.Extender
import ScriptEngine.Text.Unprintable
/-!
Text between quotes. The quote itself, the backslash and the common controls have short escapes;
a character that would not show, or would merge with the one before it, is written by its number.
-/
namespace ScriptEngine.Text

/-- One character as it stands between two marks `quote`. -/
def escapeChar (quote c : Char) : List Char :=
  if c = '\x00' then ['\\', '0']
  else if c = '\t' then ['\\', 't']
  else if c = '\r' then ['\\', 'r']
  else if c = '\n' then ['\\', 'n']
  else if c = '\\' || c = quote then ['\\', c]
  else if isExtender c || !isPrintable c then
    ['\\', 'u', '\x7b'] ++ hexDigits c.toNat ++ ['\x7d']
  else [c]

/-- A string in double quotes. -/
def quoteString (s : String) : String :=
  String.ofList ('"' :: (s.toList.flatMap (escapeChar '"') ++ ['"']))

/-- A path in double quotes. Single quotes in it are escaped too. -/
def quotePath (path : String) : String :=
  let escape (c : Char) : List Char := if c = '\'' then ['\\', c] else escapeChar '"' c
  String.ofList ('"' :: (path.toList.flatMap escape ++ ['"']))

/-- A character in single quotes. -/
def quoteChar (c : Char) : String :=
  String.ofList ('\'' :: (escapeChar '\'' c ++ ['\'']))

end ScriptEngine.Text
