/-! Numbers written with digits, and text filled up to a width. -/
namespace ScriptEngine.Text

/-- The value of a row of decimal digits. -/
def digitsValue (ds : List Char) : Nat :=
  ds.foldl (fun n d => 10 * n + (d.toNat - '0'.toNat)) 0

/-- The decimal digits of a number, `0` for zero. -/
def decimalDigits (n : Nat) : List Char := Nat.toDigits 10 n

/-- The hexadecimal digits of a number in lower case, `0` for zero. -/
def hexDigits (n : Nat) : List Char := Nat.toDigits 16 n

/-- Puts fill characters before the text until it has the given width. -/
def padStart (width : Nat) (fill : Char) (text : String) : String :=
  String.ofList (List.replicate (width - text.length) fill) ++ text

/-- Puts spaces behind the text until it has the given width. -/
def padEnd (width : Nat) (text : String) : String :=
  text ++ String.ofList (List.replicate (width - text.length) ' ')

end ScriptEngine.Text
