import ScriptEngine.Text.Digits
/-! Numbers read off text. -/
namespace ScriptEngine.Decimal

/-- A sign, and whether it is a minus. -/
def splitSign : List Char → Bool × List Char
  | '+' :: rest => (false, rest)
  | '-' :: rest => (true, rest)
  | rest => (false, rest)

/-- Whether text is a row of digits, at least one. -/
def isNumeral (cs : List Char) : Bool := !cs.isEmpty && cs.all Char.isDigit

/-- The number a row of digits names, if there is a digit and nothing else. -/
def readNat? (cs : List Char) : Option Nat :=
  if isNumeral cs then some (Text.digitsValue cs) else none

/-- A whole number with an optional sign that fits 64 bits. -/
def readInt? (cs : List Char) : Option Int64 := do
  let (negative, digits) := splitSign cs
  let n ← readNat? digits
  if negative then
    if n ≤ Int64.minValue.toInt.natAbs then some (Int64.ofInt (-n)) else none
  else if n ≤ Int64.maxValue.toInt.natAbs then some (Int64.ofNat n) else none

/-- The double nearest to the number that the digits name times `10^e`. Far outside the range of
doubles only the place of the first digit matters. -/
def nearestFloat (ds : List Char) (e : Int) : Float :=
  let ds := ds.dropWhile (· = '0')
  let top := ds.length + e
  if ds.isEmpty || top < -400 then 0.0
  else if 400 < top then 1.0 / 0.0
  else Float.ofScientific (Text.digitsValue ds) (e < 0) e.natAbs

/-- The size of an exponent. Digits behind the one that takes it to 65536 or more are not counted. -/
def exponentSize (ds : List Char) : Nat :=
  ds.foldl (fun n d => if n < 65536 then 10 * n + (d.toNat - '0'.toNat) else n) 0

/-- The exponent behind a number: nothing, or `e`, an optional sign and digits. -/
def readExponent? : List Char → Option Int
  | [] => some 0
  | c :: rest =>
    if c = 'e' || c = 'E' then
      let (negative, digits) := splitSign rest
      if isNumeral digits then
        let n : Int := exponentSize digits
        some (if negative then -n else n)
      else none
    else none

/-- A decimal with an optional point and exponent; a digit stands on one side of the point at
least. -/
def readDecimal? (cs : List Char) : Option Float :=
  let whole := cs.takeWhile Char.isDigit
  let rest := cs.dropWhile Char.isDigit
  let (places, rest) := match rest with
    | '.' :: rest => (rest.takeWhile Char.isDigit, rest.dropWhile Char.isDigit)
    | _ => ([], rest)
  if whole.isEmpty && places.isEmpty then none
  else (readExponent? rest).map fun e =>
    nearestFloat (whole ++ places) (e - places.length)

/-- A decimal, an infinity or a NaN, in either case of letters and with an optional sign. -/
def readFloat? (cs : List Char) : Option Float :=
  let (negative, rest) := splitSign cs
  let word := String.ofList (rest.map Char.toLower)
  let magnitude :=
    if word = "inf" || word = "infinity" then some (1.0 / 0.0)
    else if word = "nan" then some (0.0 / 0.0)
    else readDecimal? rest
  magnitude.map fun x => if negative then -x else x

end ScriptEngine.Decimal
