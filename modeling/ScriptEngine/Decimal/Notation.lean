import ScriptEngine.Decimal.Binary
import ScriptEngine.Text.Digits
/-!
Numbers as text. A double is written as the shortest decimal that reads back as it: among the decimals
that round to it, one with the fewest digits, of those the nearest, and of two equally near the larger.
-/
namespace ScriptEngine.Decimal

/-- A double `m · 2^q` in quarters of its last place, over a common denominator with the decimal
grid `10^p`: `value`, the ends `low` and `high` of the reals that round to it, and the grid's
`unit`. -/
structure Grid where
  low : Nat
  value : Nat
  high : Nat
  unit : Nat
  /-- The ends themselves round to the double. -/
  closed : Bool

namespace Grid

/-- The grid `10^p` around `m · 2^q`. Below a power of two the doubles lie half as far apart. -/
def around (m : Nat) (q p : Int) : Grid :=
  let scale := Nat.pow 2 (q - 2).toNat * Nat.pow 10 (-p).toNat
  let below := if m = Binary.unitMantissa && Binary.minExponent < q then 1 else 2
  { low := (4 * m - below) * scale
    value := 4 * m * scale
    high := (4 * m + 2) * scale
    unit := Nat.pow 2 (2 - q).toNat * Nat.pow 10 p.toNat
    closed := m % 2 = 0 }

/-- Whether the grid's `n`-th point rounds to the double. -/
def admits (g : Grid) (n : Nat) : Bool :=
  if g.closed then g.low ≤ n * g.unit && n * g.unit ≤ g.high
  else g.low < n * g.unit && n * g.unit < g.high

/-- The point that rounds to the double and is nearest to it, if the grid has one. -/
def nearest? (g : Grid) : Option Nat :=
  let n := g.value / g.unit
  match g.admits n, g.admits (n + 1) with
  | true, true =>
    if g.value - n * g.unit < (n + 1) * g.unit - g.value then some n else some (n + 1)
  | true, false => some n
  | false, true => some (n + 1)
  | false, false => none

end Grid

/-- The `k` with `10^(k-1) ≤ m · 2^q < 10^k`. -/
def magnitude (m : Nat) (q : Int) : Int :=
  let scaled := m * Nat.pow 2 q.toNat * Nat.pow 10 400 / Nat.pow 2 (-q).toNat
  (Text.decimalDigits scaled).length - 400

/-- Tries ever finer grids, at most seventeen digits deep. -/
def searchGrids (m : Nat) (q : Int) : (tries : Nat) → (p : Int) → Nat × Int
  | 0, p => ((Grid.around m q p).value / (Grid.around m q p).unit, p)
  | tries + 1, p =>
    match (Grid.around m q p).nearest? with
    | some n => (n, p)
    | none => searchGrids m q tries (p - 1)

/-- Moves a factor ten from the digits to the exponent. -/
def dropZeros : (tries : Nat) → Nat × Int → Nat × Int
  | 0, d => d
  | tries + 1, (n, p) => if n % 10 = 0 then dropZeros tries (n / 10, p + 1) else (n, p)

/-- Digits `n` and exponent `p` of the shortest decimal `n · 10^p` for `m · 2^q`, `m` positive. -/
def shortest (m : Nat) (q : Int) : Nat × Int :=
  dropZeros 17 (searchGrids m q 17 (magnitude m q - 1))

/-- `n · 10^p` without an exponent, and without a point if it is whole. -/
def positional (n : Nat) (p : Int) : List Char :=
  let digits := Text.decimalDigits n
  if 0 ≤ p then digits ++ List.replicate p.toNat '0'
  else
    let places := (-p).toNat
    if places < digits.length then
      digits.take (digits.length - places) ++ '.' :: digits.drop (digits.length - places)
    else '0' :: '.' :: (List.replicate (places - digits.length) '0' ++ digits)

/-- The shortest text that reads back as the number; a zero keeps its sign. -/
def floatText (x : Float) : String :=
  match Binary.ofFloat x with
  | .nan => "NaN"
  | .infinite negative => if negative then "-inf" else "inf"
  | .finite negative m q =>
    let digits := if m = 0 then ['0'] else
      let (n, p) := shortest m q
      positional n p
    String.ofList (if negative then '-' :: digits else digits)

end ScriptEngine.Decimal
