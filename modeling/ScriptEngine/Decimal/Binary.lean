/-! Double-precision numbers as integers times powers of two. -/
namespace ScriptEngine.Decimal

/-- What a double stands for; `finite negative m q` is `±m · 2^q`. -/
inductive Binary where
  | nan
  | infinite (negative : Bool)
  | finite (negative : Bool) (m : Nat) (q : Int)
  deriving DecidableEq, Repr

namespace Binary

/-- The least exponent, that of the subnormal numbers. -/
def minExponent : Int := -1074

/-- The least whole part of a normal number, in units of its last place: two to the power of 52. -/
def unitMantissa : Nat := 4503599627370496

/-- The sign bit as a number: two to the power of 63. -/
def signBit : Nat := 9223372036854775808

/-- Splits the bits into sign, exponent and fraction. -/
def ofBits (bits : UInt64) : Binary :=
  let negative := bits.toNat / signBit = 1
  let exponent : Nat := bits.toNat / unitMantissa % 2048
  let fraction : Nat := bits.toNat % unitMantissa
  if exponent = 2047 then
    if fraction = 0 then infinite negative else nan
  else if exponent = 0 then finite negative fraction minExponent
  else finite negative (unitMantissa + fraction) (exponent - 1075)

def ofFloat (x : Float) : Binary := ofBits x.toBits

/-- The double `±m · 2^q`, for an `m` below `2^53` whose value some double has exactly. -/
def pack (negative : Bool) (m : Nat) (q : Int) : Float :=
  let sign := if negative then signBit else 0
  if m = 0 then Float.ofBits (UInt64.ofNat sign)
  else
    let shift := min (52 - m.log2 : Int) (q - minExponent)
    let m := m * Nat.pow 2 shift.toNat
    if m < unitMantissa then Float.ofBits (UInt64.ofNat (sign + m))
    else
      let exponent := ((q - shift) + 1075).toNat
      Float.ofBits (UInt64.ofNat (sign + exponent * unitMantissa + (m - unitMantissa)))

end Binary

/-- The remainder of `x / y` that has the sign of `x`, computed without rounding. -/
def remainder (x y : Float) : Float :=
  match Binary.ofFloat x, Binary.ofFloat y with
  | .finite negative m q, .finite _ n r =>
    if n = 0 then 0.0 / 0.0
    else
      let low := min q r
      let dividend := m * Nat.pow 2 (q - low).toNat
      let divisor := n * Nat.pow 2 (r - low).toNat
      Binary.pack negative (dividend % divisor) low
  | .finite .., .infinite _ => x
  | _, _ => 0.0 / 0.0

end ScriptEngine.Decimal
