/-!
# Double-precision numbers

A number of a template is an IEEE 754 double, held by its 64 bits. `Double.view` takes the bits
apart into sign, significand and exponent, and `Double.ofDecimal` rounds a decimal fraction to the
nearest double, ties to the even significand.

Models the numbers of `Literal`, which `parse_expression` reads.
-/

namespace MustacheJsx

/-- A double, given by its bits: sign, eleven bits of exponent, 52 bits of fraction. -/
structure Double where
  bits : UInt64
  deriving DecidableEq

namespace Double

/-! ### Taking a double apart -/

/-- What a double denotes: `finite negative m q` stands for `m * 2 ^ q` with its sign. -/
inductive View where
  | nan
  | infinite (negative : Bool)
  | finite (negative : Bool) (significand : Nat) (exponent : Int)
  deriving DecidableEq

def isNegative (d : Double) : Bool := Nat.pow 2 63 ≤ d.bits.toNat

def exponentField (d : Double) : Nat := d.bits.toNat / Nat.pow 2 52 % Nat.pow 2 11

def fractionField (d : Double) : Nat := d.bits.toNat % Nat.pow 2 52

/-- The number that the bits denote. A subnormal double has no hidden bit. -/
def view (d : Double) : View :=
  if d.exponentField = 2047 then
    if d.fractionField = 0 then .infinite d.isNegative else .nan
  else if d.exponentField = 0 then .finite d.isNegative d.fractionField (-1074)
  else .finite d.isNegative (Nat.pow 2 52 + d.fractionField) (d.exponentField - 1075)

/-! ### Rounding a decimal fraction -/

def digitsValue (ds : List Char) : Nat := ds.foldl (fun n c => 10 * n + (c.toNat - 48)) 0

/-- `n / d` rounded to the nearest whole number, a tie to the even one. -/
def roundToEven (n d : Nat) : Nat :=
  let q := n / d
  let twice := 2 * (n % d)
  if twice < d then q else if d < twice then q + 1 else q + q % 2

/-- `n / d * 2 ^ (-e)` as a fraction of whole numbers. -/
def scaled (n d : Nat) (e : Int) : Nat × Nat :=
  if e < 0 then (n * Nat.pow 2 (-e).toNat, d) else (n, d * Nat.pow 2 e.toNat)

/-- The exponent at which `n / d` has a significand of 53 bits, or the least exponent there is. -/
def exponentFor (n d : Nat) : Int :=
  let e : Int := (n.log2 : Int) - (d.log2 : Int) - 52
  let (a, b) := scaled n d e
  max (-1074) (if a / b < Nat.pow 2 52 then e - 1 else e)

def infinityBits : Nat := 2047 * Nat.pow 2 52

/-- The double nearest to `digits / 10 ^ places`. Adding the significand to the shifted exponent
lets a significand that rounds up to 54 bits carry into the exponent; past the largest double stands
infinity. -/
def ofDecimal (negative : Bool) (digits places : Nat) : Double :=
  let sign := if negative then Nat.pow 2 63 else 0
  if digits = 0 then ⟨UInt64.ofNat sign⟩
  else
    let e := exponentFor digits (Nat.pow 10 places)
    let (a, b) := scaled digits (Nat.pow 10 places) e
    let magnitude := min infinityBits ((e + 1074).toNat * Nat.pow 2 52 + roundToEven a b)
    ⟨UInt64.ofNat (sign + magnitude)⟩

end Double

end MustacheJsx
