import MustacheJsx.Number.Double

/-!
# The fewest decimal digits that read back

The numbers that round to a double form an interval around it. The shortest decimal of the double is
the decimal of fewest digits in that interval, and of several the one nearest to the double. On the
grid of decimals with `n` digits only the two neighbours of the double have to be tried.

Models the digits of numbers in the code printer behind `print_program`.
-/

namespace MustacheJsx.Double

/-- The interval of numbers that round to `m * 2 ^ q`, over the common denominator `scale`; the ends
belong to it when `closed`. -/
structure Interval where
  low : Nat
  value : Nat
  high : Nat
  scale : Nat
  closed : Bool

/-- Below a power of two the neighbouring double is nearer, unless it is subnormal. -/
def intervalOf (m : Nat) (q : Int) : Interval :=
  let below := if m = Nat.pow 2 52 ∧ -1074 < q then 1 else 2
  let unit := if q < 0 then 1 else Nat.pow 2 q.toNat
  { low := (4 * m - below) * unit
    value := 4 * m * unit
    high := (4 * m + 2) * unit
    scale := if q < 0 then 4 * Nat.pow 2 (-q).toNat else 4
    closed := m % 2 = 0 }

/-- The number of steps of ten that lift `n / d` to one at least. -/
def stepsToOne (n d : Nat) : Nat → Nat
  | 0 => 0
  | fuel + 1 => if d ≤ n then 0 else stepsToOne (10 * n) d fuel + 1

/-- The `k` with `10 ^ (k - 1) ≤ n / d < 10 ^ k`, for a double greater than zero. -/
def decimalExponent (n d : Nat) : Int :=
  if d ≤ n then ((Nat.toDigits 10 (n / d)).length : Int) else 1 - (stepsToOne n d 400 : Int)

def Interval.holds (i : Interval) (c : Nat) (e : Int) : Bool :=
  let (a, s) := if e < 0 then (c, i.scale) else (c * Nat.pow 10 e.toNat, i.scale)
  let t := if e < 0 then Nat.pow 10 (-e).toNat else 1
  if i.closed then i.low * t ≤ a * s && a * s ≤ i.high * t
  else i.low * t < a * s && a * s < i.high * t

/-- The neighbours of the value on the grid of multiples of `10 ^ e` that lie in the interval; of
two the nearer one, and of two equally near ones the even one. -/
def Interval.onGrid? (i : Interval) (e : Int) : Option Nat :=
  let (a, b) :=
    if e < 0 then (i.value * Nat.pow 10 (-e).toNat, i.scale)
    else (i.value, i.scale * Nat.pow 10 e.toNat)
  let c := a / b
  match i.holds c e, i.holds (c + 1) e with
  | true, true => some (roundToEven a b)
  | true, false => some c
  | false, true => some (c + 1)
  | false, false => none

/-- Grids of `n`, `n + 1`, … digits are tried in turn. -/
def shortestFrom (i : Interval) (k : Int) (n : Nat) : Nat → Nat × Int
  | 0 => (0, 0)
  | fuel + 1 =>
    match i.onGrid? (k - n) with
    | some c => (c, k - n)
    | none => shortestFrom i k (n + 1) fuel

/-- The shortest decimal `c * 10 ^ e` of `m * 2 ^ q`; seventeen digits are always enough. -/
def shortest (m : Nat) (q : Int) : Nat × Int :=
  let i := intervalOf m q
  shortestFrom i (decimalExponent i.value i.scale) 1 17

end MustacheJsx.Double
