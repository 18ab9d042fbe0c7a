import MustacheJsx.Number.Shortest

/-!
# The compact spelling of a number

A script may write a number in several ways. The compact spelling starts from the plain one, which
writes the exponents from -7 to 21 positionally, and takes each shorter form in turn: no zero before
the point, hexadecimal for whole numbers, an exponent for leading or trailing zeros, an exponent for
a point.

Models the spelling of numbers in the code printer behind `print_program`.
-/

namespace MustacheJsx.Double

/-! ### The plain spelling -/

/-- `n` without its trailing zeros, and how many they were. -/
def dropZeros (n : Nat) : Nat → Nat × Nat
  | 0 => (n, 0)
  | fuel + 1 =>
    if n ≠ 0 ∧ n % 10 = 0 then
      let (m, z) := dropZeros (n / 10) fuel
      (m, z + 1)
    else (n, 0)

def digitsOf (n : Nat) : List Char := Nat.toDigits 10 n

def signedDigits (n : Int) : List Char :=
  if n < 0 then '-' :: digitsOf n.natAbs else digitsOf n.natAbs

/-- Digits `ds` with the point after the first `k` of them; outside the positional range the first
digit stands before the point and an exponent follows, with its sign. -/
def plainDigits (ds : List Char) (k : Int) : List Char :=
  let n : Int := ds.length
  if n ≤ k ∧ k ≤ 21 then ds ++ List.replicate (k - n).toNat '0'
  else if 0 < k ∧ k ≤ 21 then ds.take k.toNat ++ '.' :: ds.drop k.toNat
  else if -6 < k ∧ k ≤ 0 then '0' :: '.' :: List.replicate (-k).toNat '0' ++ ds
  else
    let e := k - 1
    let mantissa := match ds with
      | d :: d' :: rest => d :: '.' :: d' :: rest
      | short => short
    mantissa ++ 'e' :: (if e < 0 then '-' else '+') :: digitsOf e.natAbs

def plain (m : Nat) (q : Int) : List Char :=
  let (c, e) := shortest m q
  let (c, z) := dropZeros c 17
  let ds := digitsOf c
  plainDigits ds (e + z + ds.length)

/-! ### Shorter forms -/

def shorter (current candidate : List Char) : List Char :=
  if candidate.length < current.length then candidate else current

def withoutLeadingZero : List Char → List Char
  | '0' :: '.' :: rest => '.' :: rest
  | cs => cs

def withoutPlus : List Char → List Char
  | [] => []
  | 'e' :: '+' :: rest => 'e' :: rest
  | c :: cs => c :: withoutPlus cs

def leadingZerosAsExponent (cs : List Char) : List Char :=
  match cs with
  | '.' :: '0' :: rest =>
    let ds := rest.dropWhile (· == '0')
    if ds.isEmpty then cs
    else shorter cs (ds ++ 'e' :: '-' :: digitsOf (cs.length - 1))
  | _ => cs

def trailingZerosAsExponent (cs : List Char) : List Char :=
  let zeros := (cs.reverse.takeWhile (· == '0')).length
  if zeros = 0 then cs
  else shorter cs (cs.take (cs.length - zeros) ++ 'e' :: digitsOf zeros)

def signedValue : List Char → Int
  | '-' :: ds => -(digitsValue ds : Int)
  | ds => digitsValue ds

def pointAsExponent (cs : List Char) : List Char :=
  let whole := cs.takeWhile (· != '.')
  match cs.dropWhile (· != '.') with
  | '.' :: rest =>
    let point := rest.takeWhile (· != 'e')
    match rest.dropWhile (· != 'e') with
    | 'e' :: exponent =>
      shorter cs (whole ++ point ++ 'e' :: signedDigits (signedValue exponent - point.length))
    | _ => cs
  | _ => cs

def wholeNumber? (m : Nat) (q : Int) : Option Nat :=
  if 0 ≤ q then some (m * Nat.pow 2 q.toNat)
  else if m % Nat.pow 2 (-q).toNat = 0 then some (m / Nat.pow 2 (-q).toNat) else none

def hexadecimalLimit : Nat := Nat.pow 2 128 - 1

/-- The compact spelling of `m * 2 ^ q`. Small whole numbers keep their digits. -/
def compactMagnitude (m : Nat) (q : Int) : List Char :=
  let start := withoutPlus (withoutLeadingZero (plain m q))
  match wholeNumber? m q with
  | some n =>
    if n < 1000 then digitsOf n
    else
      let hexadecimal := '0' :: 'x' :: Nat.toDigits 16 (min n hexadecimalLimit)
      if hexadecimal.length < start.length then pointAsExponent hexadecimal
      else pointAsExponent (trailingZerosAsExponent start)
  | none => pointAsExponent (trailingZerosAsExponent (leadingZerosAsExponent start))

def compact (d : Double) : String :=
  match d.view with
  | .nan => "NaN"
  | .infinite false => "Infinity"
  | .infinite true => "-Infinity"
  | .finite negative m q =>
    String.ofList (if negative then '-' :: compactMagnitude m q else compactMagnitude m q)

end MustacheJsx.Double
