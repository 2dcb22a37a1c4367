import OpenAddressing.Text.Decimal
import OpenAddressing.Value.Basic

/-!
# Floating-point numbers

A decimal text stands for the double-precision number nearest to it, and that for the exact
dyadic number in its bits. Where a result has to be a double again, it is rounded to the
nearest one, a half to the even neighbour.
-/

namespace OpenAddressing

def dyadicOfBits (bits : Nat) : Dyadic :=
  let fraction : Nat := bits % 0x10000000000000
  let exponent : Nat := (bits >>> 52) % 0x800
  let magnitude : Nat := if exponent = 0 then fraction else fraction + 0x10000000000000
  let mantissa : Int := if bits >>> 63 = 0 then magnitude else -magnitude
  .ofIntWithPrec mantissa (1075 - max 1 exponent)

/-- Digits with an optional point among them: the digits, and how many follow the point. -/
def readDigits (cs : List Char) : Nat × Nat :=
  let whole := cs.takeWhile Char.isDigit
  let places := ((cs.dropWhile Char.isDigit).drop 1).takeWhile Char.isDigit
  ((whole ++ places).foldl (fun n c => n * 10 + (c.toNat - '0'.toNat)) 0, places.length)

def readExponent (cs : List Char) : Int :=
  let size (ds : List Char) : Int := (readDigits ds).1
  match cs with
  | '-' :: ds => -size ds
  | '+' :: ds => size ds
  | ds => size ds

def nearestDouble (digits : Nat) (exponent : Int) : Nat :=
  let x := if exponent < 0 then Float.ofScientific digits true exponent.natAbs
    else Float.ofScientific digits false exponent.natAbs
  x.toBits.toNat

def Extended.ofText (text : String) : Extended :=
  let negative := text.toList.head? = some '-'
  let cs := if negative then text.toList.drop 1 else text.toList
  if cs.head? = some 'i' then .infinite negative
  else
    let mantissa := cs.takeWhile (· ≠ 'e')
    let (digits, places) := readDigits mantissa
    let exponent := readExponent ((cs.dropWhile (· ≠ 'e')).drop 1)
    let x := dyadicOfBits (nearestDouble digits (exponent - places))
    .finite (if negative then -x else x)

def fractionOf : Dyadic → Nat × Nat
  | .zero => (0, 1)
  | .ofOdd n k _ =>
    if 0 ≤ k then (n.natAbs, 1 <<< k.toNat) else (n.natAbs <<< (-k).toNat, 1)

def scaledByTwo (n d : Nat) (power : Int) : Nat :=
  if 0 ≤ power then Text.roundDiv (n <<< power.toNat) d
  else Text.roundDiv n (d <<< (-power).toNat)

def firstBit (n d : Nat) : Int :=
  let e : Int := (Nat.log2 n : Int) - (Nat.log2 d : Int)
  if n <<< (-e).toNat < d <<< e.toNat then e - 1 else e

/-- The double nearest to a fraction with a sign: it has 53 bits, or fewer near zero. -/
def Extended.nearest (negative : Bool) (n d : Nat) : Extended :=
  if n = 0 then .finite .zero
  else
    let last := max (firstBit n d - 52) (-1074)
    let units := scaledByTwo n d (-last)
    if (Nat.log2 units : Int) + last < 1024 then
      .finite (.ofIntWithPrec (if negative then -(units : Int) else units) (-last))
    else .infinite negative

def Extended.ofDyadic (x : Dyadic) : Extended :=
  let (n, d) := fractionOf x
  .nearest (x.blt .zero) n d

end OpenAddressing
