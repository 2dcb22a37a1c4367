import OpenAddressing.Text.Field
import OpenAddressing.Text.Line

/-!
# Decimal numbers

A fraction of natural numbers is rounded to so many places, or to so many significant digits,
and a half goes to the even neighbour. The digits are then laid out around a point, or with
an exponent.
-/

namespace OpenAddressing.Text

/-- The quotient rounded to the nearest number, a half to the even one. -/
def roundDiv (n d : Nat) : Nat :=
  let q := n / d
  let r := n % d
  if 2 * r < d then q else if d < 2 * r then q + 1 else q + q % 2

/-- Digits and the place of the point: how many of them stand before it. -/
structure Decimal where
  digits : List Char
  point : Int

namespace Decimal

def scaled (n d : Nat) (power : Int) : Nat :=
  if 0 ≤ power then roundDiv (n * Nat.pow 10 power.toNat) d
  else roundDiv n (d * Nat.pow 10 (-power).toNat)

def magnitude (n d : Nat) : Int :=
  if d ≤ n then (Nat.toDigits 10 (n / d)).length
  else 1 - (Nat.toDigits 10 ((d - 1) / n)).length

def rounded (n d places : Nat) : Decimal :=
  let digits := Nat.toDigits 10 (scaled n d places)
  ⟨digits, digits.length - places⟩

/-- A fraction rounded to so many significant digits, without zeros at the end. -/
def significant (n d count : Nat) : Decimal :=
  if n = 0 then ⟨['0'], 1⟩
  else
    let point := magnitude n d
    let digits := Nat.toDigits 10 (scaled n d (count - point))
    ⟨(digits.reverse.dropWhile (· = '0')).reverse, point + (digits.length - count)⟩

def isZero (x : Decimal) : Bool := x.digits.all (· = '0')

structure Notation where
  stop : Int := 0
  exponent : Bool := false
  marked : Bool := false
  place : Bool := false

def exponentText (n : Int) : List Char :=
  'e' :: (if n < 0 then '-' else '+') :: (Nat.toDigits 10 n.natAbs).leftpad 2 '0'

def layOut (x : Decimal) (form : Notation) : List Char × List Char :=
  let zeros (n : Int) : List Char := List.replicate n.toNat '0'
  let point := if form.exponent then 1 else x.point
  let stop := max form.stop (if form.place ∧ !form.exponent then point + 1 else point)
  let length : Int := x.digits.length
  let whole :=
    if point ≤ 0 then ['0'] else x.digits.take point.toNat ++ zeros (point - length)
  let places :=
    if point ≤ 0 then zeros (-point) ++ x.digits ++ zeros (stop - length)
    else x.digits.drop point.toNat ++ zeros (stop - max length point)
  let rest := if places.isEmpty ∧ !form.marked then [] else '.' :: places
  (whole, rest ++ if form.exponent then exponentText (x.point - 1) else [])

theorem newline_notMem_significant (n d count : Nat) :
    '\n' ∉ (significant n d count).digits := by
  unfold significant
  split
  · decide
  · intro h
    have h := (List.dropWhile_sublist _).subset (List.mem_reverse.mp h)
    exact newline_notMem_toDigits _ (List.mem_reverse.mp h)

theorem newline_notMem_exponentText (n : Int) : '\n' ∉ exponentText n := by
  unfold exponentText
  split <;> simp [newline_notMem_toDigits]

theorem newline_notMem_layOut {x : Decimal} (h : '\n' ∉ x.digits) (form : Notation) :
    '\n' ∉ (x.layOut form).1 ++ (x.layOut form).2 := by
  have htake (n : Nat) : '\n' ∉ x.digits.take n := fun hc => h (List.mem_of_mem_take hc)
  have hdrop (n : Nat) : '\n' ∉ x.digits.drop n := fun hc => h (List.mem_of_mem_drop hc)
  simp only [layOut, List.mem_append, not_or]
  generalize (if form.exponent = true then (1 : Int) else x.point) = point
  refine ⟨?whole, ?rest, ?exponent⟩
  case whole => split <;> simp [htake]
  case rest => split <;> split <;> simp [h, hdrop]
  case exponent => split <;> simp [newline_notMem_exponentText]

end Decimal

end OpenAddressing.Text
