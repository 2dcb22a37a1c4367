import OpenAddressing.Value.Number
import OpenAddressing.Value.Refusal

/-!
# Arithmetic of floating-point numbers

Each operation gives the exact result rounded to the nearest double. Zero has a sign, and
operations without a result give none. A result is written in the fewest digits that read
back as the same number; of two such texts the nearer one is taken.
-/

namespace OpenAddressing

/-- A floating-point number with its sign, which zero has too. -/
structure Double where
  negative : Bool
  number : Extended

namespace Double

section Text

def readsBack (x : Dyadic) (digits : Nat) (power : Int) : Bool :=
  dyadicOfBits (nearestDouble digits power) == x

def nearer (n d low : Nat) (power : Int) : Nat :=
  if Text.Decimal.scaled n d power = low then low else low + 1

def wholeScaled (n d : Nat) (power : Int) : Nat :=
  if 0 ≤ power then n * Nat.pow 10 power.toNat / d
  else n / (d * Nat.pow 10 (-power).toNat)

def shortestFrom (x : Dyadic) (n d : Nat) (count : Nat) : Nat → Text.Decimal
  | 0 => .significant n d count
  | tries + 1 =>
    let point := Text.Decimal.magnitude n d
    let power : Int := count - point
    let low := wholeScaled n d power
    let digits : Option Nat :=
      match readsBack x low (-power), readsBack x (low + 1) (-power) with
      | true, true => some (nearer n d low power)
      | true, false => some low
      | false, true => some (low + 1)
      | false, false => none
    match digits with
    | none => shortestFrom x n d (count + 1) tries
    | some digits =>
      let cs := Nat.toDigits 10 digits
      ⟨(cs.reverse.dropWhile (· = '0')).reverse, point + (cs.length - count)⟩

/-- The fewest digits that read back as a positive number. Seventeen are always enough. -/
def shortest (x : Dyadic) : Text.Decimal :=
  let (n, d) := fractionOf x
  shortestFrom x n d 1 17

/-- The size of a finite number as text: with an exponent below a ten-thousandth, and from
seventeen digits before the point on. -/
def sizeText (x : Dyadic) : List Char :=
  if x == .zero then ['0', '.', '0']
  else
    let digits := shortest (if x.blt .zero then x.neg else x)
    let (whole, rest) :=
      digits.layOut { exponent := digits.point ≤ -4 ∨ 16 < digits.point, place := true }
    whole ++ rest

def text (x : Double) : String :=
  let size := match x.number with
    | .finite y => sizeText y
    | .infinite _ => ['i', 'n', 'f']
  String.ofList (if x.negative then '-' :: size else size)

theorem newline_notMem_shortestFrom (x : Dyadic) (n d count tries : Nat) :
    '\n' ∉ (shortestFrom x n d count tries).digits := by
  induction tries generalizing count with
  | zero => exact Text.Decimal.newline_notMem_significant n d count
  | succ tries ih =>
      unfold shortestFrom
      dsimp only
      split
      · exact ih (count + 1)
      · intro h
        have h := (List.dropWhile_sublist _).subset (List.mem_reverse.mp h)
        exact newline_notMem_toDigits _ (List.mem_reverse.mp h)

theorem oneLine_text (x : Double) : OneLine x.text := by
  have hsize (y : Dyadic) : '\n' ∉ sizeText y := by
    unfold sizeText
    split
    · decide
    · exact Text.Decimal.newline_notMem_layOut (newline_notMem_shortestFrom _ _ _ _ _) _
  rw [text, oneLine_ofList]
  cases x.number with
  | finite y => split <;> simp [hsize]
  | infinite _ => split <;> simp

def line (x : Double) : Line := ⟨x.text, x.oneLine_text⟩

def ofText (text : String) : Double := ⟨text.toList.head? = some '-', .ofText text⟩

end Text

def ofExtended (x : Extended) : Double :=
  match x with
  | .finite y => ⟨y.blt .zero, x⟩
  | .infinite negative => ⟨negative, x⟩

def ofInt (n : Int) : Except Refusal Double :=
  match Extended.ofDyadic (.ofInt n) with
  | .finite x => .ok ⟨n < 0, .finite x⟩
  | .infinite _ => .error (.mismatch .floatRange)

def negate (x : Double) : Double :=
  match x.number with
  | .finite y => ⟨!x.negative, .finite y.neg⟩
  | .infinite negative => ⟨!x.negative, .infinite (!negative)⟩

/-- The sum. Zero from numbers that are not zero is positive. -/
def add (x y : Double) : Option Double :=
  match x.number, y.number with
  | .infinite a, .infinite b => if a = b then some x else none
  | .infinite _, .finite _ => some x
  | .finite _, .infinite _ => some y
  | .finite a, .finite b =>
    if a.add b == .zero then some ⟨a == .zero && x.negative && y.negative, .finite .zero⟩
    else some (ofExtended (.ofDyadic (a.add b)))

def subtract (x y : Double) : Option Double := x.add y.negate

def multiply (x y : Double) : Option Double :=
  let negative := x.negative != y.negative
  match x.number, y.number with
  | .finite a, .finite b =>
    match Extended.ofDyadic (a.mul b) with
    | .finite c => some ⟨negative, .finite c⟩
    | .infinite _ => some ⟨negative, .infinite negative⟩
  | .infinite _, .finite b => if b == .zero then none else some ⟨negative, .infinite negative⟩
  | .finite a, .infinite _ => if a == .zero then none else some ⟨negative, .infinite negative⟩
  | .infinite _, .infinite _ => some ⟨negative, .infinite negative⟩

/-- Both numbers in whole units of a power of two, which is given by its negative exponent. -/
def commonUnits (x y : Dyadic) : Int × Int × Int :=
  let places : Dyadic → Int := fun z =>
    match z with
    | .zero => 0
    | .ofOdd _ k _ => k
  let k := max (max (places x) (places y)) 0
  let units : Dyadic → Int := fun z =>
    match z with
    | .zero => 0
    | .ofOdd n j _ => n <<< (k - j).toNat
  (units x, units y, k)

def remainder (x y : Dyadic) : Dyadic :=
  let (m, n, k) := commonUnits x y
  .ofIntWithPrec (m.tmod n) k

def floorRemainder (x y : Dyadic) : Extended :=
  let r := remainder x y
  if r != .zero && r.blt .zero != y.blt .zero then .ofDyadic (r.add y) else .finite r

def quotient (x y : Dyadic) : Extended :=
  let (m, n, _) := commonUnits x y
  .nearest (decide (m < 0) != decide (n < 0)) m.natAbs n.natAbs

def floor : Dyadic → Dyadic
  | .zero => .zero
  | .ofOdd n k h => if k ≤ 0 then .ofOdd n k h else .ofInt (n / (1 <<< k.toNat : Nat))

/-- The whole number nearest to a quotient that was computed as a double. -/
def snap (x : Dyadic) : Dyadic :=
  let low := floor x
  if (Dyadic.ofIntWithPrec 1 1).blt (x.sub low) then low.add (.ofInt 1) else low

def floorQuotient (x y : Dyadic) (negative : Bool) : Double :=
  let r := remainder x y
  let whole : Extended :=
    match Extended.ofDyadic (x.sub r) with
    | .finite z => quotient z y
    | .infinite side => .infinite (side != y.blt .zero)
  let lowered : Extended :=
    match whole with
    | .infinite side => .infinite side
    | .finite q =>
      if r != .zero && r.blt .zero != y.blt .zero then .ofDyadic (q.sub (.ofInt 1)) else .finite q
  match lowered with
  | .infinite side => ⟨side, .infinite side⟩
  | .finite q => if q == .zero then ⟨negative, .finite .zero⟩ else ofExtended (.finite (snap q))

def divide (x y : Double) : Except Refusal (Option Double) :=
  let negative := x.negative != y.negative
  match x.number, y.number with
  | _, .finite .zero => .error .decimalDivisionByZero
  | .infinite _, _ => .ok none
  | .finite a, .infinite _ =>
    if a != .zero && negative then .ok (some ⟨true, .finite (.ofInt (-1))⟩)
    else .ok (some ⟨negative, .finite .zero⟩)
  | .finite a, .finite b => .ok (some (floorQuotient a b negative))

end Double

def Value.ofFloatText (text : String) : Value :=
  let x := Double.ofText text
  .float x.line x.number

end OpenAddressing
