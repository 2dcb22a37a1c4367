import OpenAddressing.Text.Conversion
import OpenAddressing.Value.Format

/-!
# Integers written into texts

The conversions of a template are written from left to right, and just one of them takes the
integer. Of a conversion, the width counts first, then the precision, and the letter last.
-/

namespace OpenAddressing

namespace Text

/-- Whether the integer is used up after a width or a precision, which has to stay within a
bound on either side of zero. -/
def useAmount (bound : Nat) (wide unfit : ConversionFlaw) (n : Int) (used : Bool) :
    Option Amount → Except ConversionFlaw Bool
  | none => .ok used
  | some (.given m) => if m < bound then .ok used else .error wide
  | some .argument =>
    if used then .error .exhausted
    else if -(bound : Int) ≤ n ∧ n < bound then .ok true
    else .error unfit

def convertInteger (field : Field) (n : Int) : Except Refusal String := do
  if field.precision.getD 0 < 0x7ffffffd then .ok ()
  else .error (.conversion .longPrecision)
  if field.base = 10 ∧ !(Value.int n).isWritable then .error .manyDigits
  Value.demandRoom field
  let digits := (Nat.toDigits field.base n.natAbs).leftpad (field.precision.getD 0) '0'
  let digits := if field.letter = some 'X' then digits.map Char.toUpper else digits
  .ok (field.ofNumber (n < 0) field.baseMark 3 digits [])

def convertText (field : Field) (n : Int) : Except Refusal String := do
  let text ← (Value.int n).written
  Value.demandRoom field
  .ok (field.ofText text)

def convertCharacter (field : Field) (n : Int) : Except Refusal String := do
  Value.demand (0 ≤ n ∧ n < 0x110000) .characterRange
  Value.demandRoom field
  .ok ({ field with precision := none }.ofText (String.singleton (Char.ofNat n.toNat)))

def convertAs (conversion : Conversion) (place : Nat) (letter : Char) (n : Int) :
    Except Refusal String :=
  if letter ∈ ['d', 'i', 'u', 'o', 'x', 'X'] then
    convertInteger (conversion.field letter true) n
  else if letter ∈ ['e', 'E', 'f', 'F', 'g', 'G'] then
    Value.numberInField (conversion.field letter true) "int" n
  else if letter ∈ ['s', 'r', 'a'] then convertText (conversion.field letter false) n
  else if letter = 'c' then convertCharacter (conversion.field letter false) n
  else .error (.conversion (.unknownLetter letter place))

/-- Writes a conversion, and tells whether the integer is used up after it. -/
def convert (conversion : Conversion) (place : Nat) (n : Int) (used : Bool) :
    Except Refusal (String × Bool) := do
  let used ← (useAmount wordBound .wideWidth .argumentWidth n used
    conversion.width).mapError .conversion
  let used ← (useAmount 0x80000000 .widePrecision .argumentPrecision n used
    conversion.precision).mapError .conversion
  match conversion.letter with
  | none => .error (.conversion .unfinished)
  | some letter =>
    if letter = '%' then .ok ("%", used)
    else if used then .error (.conversion .exhausted)
    else return (← convertAs conversion place letter n, true)

def convertFrom (n : Int) : Bool → String → List Part → Except Refusal String
  | true, written, [] => .ok written
  | false, _, [] => .error (.conversion .unused)
  | used, written, .literal c :: rest => convertFrom n used (written.push c) rest
  | used, written, .conversion conversion place :: rest => do
    let (text, used) ← convert conversion place n used
    convertFrom n used (written ++ text) rest
  | _, _, .named :: _ => .error (.conversion .named)

def fillWith (template : String) (n : Int) : Except Refusal String :=
  convertFrom n false "" (parts template.toList)

end Text

end OpenAddressing
